import ItchOrderbook.Book.EngineSpec

/-!
# The invariant over whole runs of the engine

One message keeps `BookEngine.Inv` (`Outcome.inv`, one case for each outcome), so every
engine reached from a fresh one has it (`inv_run`). Read off the invariant: the books show
exactly the live orders, and a message that is not applied changes neither.
-/

namespace ItchOrderbook

open LiveOrders

namespace BookEngine

/-! ## One message keeps the invariant -/

/-- The part of an order that is executed or cancelled leaves its level. -/
theorem gains_reduceLive {live : LiveOrders} {ref : UInt64} {v : Value} {qty : UInt32}
    (h : live.lookup ref = some v) (hq : qty ≤ v.shares) :
    Gains (reduceLive live ref v qty) live v qty.toNat (if v.shares == qty then 1 else 0) := by
  unfold reduceLive
  by_cases hgone : v.shares = qty
  · simp only [hgone, if_true, beq_self_eq_true]
    exact hgone ▸ gains_erase h
  · simp only [hgone, if_false, beq_eq_false_iff_ne.mpr hgone, Bool.false_eq_true]
    exact gains_reduce h hq

theorem positive_reduceLive {live : LiveOrders} {ref : UInt64} {v : Value} {qty : UInt32}
    (hpos : live.Positive) (h : live.lookup ref = some v) (hq : qty ≤ v.shares) :
    (reduceLive live ref v qty).Positive := by
  unfold reduceLive
  split
  · exact hpos.erase ref
  · rename_i hne
    refine hpos.insert ref (fun e => hne ?_) (hpos ref v h).2
    have hle := UInt32.le_iff_toNat_le.mp hq
    have hsub := congrArg UInt32.toNat e
    rw [UInt32.toNat_sub_of_le _ _ hq, UInt32.toNat_zero] at hsub
    exact UInt32.toNat_inj.mp (by omega)

theorem SameBooks.inv {e e' : BookEngine RefMap} (h : SameBooks e e') (hinv : e.Inv) :
    e'.Inv where
  positive := h.refs ▸ hinv.positive
  tracks locate := by rw [h.refs, h.books]; exact hinv.tracks locate

/-- An engine whose live orders and one book moved together keeps the invariant. -/
theorem Updates.inv {e e' : BookEngine RefMap} {live : LiveOrders} {locate : UInt16}
    {b : OrderBook} (h : Updates e e' live locate b) (hpos : live.Positive)
    (hself : b.Tracks live locate)
    (hother : ∀ locate', locate' ≠ locate → (e.bookOf locate').Tracks live locate') :
    e'.Inv where
  positive := h.live_eq ▸ hpos
  tracks locate' := by
    rw [h.live_eq, h.books]
    split
    · rename_i hl
      exact hl ▸ hself
    · exact hother locate' ‹_›

/-- Each outcome keeps the invariant. -/
theorem Outcome.inv {e e' : BookEngine RefMap} {m : DecodedMessage} {out : ExecResult}
    (h : Outcome e m e' out) (hinv : e.Inv) : e'.Inv := by
  cases h with
  | rejected _ same => exact same.inv hinv
  | printed _ _ same => exact same.inv hinv
  | system _ _ same => exact same.inv hinv
  | added s _ hside _ _ _ _ hsh hnew _ hcan upd =>
    have hg := gains_insert (RefMap.notMem_live_of_find hnew)
      ⟨m.price, m.shares, m.stockLocate, m.side⟩
    refine upd.inv (hinv.positive.insert _ hsh ⟨s, hside⟩) ?_ fun locate' hl =>
      (hinv.tracks locate').frame hg hl.symm
    rw [hside] at hcan ⊢
    rw [hside] at hg
    exact (hinv.tracks m.stockLocate).add (v := ⟨m.price, m.shares, m.stockLocate, s.code⟩)
      hcan rfl rfl hg
  | reduced v s _ hv hside hsh hle upd =>
    have hg := gains_reduceLive hv hle
    refine upd.inv (positive_reduceLive hinv.positive hv hle) ?_ fun locate' hl =>
      (hinv.tracks locate').frame_symm hg hl.symm
    have hcan := reduce_removed hinv hv hsh hle
    rw [hside] at hcan ⊢
    exact (hinv.tracks v.locate).remove hcan rfl hside hg
  | deleted v s _ hv hside upd =>
    have hg := gains_erase hv
    refine upd.inv (hinv.positive.erase _) ?_ fun locate' hl =>
      (hinv.tracks locate').frame_symm hg hl.symm
    have hcan := reduce_removed hinv hv (hinv.positive _ v hv).1 (UInt32.le_refl _)
    rw [beq_self_eq_true, hside] at hcan
    rw [hside]
    exact (hinv.tracks v.locate).remove hcan rfl hside hg
  | replaced old s _ hv hside _ hne _ _ hsh hnew hcan upd =>
    -- the old order leaves, then the new one arrives
    have hout := gains_erase hv
    have hfresh : m.newOrderRef ∉ e.refs.live.erase m.orderRef := fun hmem =>
      RefMap.notMem_live_of_find hnew (Finmap.mem_erase.mp hmem).2
    have hin := gains_insert hfresh ⟨m.price, m.shares, old.locate, old.side⟩
    refine upd.inv ((hinv.positive.erase _).insert _ hsh ⟨s, hside⟩) ?_ fun locate' hl =>
      ((hinv.tracks locate').frame_symm hout hl.symm).frame hin hl.symm
    rw [hside] at hcan hin ⊢
    obtain ⟨hrem, hadd⟩ := OrderBook.replace_admitted hcan
    exact ((hinv.tracks old.locate).remove hrem rfl hside hout).add
      (v := ⟨m.price, m.shares, old.locate, s.code⟩) hadd rfl rfl hin

theorem Inv.next {e : BookEngine RefMap} (hinv : e.Inv) (m : DecodedMessage) :
    (e.next m).Inv :=
  (step_outcome hinv m).inv hinv

/-- Every engine reached from one that has the invariant has it. Induction on the messages. -/
theorem Inv.run {e : BookEngine RefMap} (hinv : e.Inv) (ms : List DecodedMessage) :
    (e.run ms).Inv := by
  induction ms generalizing e with
  | nil => exact hinv
  | cons m ms ih => exact ih (hinv.next m)

theorem inv_run (priceLevels : UInt32) (capacity : ℕ) (ms : List DecodedMessage) :
    ((new priceLevels (RefMap.new capacity)).run ms).Inv :=
  (inv_new priceLevels capacity).run ms

/-! ## Reading the books -/

/-- The level of a locate's book on one side at one price. -/
def level {T : Type} (e : BookEngine T) (locate : UInt16) (s : Side) (price : UInt32) :
    PriceLevel := (e.bookOf locate).levels s price

def bestBid {T : Type} (e : BookEngine T) (locate : UInt16) : UInt32 := (e.bookOf locate).bestBid

def bestAsk {T : Type} (e : BookEngine T) (locate : UInt16) : UInt32 := (e.bookOf locate).bestAsk

/-- **The books show the live orders.** After any messages, valid or not, each level carries
the shares and the count of the live entries that rest there, all of which have shares left,
and the cached bests are the best prices with shares. -/
theorem run_shows_live_orders (priceLevels : UInt32) (capacity : ℕ)
    (ms : List DecodedMessage) :
    let e := (new priceLevels (RefMap.new capacity)).run ms
    (∀ locate s price,
        (e.level locate s price).totalShares.toNat = e.refs.live.sharesAt locate s price
        ∧ (e.level locate s price).orderCount.toNat = e.refs.live.ordersAt locate s price)
      ∧ (∀ ref v, e.refs.find ref = some v → 0 < v.shares)
      ∧ (∀ locate,
        (e.bestBid locate = 0 ∧ ∀ p, (e.level locate .buy p).totalShares = 0)
          ∨ IsGreatest {p | 0 < (e.level locate .buy p).totalShares} (e.bestBid locate))
      ∧ (∀ locate,
        (e.bestAsk locate = 0 ∧ ∀ p, (e.level locate .sell p).totalShares = 0)
          ∨ IsLeast {p | 0 < (e.level locate .sell p).totalShares} (e.bestAsk locate)) := by
  intro e
  have hinv : e.Inv := inv_run priceLevels capacity ms
  refine ⟨fun locate s price => ⟨(hinv.tracks locate).shares s price,
    (hinv.tracks locate).orders s price⟩, fun ref v h => ?_, fun locate => ?_, fun locate => ?_⟩
  · exact UInt32.pos_iff_ne_zero.mpr (hinv.positive ref v h).1
  · have hwf := (hinv.tracks locate).wellFormed
    simp only [UInt32.pos_iff_ne_zero]
    by_cases h0 : e.bestBid locate = 0
    · refine Or.inl ⟨h0, fun p => by_contra fun hp => hp ?_⟩
      have hp0 := hwf.best_bid.upper p hp
      rw [show (e.bookOf locate).bestBid = 0 from h0, UInt32.le_zero_iff] at hp0
      exact congrArg PriceLevel.totalShares (hwf.outside .buy p (Or.inl hp0))
    · exact Or.inr (hwf.best_bid.isGreatest h0)
  · have hwf := (hinv.tracks locate).wellFormed
    simp only [UInt32.pos_iff_ne_zero]
    by_cases h0 : e.bestAsk locate = 0
    · exact Or.inl ⟨h0, fun p => by_contra fun hp => (hwf.best_ask.lower p hp).1 h0⟩
    · exact Or.inr (hwf.best_ask.isLeast h0)

/-! ## Messages that are not applied -/

/-- An outcome that is not an application changes no order and no book, contributes no trade,
and carries a status its reason can give. -/
theorem Outcome.not_applied {e e' : BookEngine RefMap} {m : DecodedMessage} {out : ExecResult}
    (h : Outcome e m e' out) (hs : e'.lastStatus ≠ .applied) :
    SameBooks e e' ∧ out = {} ∧ RejectReason e m e'.lastStatus := by
  cases h with
  | rejected reason same => exact ⟨same, rfl, reason⟩
  | printed _ hs' _ => exact absurd hs' hs
  | system _ hs' _ => exact absurd hs' hs
  | added _ _ _ _ _ _ _ _ _ _ _ upd => exact absurd upd.applied hs
  | reduced _ _ _ _ _ _ _ upd => exact absurd upd.applied hs
  | deleted _ _ _ _ _ upd => exact absurd upd.applied hs
  | replaced _ _ _ _ _ _ _ _ _ _ _ _ upd => exact absurd upd.applied hs

/-- No reason for rejecting is a loss of synchronisation, and a replace never finds the table
full. -/
theorem RejectReason.status_ne {e : BookEngine RefMap} {m : DecodedMessage} {st : ApplyStatus}
    (h : RejectReason e m st) :
    st ≠ .resyncRequired ∧ (m.type = .orderReplace → st ≠ .referenceTableFull) := by
  cases h with
  | fullAdd ht =>
    refine ⟨by decide, fun hr => ?_⟩
    simp [MsgType.IsAdd, hr] at ht
  | _ => exact ⟨by decide, fun _ => by decide⟩

/-- **Rejection is atomic.** In every reachable engine, a message that ends in any status but
`applied` leaves the reference map, every level and every cached best as they were and
contributes no trade. No message ends in `resyncRequired`, and no replace in
`referenceTableFull`. -/
theorem run_rejection_atomic (priceLevels : UInt32) (capacity : ℕ) (ms : List DecodedMessage)
    (m : DecodedMessage) :
    let e := (new priceLevels (RefMap.new capacity)).run ms
    ((e.next m).lastStatus ≠ .applied →
        (∀ ref, (e.next m).refs.find ref = e.refs.find ref)
        ∧ (∀ locate s price, (e.next m).level locate s price = e.level locate s price)
        ∧ (∀ locate, (e.next m).bestBid locate = e.bestBid locate
            ∧ (e.next m).bestAsk locate = e.bestAsk locate)
        ∧ (e.step m).2.contributes = false)
      ∧ (e.next m).lastStatus ≠ .resyncRequired
      ∧ (m.type = .orderReplace → (e.next m).lastStatus ≠ .referenceTableFull) := by
  intro e
  have hout := step_outcome (inv_run priceLevels capacity ms) m
  refine ⟨fun hs => ?_, fun hs => ?_, fun ht hs => ?_⟩
  · obtain ⟨same, hempty, -⟩ := hout.not_applied hs
    refine ⟨fun ref => by rw [same.refs], fun locate s price => ?_, fun locate => ?_, ?_⟩
    · rw [level, same.books, level]
    · rw [bestBid, bestAsk, same.books]
      exact ⟨rfl, rfl⟩
    · rw [hempty]
  · exact (hout.not_applied (by rw [hs]; decide)).2.2.status_ne.1 hs
  · exact (hout.not_applied (by rw [hs]; decide)).2.2.status_ne.2 ht hs

/-- An order added twice: the second time changes nothing. -/
theorem run_rejection_atomic_duplicate :
    let m : DecodedMessage :=
      { type := .addOrder, orderRef := 7, stockLocate := 1, side := sideBuy, price := 5,
        shares := 100 }
    let e := (new 16 (RefMap.new 4)).run [m]
    (e.next m).lastStatus = .duplicateReference
      ∧ (e.level 1 .buy 5).totalShares = 100
      ∧ (∀ locate s price, (e.next m).level locate s price = e.level locate s price) := by
  intro m e
  have hdup : (e.next m).lastStatus = .duplicateReference := by decide
  refine ⟨hdup, by decide, ((run_rejection_atomic 16 4 [m] m).1 ?_).2.1⟩
  show (e.next m).lastStatus ≠ .applied
  rw [hdup]
  decide

end BookEngine

end ItchOrderbook
