import ItchOrderbook.Book.EngineInvariant
import ItchOrderbook.Rtl.DecoderAgreement
import ItchOrderbook.Sim.ReferenceSpec
import ItchOrderbook.Stats.StatsEngine

/-!
# The `FINAL` line of a replay

`sw/main.cpp --final-state` prints one line about a symbol, and `tools/run_real_data.sh` compares
it for equality with the line the hardware prints. The hardware is diffed against the simulation's
`RefBook`, so the two books have to end in the same final state. On messages that are all applied
they hold the same orders and the same volumes throughout (`InStep`); what is left are the spread
of a crossed book and trade prints without shares (`final_agrees_iff`).
-/

namespace ItchOrderbook

open LiveOrders

/-! ## The two decoders of the two books -/

/-- A software message and a message of the simulation carry the same fields. -/
structure SameMessage (m : DecodedMessage) (r : Sim.RefMsg) : Prop where
  type : MsgType.ofByte r.type = m.type
  locate : r.locate = m.stockLocate
  orderRef : r.orderRef = m.orderRef
  newOrderRef : r.newOrderRef = m.newOrderRef
  shares : r.shares = m.shares
  price : r.price = m.price
  printable : r.printable = decide (m.printable ≠ 0)
  isBid : r.isBid = decide (m.side = sideBuy)

theorem printable_decodeFields (b : List UInt8) {m : DecodedMessage} (h : m.printable = 0) :
    (decodeFields b m).printable = 0 ∨ (decodeFields b m).printable = 1 := by
  unfold decodeFields
  cases ht : m.type with
  | addOrder => simp [h]
  | addOrderMPID => simp [h]
  | orderExecutedPrice =>
    dsimp only
    split
    · exact Or.inr rfl
    · exact Or.inl rfl
  | _ => exact Or.inl h

/-- The parser writes 0 or 1 into `printable`. -/
theorem printable_decoded (b : List UInt8) :
    (decoded b).printable = 0 ∨ (decoded b).printable = 1 := by
  rw [decoded, decodeBody]
  by_cases hlen : b.length = 0
  · rw [if_pos hlen]
    exact Or.inl rfl
  rw [if_neg hlen]
  dsimp only
  by_cases hbad : msgBodyLen (MsgType.ofByte (b.getD Hdr.type 0)) = 0
      ∨ b.length ≠ msgBodyLen (MsgType.ofByte (b.getD Hdr.type 0))
  · rw [if_pos hbad]
    exact Or.inl rfl
  · rw [if_neg hbad]
    exact printable_decodeFields b rfl

/-- A message that agrees with a hardware message is the simulation's form of it. -/
theorem SameMessage.of_agree {d : Rtl.Decoded} {m : DecodedMessage} (h : Rtl.Agree d m)
    (hp : m.printable = 0 ∨ m.printable = 1) : SameMessage m d.toRefMsg where
  type := h.type
  locate := h.locate
  orderRef := h.orderRef
  newOrderRef := h.newOrderRef
  shares := h.shares
  price := h.price
  printable := by
    rw [Bool.eq_iff_iff, decide_eq_true_iff]
    refine h.printable.trans ⟨fun e => ?_, hp.resolve_left⟩
    rw [e]
    decide
  isBid := by
    rw [Bool.eq_iff_iff, decide_eq_true_iff]
    exact h.isBid

/-- A body the parser knows is decoded by both to the same message. -/
theorem sameMessage_decoded {b : List UInt8} (h : (decoded b).type ≠ .unknown) :
    ∃ r, Sim.decodeBody b = some r ∧ SameMessage (decoded b) r := by
  have hb : b ≠ [] := by
    rintro rfl
    exact h rfl
  obtain ⟨hne, hlen⟩ := (Rtl.decodeBody_type_ne hb).mp h
  have h48 : b.length ≤ 48 := by
    rw [hlen]
    rcases Rtl.typeByte_cases hne with ht | ht | ht | ht | ht | ht | ht | ht | ht <;>
      rw [ht] <;> decide
  -- a hardware buffer that holds the body
  have hholds : Rtl.DecoderState.Holds (Vector.ofFn fun j => b.getD j 0) b b.length := by
    intro j hj _
    simp [Rtl.DecoderState.byteAt, show j < 48 by omega]
  have hsw : Rtl.Agree _ (decoded b) := Rtl.agree_dC hholds hlen hne
  exact ⟨_, Rtl.sim_decodeBody hholds hlen hne, .of_agree hsw (printable_decoded b)⟩

/-! ## The replay -/

/-- The fields of a `FINAL` line, all but the message count. -/
structure FinalState where
  bidPx : UInt32
  bidSh : UInt64
  askPx : UInt32
  askSh : UInt64
  spread : UInt32
  vwapNum : UInt64
  vwapDen : UInt64
  trades : UInt64
  deriving DecidableEq, Repr

/-- One message of the software replay: the statistics see it with what it traded. -/
def replayStep (s : BookEngine RefMap × StatsEngine) (m : DecodedMessage) :
    BookEngine RefMap × StatsEngine :=
  (s.1.next m, s.2.onMessage m (s.1.step m).2)

/-- The software replay of a stream. -/
def replay (s : BookEngine RefMap × StatsEngine) (ms : List DecodedMessage) :
    BookEngine RefMap × StatsEngine := ms.foldl replayStep s

/-- What the software prints about a symbol; without a book the fields are 0. -/
def finalState (s : BookEngine RefMap × StatsEngine) (primary : UInt16) : FinalState where
  bidPx := ((s.1.books primary).map OrderBook.bestBid).getD 0
  bidSh := (((s.1.books primary).map OrderBook.bestBidDepth).getD 0).toUInt64
  askPx := ((s.1.books primary).map OrderBook.bestAsk).getD 0
  askSh := (((s.1.books primary).map OrderBook.bestAskDepth).getD 0).toUInt64
  spread := ((s.1.books primary).map OrderBook.spread).getD 0
  vwapNum := s.2.vwapNum
  vwapDen := s.2.vwapDen
  trades := s.2.tradeCount

/-- What the simulation's book would print. -/
def Sim.RefBook.finalState (r : Sim.RefBook) : FinalState where
  bidPx := r.bestBidPrice
  bidSh := r.bestBidShares
  askPx := r.bestAskPrice
  askSh := r.bestAskShares
  spread := r.spread
  vwapNum := r.vwapNum
  vwapDen := r.vwapDen
  trades := r.tradeCount

/-- Every message is applied. -/
def AllApplied (e : BookEngine RefMap) : List DecodedMessage → Prop
  | [] => True
  | m :: ms => (e.next m).lastStatus = .applied ∧ AllApplied (e.next m) ms

instance AllApplied.decidable : ∀ (e : BookEngine RefMap) (ms : List DecodedMessage),
    Decidable (AllApplied e ms)
  | _, [] => isTrue trivial
  | e, m :: ms =>
    have := AllApplied.decidable (e.next m) ms
    inferInstanceAs (Decidable ((e.next m).lastStatus = .applied ∧ AllApplied (e.next m) ms))

/-! ## The orders a stream leaves open -/

/-- What a message that is applied does to the open orders. -/
def LiveOrders.after (live : LiveOrders) (m : DecodedMessage) : LiveOrders :=
  match m.type with
  | .addOrder | .addOrderMPID =>
    live.insert m.orderRef ⟨m.price, m.shares, m.stockLocate, m.side⟩
  | .orderExecuted | .orderExecutedPrice | .orderCancel =>
    match live.lookup m.orderRef with
    | none => live
    | some v => BookEngine.reduceLive live m.orderRef v m.shares
  | .orderDelete => live.erase m.orderRef
  | .orderReplace =>
    match live.lookup m.orderRef with
    | none => live
    | some v =>
      (live.erase m.orderRef).insert m.newOrderRef ⟨m.price, m.shares, v.locate, v.side⟩
  | .trade | .systemEvent | .unknown => live

/-- The orders a stream leaves open. -/
def openOrders (ms : List DecodedMessage) : LiveOrders := ms.foldl LiveOrders.after ∅

/-- An order to buy is priced above an order to sell. -/
def Crossed (live : LiveOrders) : Prop :=
  ∃ ref v ref' v', live.lookup ref = some v ∧ v.side = sideBuy ∧ live.lookup ref' = some v'
    ∧ v'.side = sideSell ∧ v'.price < v.price

/-- The number of trade prints without shares. -/
def emptyPrints (ms : List DecodedMessage) : ℕ :=
  ms.countP fun m => m.type = .trade ∧ m.shares = 0

theorem emptyPrints_cons (m : DecodedMessage) (ms : List DecodedMessage) :
    emptyPrints (m :: ms) = emptyPrints ms + if m.type = .trade ∧ m.shares = 0 then 1 else 0 := by
  rw [emptyPrints, List.countP_cons]
  simp only [decide_eq_true_eq]
  rfl

/-! ## The two books in step -/

/-- The side as the simulation has it. -/
def Side.isBid : Side → Bool
  | buy => true
  | sell => false

/-- What the simulation's book keeps of an order. -/
def Value.toSimOrder (v : Value) : Sim.Order :=
  ⟨decide (v.side = sideBuy), v.locate, v.price, v.shares.toUInt64⟩

theorem Side.decide_code (s : Side) : decide (s.code = sideBuy) = s.isBid := by
  cases s <;> rfl

/-- The simulation's book holds the live orders, all of one symbol. -/
structure SameOrders (primary : UInt16) (live : LiveOrders)
    (orders : Finmap fun _ : UInt64 => Sim.Order) : Prop where
  lookup : ∀ ref, orders.lookup ref = (live.lookup ref).map Value.toSimOrder
  locate : ∀ ref v, live.lookup ref = some v → v.locate = primary

namespace SameOrders

variable {primary : UInt16} {live : LiveOrders} {orders : Finmap fun _ : UInt64 => Sim.Order}
  {ref : UInt64} {v : Value}

theorem erase (h : SameOrders primary live orders) (ref : UInt64) :
    SameOrders primary (live.erase ref) (orders.erase ref) where
  lookup ref' := by
    by_cases hr : ref' = ref
    · rw [hr, Finmap.lookup_erase, Finmap.lookup_erase, Option.map_none]
    · rw [Finmap.lookup_erase_ne hr, Finmap.lookup_erase_ne hr]
      exact h.lookup ref'
  locate ref' v hv := by
    by_cases hr : ref' = ref
    · rw [hr, Finmap.lookup_erase] at hv
      cases hv
    · rw [Finmap.lookup_erase_ne hr] at hv
      exact h.locate ref' v hv

theorem insert (h : SameOrders primary live orders) (ref : UInt64) (hv : v.locate = primary) :
    SameOrders primary (live.insert ref v) (orders.insert ref v.toSimOrder) where
  lookup ref' := by
    by_cases hr : ref' = ref
    · rw [hr, Finmap.lookup_insert, Finmap.lookup_insert, Option.map_some]
    · rw [Finmap.lookup_insert_of_ne _ hr, Finmap.lookup_insert_of_ne _ hr]
      exact h.lookup ref'
  locate ref' w hw := by
    by_cases hr : ref' = ref
    · rw [hr, Finmap.lookup_insert, Option.some_inj] at hw
      exact hw ▸ hv
    · rw [Finmap.lookup_insert_of_ne _ hr] at hw
      exact h.locate ref' w hw

theorem lookup_of_live (h : SameOrders primary live orders) (hv : live.lookup ref = some v) :
    orders.lookup ref = some v.toSimOrder := by
  rw [h.lookup, hv, Option.map_some]

theorem lookup_of_fresh (h : SameOrders primary live orders) (hv : live.lookup ref = none) :
    orders.lookup ref = none := by
  rw [h.lookup, hv, Option.map_none]

/-- The shares at a price are counted alike. -/
theorem sharesAt {r : Sim.RefBook} (h : SameOrders primary live r.orders) (hpos : live.Positive)
    (s : Side) (p : UInt32) : r.sharesAt (s.isBid, p) = live.sharesAt primary s p := by
  unfold Sim.RefBook.sharesAt Finmap.totalAt LiveOrders.sharesAt
  refine Finmap.total_eq_total_of_map h.lookup fun ref v hv => ?_
  obtain ⟨-, s', hs'⟩ := hpos ref v hv
  have hplace : v.toSimOrder.place = (s.isBid, p) ↔ v.RestsAt primary s p := by
    rw [Sim.Order.place, Value.toSimOrder, hs', Side.decide_code, Prod.mk.injEq, Value.RestsAt, hs',
      Side.code_inj]
    have hinj : s'.isBid = s.isBid ↔ s' = s := by cases s <;> cases s' <;> decide
    rw [hinj]
    exact ⟨fun he => ⟨h.locate ref v hv, he⟩, fun he => he.2⟩
  have hshares : v.toSimOrder.weight = v.shares.toNat := UInt32.toNat_toUInt64 v.shares
  simp only [hplace, hshares]

/-- A reduction on both sides. -/
theorem reduce (h : SameOrders primary live orders) (hv : live.lookup ref = some v)
    {qty : UInt32} (hle : qty ≤ v.shares) :
    SameOrders primary (BookEngine.reduceLive live ref v qty)
      (Sim.RefBook.reduceOrders orders ref v.toSimOrder qty.toUInt64) := by
  have hsub : v.shares.toUInt64 - qty.toUInt64 = (v.shares - qty).toUInt64 := by
    rw [← UInt64.toNat_inj, UInt64.toNat_sub_of_le, UInt32.toNat_toUInt64, UInt32.toNat_toUInt64,
      UInt32.toNat_toUInt64, UInt32.toNat_sub_of_le _ _ hle]
    rw [UInt64.le_iff_toNat_le, UInt32.toNat_toUInt64, UInt32.toNat_toUInt64]
    exact UInt32.le_iff_toNat_le.mp hle
  have hinj : v.toSimOrder.shares = qty.toUInt64 ↔ v.shares = qty := by
    rw [Value.toSimOrder, ← UInt64.toNat_inj, UInt32.toNat_toUInt64, UInt32.toNat_toUInt64, UInt32.toNat_inj]
  unfold BookEngine.reduceLive Sim.RefBook.reduceOrders
  by_cases hgone : v.shares = qty
  · rw [if_pos hgone, if_pos (hinj.mpr hgone)]
    exact h.erase ref
  · rw [if_neg hgone, if_neg (fun e => hgone (hinj.mp e))]
    have hins := h.insert (v := { v with shares := v.shares - qty }) ref (h.locate ref v hv)
    rwa [Value.toSimOrder, ← hsub] at hins

end SameOrders

/-- The engine and the simulation's book after the same messages. -/
structure InStep (primary : UInt16) (e : BookEngine RefMap) (r : Sim.RefBook) : Prop where
  inv : e.Inv
  shows : r.Shows
  same : SameOrders primary e.refs.live r.orders

/-- A trade the engine reports is the trade the simulation's book prints. -/
def SameTrade (out : ExecResult) : Option (UInt32 × UInt64) → Prop
  | none => out.contributes = false
  | some (price, amt) => out.contributes = true ∧ out.price = price ∧ out.shares.toUInt64 = amt

/-- The clamped quantity of a modify message that is not oversized. -/
theorem clamp_eq {m : DecodedMessage} {rm : Sim.RefMsg} (hm : SameMessage m rm) {v : Value}
    (hle : m.shares ≤ v.shares) : Sim.RefBook.clamp rm v.toSimOrder = m.shares.toUInt64 := by
  have hnot : ¬ m.shares.toUInt64 > v.toSimOrder.shares := by
    rw [gt_iff_lt, UInt64.not_lt, UInt64.le_iff_toNat_le, Value.toSimOrder, UInt32.toNat_toUInt64,
      UInt32.toNat_toUInt64]
    exact UInt32.le_iff_toNat_le.mp hle
  rw [Sim.RefBook.clamp, hm.shares, if_neg hnot]

/-- A level that takes an order in the engine takes it in the simulation. -/
theorem SameOrders.room {primary : UInt16} {live : LiveOrders} {r : Sim.RefBook}
    (h : SameOrders primary live r.orders) (hpos : live.Positive) {b : OrderBook}
    (hb : b.Tracks live primary) {s : Side} {price shares : UInt32}
    (hcan : b.canAdd s.code price shares = true) :
    r.sharesAt (s.isBid, price) + shares.toUInt64.toNat < 2 ^ 32 := by
  obtain ⟨-, -, -, -, hsh, -⟩ := (OrderBook.canAdd_iff b s price shares).mp hcan
  rwa [h.sharesAt hpos, ← hb.shares, UInt32.toNat_toUInt64]

namespace InStep

variable {primary : UInt16} {e e' : BookEngine RefMap} {r : Sim.RefBook} {m : DecodedMessage}
  {rm : Sim.RefMsg} {out : ExecResult}

/-- What each applied outcome does on the simulation's side: the orders stay the same orders, the
book keeps showing them, and the trade reported is the trade printed. -/
theorem outcome (h : InStep primary e r) (hm : SameMessage m rm)
    (hout : BookEngine.Outcome e m e' out) (happ : e'.lastStatus = .applied)
    (hone : m.type.IsAdd → m.stockLocate = primary) :
    InStep primary e' (r.apply rm) ∧ SameTrade out (r.prints rm) := by
  have hinv : e'.Inv := hout.inv h.inv
  rw [Sim.RefBook.apply_eq, Sim.RefBook.prints, hm.type]
  cases hout with
  | rejected reason same =>
    rw [happ] at reason
    cases reason
  | printed ht _ same =>
    rw [ht]
    refine ⟨⟨hinv, h.shows.trade _ _, ?_⟩, rfl, hm.price.symm, by rw [hm.shares]⟩
    rw [same.refs]
    exact h.same
  | system ht _ same =>
    rw [ht]
    refine ⟨⟨hinv, h.shows, ?_⟩, rfl⟩
    rw [same.refs]
    exact h.same
  | added s ht hside href hloc hprice hlt hsh hnew hroom hcan upd =>
    have hisBid : rm.isBid = s.isBid := by rw [hm.isBid, hside, Side.decide_code]
    have hfresh : r.orders.lookup rm.orderRef = none := by
      rw [hm.orderRef]
      exact h.same.lookup_of_fresh hnew
    have hlocate := hone ht
    rw [hlocate, hside] at hcan
    have hroom := h.same.room h.inv.positive (h.inv.tracks primary) hcan
    have hshows : (r.addOrder rm.orderRef rm.isBid rm.locate rm.price rm.shares.toUInt64).Shows := by
      refine h.shows.addOrder hfresh _ _ _ ?_ ?_
      · rw [hm.shares]
        exact Sim.RefBook.toUInt64_ne_zero hsh
      · rw [hisBid, hm.price, hm.shares]
        exact hroom
    have hsame : SameOrders primary e'.refs.live
        (r.addOrder rm.orderRef rm.isBid rm.locate rm.price rm.shares.toUInt64).orders := by
      have hins := h.same.insert (v := ⟨m.price, m.shares, m.stockLocate, m.side⟩) m.orderRef hlocate
      rw [upd.live_eq, Sim.RefBook.orders_addOrder, hm.orderRef, hm.isBid, hm.locate, hm.price,
        hm.shares]
      exact hins
    rcases ht with ht | ht <;> rw [ht] <;> exact ⟨⟨hinv, hshows, hsame⟩, rfl⟩
  | reduced v s ht hv hside hsh hle upd =>
    have ho : r.orders.lookup rm.orderRef = some v.toSimOrder := by
      rw [hm.orderRef]
      exact h.same.lookup_of_live hv
    have hamt := clamp_eq hm hle
    obtain ⟨hshows, horders⟩ := h.shows.reduceOrder ho (Sim.RefBook.clamp_le rm v.toSimOrder)
    have hsame : SameOrders primary e'.refs.live
        (r.reduceOrder rm.orderRef (Sim.RefBook.clamp rm v.toSimOrder)).orders := by
      rw [horders, upd.live_eq, hamt, hm.orderRef]
      exact h.same.reduce hv hle
    rw [ho]
    rcases ht with (ht | ht) | ht
    · simp only [ht, MsgType.IsExec, true_or, if_true, Option.map_some]
      exact ⟨⟨hinv, hshows.trade _ _, hsame⟩, rfl, rfl, hamt.symm⟩
    · simp only [ht, MsgType.IsExec, or_true, if_true, Option.map_some, hm.printable]
      by_cases hp : m.printable ≠ 0
      · simp only [decide_eq_true hp, if_true]
        exact ⟨⟨hinv, hshows.trade _ _, hsame⟩, rfl, hm.price.symm, hamt.symm⟩
      · simp only [decide_eq_false hp, if_false, Bool.false_eq_true]
        exact ⟨⟨hinv, hshows, hsame⟩, rfl⟩
    · simp only [ht, MsgType.IsExec]
      exact ⟨⟨hinv, hshows, hsame⟩, rfl⟩
  | deleted v s ht hv hside upd =>
    have ho := h.same.lookup_of_live hv
    obtain ⟨hshows, horders⟩ := h.shows.removeOrder ho
    rw [ht]
    dsimp only
    rw [hm.orderRef]
    refine ⟨⟨hinv, hshows, ?_⟩, rfl⟩
    rw [horders, upd.live_eq]
    exact h.same.erase _
  | replaced old s ht hv hside href hne hprice hlt hsh hnew hcan upd =>
    have ho := h.same.lookup_of_live hv
    obtain ⟨hshows, horders⟩ := h.shows.removeOrder ho
    have hlocate := h.same.locate _ _ hv
    -- the old order has left, on both sides
    have hsame : SameOrders primary (e.refs.live.erase m.orderRef)
        (r.removeOrder m.orderRef).orders := by
      rw [horders]
      exact h.same.erase _
    have hfresh : (r.removeOrder m.orderRef).orders.lookup m.newOrderRef = none := by
      rw [horders]
      exact Finmap.lookup_erase_of_none (h.same.lookup_of_fresh hnew)
    have hroom : (r.removeOrder m.orderRef).sharesAt (s.isBid, m.price)
        + m.shares.toUInt64.toNat < 2 ^ 32 := by
      rw [hside] at hcan
      obtain ⟨hrem, hadd⟩ := OrderBook.replace_admitted hcan
      exact hsame.room (h.inv.positive.erase _)
        (hlocate ▸ (h.inv.tracks old.locate).remove hrem rfl hside (gains_erase hv)) hadd
    have hins := hsame.insert (v := ⟨m.price, m.shares, old.locate, old.side⟩) m.newOrderRef hlocate
    rw [ht]
    dsimp only
    rw [hm.orderRef, ho, hm.newOrderRef, hm.price, hm.shares]
    refine ⟨⟨hinv, hshows.addOrder hfresh _ _ _ (Sim.RefBook.toUInt64_ne_zero hsh) ?_, ?_⟩, rfl⟩
    · rw [Value.toSimOrder, hside, Side.decide_code]
      exact hroom
    · rw [upd.live_eq, Sim.RefBook.orders_addOrder]
      exact hins

end InStep

/-! ## The statistics in step -/

/-- A trade reported without shares is a trade print without shares. -/
theorem BookEngine.Outcome.empty_iff {e e' : BookEngine RefMap} {m : DecodedMessage}
    {out : ExecResult} (h : Outcome e m e' out) (happ : e'.lastStatus = .applied) :
    (out.contributes = true ∧ out.shares = 0) ↔ (m.type = .trade ∧ m.shares = 0) := by
  have hnone (ht : m.type ≠ .trade) :
      ((({} : ExecResult).contributes = true ∧ ({} : ExecResult).shares = 0))
        ↔ (m.type = .trade ∧ m.shares = 0) :=
    ⟨fun hc => absurd hc.1 Bool.false_ne_true, fun hc => absurd hc.1 ht⟩
  cases h with
  | rejected reason _ =>
    rw [happ] at reason
    cases reason
  | printed ht _ _ => exact ⟨fun hc => ⟨ht, hc.2⟩, fun hc => ⟨rfl, hc.2⟩⟩
  | system ht _ _ => exact hnone (by rw [ht]; decide)
  | added s ht _ _ _ _ _ _ _ _ _ _ => exact hnone (by rcases ht with ht | ht <;> rw [ht] <;> decide)
  | deleted v s ht _ _ _ => exact hnone (by rw [ht]; decide)
  | replaced old s ht _ _ _ _ _ _ _ _ _ _ => exact hnone (by rw [ht]; decide)
  | reduced v s ht _ _ hsh _ _ =>
    have hne : m.type ≠ .trade := by rcases ht with (ht | ht) | ht <;> rw [ht] <;> decide
    split
    · exact ⟨fun hc => absurd hc.2 hsh, fun hc => absurd hc.1 hne⟩
    · exact hnone hne

/-- The same VWAP sums on both sides; the simulation counts `extra` more trades. -/
def SameStats (st : StatsEngine) (r : Sim.RefBook) (extra : ℕ) : Prop :=
  r.stats = (st.vwapNum, st.vwapDen, st.tradeCount + UInt64.ofNat extra)

/-- The trade goes into both; one without shares is counted by the simulation only. -/
theorem SameStats.step {st : StatsEngine} {r : Sim.RefBook} {extra : ℕ} (h : SameStats st r extra)
    (m : DecodedMessage) {rm : Sim.RefMsg} {out : ExecResult} (ht : SameTrade out (r.prints rm)) :
    SameStats (st.onMessage m out) (r.apply rm)
      (extra + if out.contributes = true ∧ out.shares = 0 then 1 else 0) := by
  have hone (n : ℕ) (c : UInt64) : c + UInt64.ofNat n + 1 = c + UInt64.ofNat (n + 1) := by
    rw [UInt64.ofNat_add, UInt64.add_assoc]
    rfl
  rw [SameStats] at h
  rw [SameStats, Sim.RefBook.stats_apply, h, StatsEngine.onMessage, StatsEngine.onTrade]
  cases hp : r.prints rm with
  | none =>
    rw [hp] at ht
    have hc : out.contributes = false := ht
    simp [hc]
  | some t =>
    obtain ⟨price, amt⟩ := t
    rw [hp] at ht
    obtain ⟨hc, rfl, rfl⟩ := ht
    by_cases hz : out.shares = 0
    · -- the software leaves an empty print out
      have hzero : UInt32.toUInt64 0 = 0 := rfl
      simp only [hc, hz, hzero, hone, UInt64.mul_zero, UInt64.add_zero, true_and, if_true,
        gt_iff_lt, UInt32.lt_irrefl, if_false, StatsEngine.vwapNum_onTimestamp,
        StatsEngine.vwapDen_onTimestamp, StatsEngine.tradeCount_onTimestamp]
    · have hpos : out.shares > 0 := UInt32.pos_iff_ne_zero.mpr hz
      have hcount : st.tradeCount + UInt64.ofNat extra + 1
          = st.tradeCount + 1 + UInt64.ofNat extra := by
        rw [UInt64.add_assoc, UInt64.add_comm (UInt64.ofNat extra), UInt64.add_assoc]
      simp only [hc, hz, hpos, hcount, true_and, and_false, if_true, if_false, Nat.add_zero,
        StatsEngine.vwapNum_onTimestamp, StatsEngine.vwapDen_onTimestamp,
        StatsEngine.tradeCount_onTimestamp]

/-! ## Whole streams -/

theorem applied_type_ne {e : BookEngine RefMap} {m : DecodedMessage}
    (h : (e.next m).lastStatus = .applied) : m.type ≠ .unknown := by
  intro ht
  simp [BookEngine.next, BookEngine.step, BookEngine.apply, ht, BookEngine.withStatus] at h

/-- An applied message moves the live orders as `after` says. -/
theorem live_next {e : BookEngine RefMap} (hinv : e.Inv) {m : DecodedMessage}
    (h : (e.next m).lastStatus = .applied) : (e.next m).refs.live = e.refs.live.after m := by
  have hout := BookEngine.step_outcome hinv m
  revert h hout
  generalize e.next m = e', (e.step m).2 = out
  intro happ hout
  unfold LiveOrders.after
  cases hout with
  | rejected reason _ =>
    rw [happ] at reason
    cases reason
  | printed ht _ same => rw [ht, same.refs]
  | system ht _ same => rw [ht, same.refs]
  | added s ht _ _ _ _ _ _ _ _ _ upd => rcases ht with ht | ht <;> rw [ht, upd.live_eq]
  | deleted v s ht _ _ upd => rw [ht, upd.live_eq]
  | reduced v s ht hv _ _ _ upd =>
    have hv' : e.refs.live.lookup m.orderRef = some v := hv
    rcases ht with (ht | ht) | ht <;> rw [ht, upd.live_eq, hv']
  | replaced old s ht hv _ _ _ _ _ _ _ _ upd =>
    have hv' : e.refs.live.lookup m.orderRef = some old := hv
    rw [ht, upd.live_eq, hv']

/-- The run lemma: on messages that are all applied the two books stay in step, and the engine's
live orders are the open orders. Induction on the bodies. -/
theorem inStep_replay {primary : UInt16} (bodies : List (List UInt8))
    {s : BookEngine RefMap × StatsEngine} {r : Sim.RefBook} {extra : ℕ}
    (h : InStep primary s.1 r) (hstats : SameStats s.2 r extra)
    (happ : AllApplied s.1 (bodies.map decoded))
    (hone : ∀ b ∈ bodies, (decoded b).type.IsAdd → (decoded b).stockLocate = primary) :
    let s' := replay s (bodies.map decoded)
    let r' := (bodies.filterMap Sim.decodeBody).foldl Sim.RefBook.apply r
    InStep primary s'.1 r' ∧ SameStats s'.2 r' (extra + emptyPrints (bodies.map decoded))
      ∧ s'.1.refs.live = (bodies.map decoded).foldl LiveOrders.after s.1.refs.live := by
  induction bodies generalizing s r extra with
  | nil => exact ⟨h, hstats, rfl⟩
  | cons b bodies ih =>
    obtain ⟨happ₁, happ₂⟩ := happ
    obtain ⟨rm, hdec, hm⟩ := sameMessage_decoded (applied_type_ne happ₁)
    have hout := BookEngine.step_outcome h.inv (decoded b)
    obtain ⟨h', ht⟩ := h.outcome hm hout happ₁ (hone b List.mem_cons_self)
    have hstats' := hstats.step (decoded b) ht
    simp only [hout.empty_iff happ₁] at hstats'
    have hlive := live_next h.inv happ₁
    obtain ⟨hstep, hsame, horders⟩ := @ih (replayStep s (decoded b)) _ _ h' hstats' happ₂
      fun b' hb' => hone b' (List.mem_cons_of_mem _ hb')
    rw [List.map_cons, List.filterMap_cons_some hdec, emptyPrints_cons, Nat.add_comm (emptyPrints _),
      ← Nat.add_assoc]
    refine ⟨hstep, hsame, horders.trans ?_⟩
    rw [List.foldl_cons, ← hlive]
    rfl

/-! ## The fields of the line -/

/-- The line printed about a symbol without a book is that of an empty book. -/
theorem finalState_eq (s : BookEngine RefMap × StatsEngine) (primary : UInt16) :
    finalState s primary =
      { bidPx := (s.1.bookOf primary).bestBid
        bidSh := (s.1.bookOf primary).bestBidDepth.toUInt64
        askPx := (s.1.bookOf primary).bestAsk
        askSh := (s.1.bookOf primary).bestAskDepth.toUInt64
        spread := (s.1.bookOf primary).spread
        vwapNum := s.2.vwapNum
        vwapDen := s.2.vwapDen
        trades := s.2.tradeCount } := by
  unfold finalState BookEngine.bookOf
  cases s.1.books primary with
  | none => rfl
  | some b => rfl

theorem ofNat_toNat_eq (n : UInt32) : UInt64.ofNat n.toNat = n.toUInt64 := by
  rw [← UInt64.toNat_inj, UInt32.toNat_toUInt64, UInt64.toNat_ofNat_of_lt']
  exact Nat.lt_trans n.toNat_lt (by decide)

namespace InStep

variable {primary : UInt16} {e : BookEngine RefMap} {r : Sim.RefBook}

theorem sharesAt (h : InStep primary e r) (s : Side) (p : UInt32) :
    r.sharesAt (s.isBid, p) = ((e.bookOf primary).levels s p).totalShares.toNat := by
  rw [h.same.sharesAt h.inv.positive, (h.inv.tracks primary).shares]

theorem sharesAt_ne_zero (h : InStep primary e r) (s : Side) (p : UInt32) :
    r.sharesAt (s.isBid, p) ≠ 0 ↔ ((e.bookOf primary).levels s p).totalShares ≠ 0 := by
  rw [h.sharesAt, Ne, Ne, ← UInt32.toNat_inj]
  rfl

theorem bid (h : InStep primary e r) :
    r.bestBidPrice = (e.bookOf primary).bestBid
      ∧ r.bestBidShares = (e.bookOf primary).bestBidDepth.toUInt64
      ∧ r.bestBidValid = decide ((e.bookOf primary).bestBid ≠ 0) := by
  have hwf := (h.inv.tracks primary).wellFormed
  have hne := h.sharesAt_ne_zero .buy
  by_cases h0 : (e.bookOf primary).bestBid = 0
  · have hzero (p : UInt32) : r.sharesAt (true, p) = 0 := by
      by_contra hp
      have hle := hwf.best_bid.upper p ((hne p).mp hp)
      rw [h0, UInt32.le_zero_iff] at hle
      exact (hne p).mp hp (congrArg PriceLevel.totalShares (hwf.outside .buy p (Or.inl hle)))
    obtain ⟨hvalid, hpx, hsh⟩ := h.shows.no_bid hzero
    rw [hvalid, hpx, hsh, OrderBook.bestBidDepth, h0]
    exact ⟨rfl, rfl, rfl⟩
  · have hbest := hwf.best_bid.isGreatest h0
    obtain ⟨hvalid, hpx, hsh⟩ := h.shows.best_bid (p := (e.bookOf primary).bestBid)
      ⟨(hne _).mpr hbest.1, fun p hp => hbest.2 ((hne p).mp hp)⟩
    refine ⟨hpx, ?_, ?_⟩
    · rw [hsh, OrderBook.bestBidDepth, if_pos h0]
      exact (congrArg UInt64.ofNat (h.sharesAt .buy _)).trans (ofNat_toNat_eq _)
    · rw [hvalid, decide_eq_true h0]

theorem ask (h : InStep primary e r) :
    r.bestAskPrice = (e.bookOf primary).bestAsk
      ∧ r.bestAskShares = (e.bookOf primary).bestAskDepth.toUInt64
      ∧ r.bestAskValid = decide ((e.bookOf primary).bestAsk ≠ 0) := by
  have hwf := (h.inv.tracks primary).wellFormed
  have hne := h.sharesAt_ne_zero .sell
  by_cases h0 : (e.bookOf primary).bestAsk = 0
  · have hzero (p : UInt32) : r.sharesAt (false, p) = 0 := by
      by_contra hp
      exact (hwf.best_ask.lower p ((hne p).mp hp)).1 h0
    obtain ⟨hvalid, hpx, hsh⟩ := h.shows.no_ask hzero
    rw [hvalid, hpx, hsh, OrderBook.bestAskDepth, h0]
    exact ⟨rfl, rfl, rfl⟩
  · have hbest := hwf.best_ask.isLeast h0
    obtain ⟨hvalid, hpx, hsh⟩ := h.shows.best_ask (p := (e.bookOf primary).bestAsk)
      ⟨(hne _).mpr hbest.1, fun p hp => hbest.2 ((hne p).mp hp)⟩
    refine ⟨hpx, ?_, ?_⟩
    · rw [hsh, OrderBook.bestAskDepth, if_pos h0]
      exact (congrArg UInt64.ofNat (h.sharesAt .sell _)).trans (ofNat_toNat_eq _)
    · rw [hvalid, decide_eq_true h0]

/-- The bests are crossed exactly when two live orders are. -/
theorem crossed_iff (h : InStep primary e r) :
    Crossed e.refs.live ↔ (e.bookOf primary).bestBid ≠ 0 ∧ (e.bookOf primary).bestAsk ≠ 0
      ∧ (e.bookOf primary).bestAsk < (e.bookOf primary).bestBid := by
  have htr := h.inv.tracks primary
  have hwf := htr.wellFormed
  have hshares {ref : UInt64} {v : Value} (s : Side) (hv : e.refs.live.lookup ref = some v)
      (hs : v.side = s.code) : ((e.bookOf primary).levels s v.price).totalShares ≠ 0 := by
    intro hz
    have hle := htr.shares_le hv (h.same.locate _ _ hv) hs
    rw [hz, UInt32.le_zero_iff] at hle
    exact (h.inv.positive _ _ hv).1 hle
  have hresting (s : Side) (p : UInt32)
      (hp : ((e.bookOf primary).levels s p).totalShares ≠ 0) :
      ∃ ref v, e.refs.live.lookup ref = some v ∧ v.side = s.code ∧ v.price = p := by
    have hsum : e.refs.live.sharesAt primary s p ≠ 0 := by
      rw [← htr.shares]
      exact fun hz => hp (UInt32.toNat_inj.mp hz)
    rw [LiveOrders.sharesAt, Ne, Finmap.total_eq_zero_iff] at hsum
    push Not at hsum
    obtain ⟨ref, v, hv, hne⟩ := hsum
    split at hne
    · rename_i hrests
      exact ⟨ref, v, hv, hrests.2.1, hrests.2.2⟩
    · exact absurd rfl hne
  constructor
  · rintro ⟨ref, v, ref', v', hv, hs, hv', hs', hlt⟩
    have hup := hwf.best_bid.upper _ (hshares .buy hv hs)
    obtain ⟨hask, hlo⟩ := hwf.best_ask.lower _ (hshares .sell hv' hs')
    have hcross := UInt32.lt_of_le_of_lt hlo (UInt32.lt_of_lt_of_le hlt hup)
    refine ⟨fun h0 => ?_, hask, hcross⟩
    rw [h0] at hcross
    exact absurd hcross UInt32.not_lt_zero
  · rintro ⟨hbid, hask, hlt⟩
    obtain ⟨ref, v, hv, hs, hp⟩ := hresting .buy _ (hwf.best_bid.attained hbid)
    obtain ⟨ref', v', hv', hs', hp'⟩ := hresting .sell _ (hwf.best_ask.attained hask)
    exact ⟨ref, v, ref', v', hv, hs, hv', hs', by rwa [hp, hp']⟩

/-- The spreads agree exactly when the bests are not crossed. -/
theorem spread_iff (h : InStep primary e r) :
    (e.bookOf primary).spread = r.spread ↔ ¬Crossed e.refs.live := by
  obtain ⟨hbid, -, hbv⟩ := h.bid
  obtain ⟨hask, -, hav⟩ := h.ask
  rw [h.crossed_iff, OrderBook.spread, Sim.RefBook.spread, Sim.RefBook.spreadValid, hbv, hav, hbid,
    hask]
  generalize (e.bookOf primary).bestBid = bid, (e.bookOf primary).bestAsk = ask
  by_cases hb : bid = 0
  · simp [hb]
  by_cases ha : ask = 0
  · simp [ha]
  by_cases hlt : bid < ask
  · simp [hb, ha, hlt, UInt32.not_lt.mpr (UInt32.le_of_lt hlt)]
  · -- locked or crossed
    have hdiff : 0 = ask - bid ↔ ¬ask < bid := by
      rw [eq_comm, UInt32.sub_eq_iff_eq_add, UInt32.zero_add, UInt32.not_lt]
      exact ⟨fun he => he ▸ UInt32.le_refl _, fun hle =>
        UInt32.le_antisymm (UInt32.not_lt.mp hlt) hle⟩
    simp [hb, ha, hlt, hdiff]

theorem finalState_iff {s : BookEngine RefMap × StatsEngine} {extra : ℕ}
    (h : InStep primary s.1 r) (hs : SameStats s.2 r extra) :
    finalState s primary = r.finalState ↔ ¬Crossed s.1.refs.live ∧ 2 ^ 64 ∣ extra := by
  obtain ⟨hnum, hden, htrades⟩ : r.vwapNum = s.2.vwapNum ∧ r.vwapDen = s.2.vwapDen
      ∧ r.tradeCount = s.2.tradeCount + UInt64.ofNat extra := by
    simpa [SameStats, Sim.RefBook.stats] using hs
  have hcount : s.2.tradeCount = r.tradeCount ↔ 2 ^ 64 ∣ extra := by
    rw [htrades, eq_comm, UInt64.add_eq_left, ← UInt64.toNat_inj, UInt64.toNat_ofNat',
      UInt64.toNat_zero, Nat.dvd_iff_mod_eq_zero]
  obtain ⟨hbid, hbsh, -⟩ := h.bid
  obtain ⟨hask, hash, -⟩ := h.ask
  rw [finalState_eq, Sim.RefBook.finalState, ← h.spread_iff, ← hcount, FinalState.mk.injEq, hbid,
    hbsh, hask, hash, hnum, hden]
  simp only [true_and]

end InStep

theorem inStep_new (priceLevels : UInt32) (capacity : ℕ) (primary : UInt16) :
    InStep primary (BookEngine.new priceLevels (RefMap.new capacity)) {} where
  inv := BookEngine.inv_new priceLevels capacity
  shows := Sim.RefBook.shows_empty
  same := ⟨fun _ => rfl, fun _ _ h => by cases h⟩

/-- **Final states agree on uncrossed books.** On a stream of one symbol whose every message the
engine applies, the software prints what the simulation's book holds exactly when the stream
leaves no order to buy priced above an order to sell, and a multiple of 2^64 (so in practice
none) of its trade prints are without shares. -/
theorem final_agrees_iff (priceLevels : UInt32) (capacity : ℕ) (primary : UInt16)
    (bodies : List (List UInt8))
    (happ : AllApplied (BookEngine.new priceLevels (RefMap.new capacity)) (bodies.map decoded))
    (hone : ∀ b ∈ bodies, (decoded b).type.IsAdd → (decoded b).stockLocate = primary) :
    let ms := bodies.map decoded
    finalState (replay (BookEngine.new priceLevels (RefMap.new capacity), {}) ms) primary
        = ((bodies.filterMap Sim.decodeBody).foldl Sim.RefBook.apply {}).finalState
      ↔ ¬Crossed (openOrders ms) ∧ 2 ^ 64 ∣ emptyPrints ms := by
  intro ms
  obtain ⟨hstep, hsame, hlive⟩ := @inStep_replay primary bodies
    (BookEngine.new priceLevels (RefMap.new capacity), {}) {} 0
    (inStep_new priceLevels capacity primary) rfl happ hone
  rw [hstep.finalState_iff hsame, hlive, Nat.zero_add]
  rfl

/-- A buy order alone and a print of shares: the final states agree. -/
theorem final_agrees_buy_and_print :
    let add : List UInt8 := [65, 0, 1, 0, 0] ++ List.replicate 15 0 ++ [1, 66, 0, 0, 0, 10]
      ++ List.replicate 8 32 ++ [0, 0, 0, 6]
    let print : List UInt8 := [80, 0, 1] ++ List.replicate 19 0 ++ [0, 0, 0, 4]
      ++ List.replicate 8 32 ++ [0, 0, 0, 5] ++ List.replicate 8 0
    finalState (replay (BookEngine.new 16 (RefMap.new 4), {}) ([add, print].map decoded)) 1
      = (([add, print].filterMap Sim.decodeBody).foldl Sim.RefBook.apply {}).finalState := by
  intro add print
  refine (final_agrees_iff 16 4 1 [add, print] (by decide) (by decide)).mpr ⟨?_, ?_⟩
  · rintro ⟨ref, v, ref', v', -, -, hv', hs', -⟩
    have hopen : openOrders ([add, print].map decoded)
        = (∅ : LiveOrders).insert 1 ⟨6, 10, 1, sideBuy⟩ := by decide
    rw [hopen] at hv'
    by_cases hr : ref' = 1
    · rw [hr, Finmap.lookup_insert, Option.some_inj] at hv'
      rw [← hv'] at hs'
      exact absurd hs' (by decide)
    · rw [Finmap.lookup_insert_of_ne _ hr] at hv'
      cases hv'
  · decide

/-- A buy order at 6 and a sell order at 5 rest together: the software prints a spread of 0, the
simulation's book holds 5 - 6 modulo 2^32. And a print without shares is a trade in the simulation
only. -/
theorem final_differs_crossed :
    let buy : List UInt8 := [65, 0, 1, 0, 0] ++ List.replicate 15 0 ++ [1, 66, 0, 0, 0, 10]
      ++ List.replicate 8 32 ++ [0, 0, 0, 6]
    let sell : List UInt8 := [65, 0, 1, 0, 0] ++ List.replicate 15 0 ++ [2, 83, 0, 0, 0, 10]
      ++ List.replicate 8 32 ++ [0, 0, 0, 5]
    let print : List UInt8 := [80, 0, 1] ++ List.replicate 43 0
    let e := BookEngine.new 16 (RefMap.new 4)
    (AllApplied e ([buy, sell].map decoded)
        ∧ (∀ b ∈ [buy, sell], (decoded b).type.IsAdd → (decoded b).stockLocate = 1)
        ∧ (finalState (replay (e, {}) ([buy, sell].map decoded)) 1).spread = 0
        ∧ (([buy, sell].filterMap Sim.decodeBody).foldl Sim.RefBook.apply {}).finalState.spread
          ≠ 0)
      ∧ AllApplied e ([print].map decoded)
      ∧ (finalState (replay (e, {}) ([print].map decoded)) 1).trades = 0
      ∧ (([print].filterMap Sim.decodeBody).foldl Sim.RefBook.apply {}).finalState.trades = 1 := by
  intro buy sell print e
  have happ : AllApplied e ([buy, sell].map decoded) := by decide
  have hone : ∀ b ∈ [buy, sell], (decoded b).type.IsAdd → (decoded b).stockLocate = 1 := by decide
  have hsw : (finalState (replay (e, {}) ([buy, sell].map decoded)) 1).spread = 0 := by decide
  refine ⟨⟨happ, hone, hsw, fun hsim => ?_⟩, by decide, by decide, by decide⟩
  obtain ⟨hstep, -, hlive⟩ := @inStep_replay 1 [buy, sell] (e, {}) {} 0 (inStep_new 16 4 1) rfl
    happ hone
  have hspread := hstep.spread_iff
  rw [hlive] at hspread
  rw [finalState_eq] at hsw
  refine hspread.mp (hsw.trans hsim.symm) ⟨1, ⟨6, 10, 1, sideBuy⟩, 2, ⟨5, 10, 1, sideSell⟩, ?_⟩
  decide

end ItchOrderbook
