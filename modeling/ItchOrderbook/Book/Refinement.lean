import ItchOrderbook.Book.EngineInvariant
import ItchOrderbook.Book.ReferenceBook

/-!
# The engine refines the reference book

The engine is run on every message and the reference book on those the engine applied, as
the differential test does. `Sim` relates the two: the same orders, and for each locate and
side the reference maps exactly the prices whose level has shares. Each outcome of a message
keeps `Sim` (`Outcome.sim`), and `Sim` makes all queries agree.
-/

namespace ItchOrderbook

/-! ## One side -/

/-- The reference side maps each nonempty level to its shares, and no other price. -/
def SideSim (levels : UInt32 → PriceLevel) (s : RefSide) : Prop :=
  ∀ p, s.shares[p]? =
    if (levels p).totalShares = 0 then none else some (levels p).totalShares

namespace SideSim

variable {levels : UInt32 → PriceLevel} {s : RefSide} {price qty best : UInt32}

theorem shares_eq (h : SideSim levels s) (p : UInt32) :
    s.shares[p]?.getD 0 = (levels p).totalShares := by
  rw [h p]
  split
  · rw [Option.getD_none]; exact Eq.symm ‹_›
  · rw [Option.getD_some]

theorem mem_iff (h : SideSim levels s) (p : UInt32) :
    p ∈ s.shares ↔ (levels p).totalShares ≠ 0 := by
  rw [Std.ExtTreeMap.mem_iff_isSome_getElem?, h p]
  split
  · simpa using ‹_›
  · simpa using ‹_›

theorem add {count : UInt32} (h : SideSim levels s) (hne : (levels price).totalShares + qty ≠ 0) :
    SideSim (Function.update levels price ⟨(levels price).totalShares + qty, count⟩)
      (s.add price qty) := by
  intro p
  rw [RefSide.add, Std.ExtTreeMap.getElem?_insert, h.shares_eq]
  by_cases hp : p = price
  · subst hp
    simp [hne]
  · rw [if_neg (by simpa using Ne.symm hp), Function.update_of_ne hp]
    exact h p

/-- Taking shares from a nonempty level; the reference erases the price once it is empty. -/
theorem reduce (h : SideSim levels s) (hne : (levels price).totalShares ≠ 0) (gone : Bool) :
    SideSim (Function.update levels price ((levels price).take qty gone))
      (s.reduce price qty gone) := by
  intro p
  have hprice := h price
  rw [if_neg hne] at hprice
  simp only [RefSide.reduce, hprice]
  by_cases hempty : (levels price).totalShares - qty = 0
  · rw [if_pos hempty]
    show ((s.shares.insert price _).erase price)[p]? = _
    rw [Std.ExtTreeMap.getElem?_erase, Std.ExtTreeMap.getElem?_insert]
    by_cases hp : p = price
    · subst hp
      simp [PriceLevel.take, hempty]
    · have hcmp : ¬compare price p = .eq := by simpa using Ne.symm hp
      rw [if_neg hcmp, if_neg hcmp, Function.update_of_ne hp]
      exact h p
  · rw [if_neg hempty]
    show (s.shares.insert price _)[p]? = _
    rw [Std.ExtTreeMap.getElem?_insert]
    by_cases hp : p = price
    · subst hp
      simp [PriceLevel.take, hempty]
    · rw [if_neg (by simpa using Ne.symm hp), Function.update_of_ne hp]
      exact h p

/-- The largest mapped price is the best bid. -/
theorem maxKey_eq (h : SideSim levels s) (hbest : IsBestBid levels best)
    (hzero : (levels 0).totalShares = 0) : s.shares.maxKey?.getD 0 = best := by
  by_cases h0 : best = 0
  · -- nothing above price 0 has shares, so the map is empty
    have hnone : s.shares.maxKey? = none := by
      rw [Std.ExtTreeMap.maxKey?_eq_none_iff]
      apply Std.ExtTreeMap.ext_getElem?
      intro p
      have hp : (levels p).totalShares = 0 := by
        by_contra hne
        have hle := hbest.upper p hne
        rw [h0, UInt32.le_zero_iff] at hle
        exact hne (hle ▸ hzero)
      rw [h p, if_pos hp, Std.ExtTreeMap.getElem?_empty]
    rw [hnone, h0, Option.getD_none]
  · have hsome : s.shares.maxKey? = some best := by
      rw [Std.ExtTreeMap.maxKey?_eq_some_iff_mem_and_forall]
      refine ⟨(h.mem_iff best).mpr (hbest.attained h0), fun p hp => ?_⟩
      have hle := hbest.upper p ((h.mem_iff p).mp hp)
      exact Std.isLE_compare.mpr hle
    rw [hsome, Option.getD_some]

/-- The smallest mapped price is the best ask. -/
theorem minKey_eq (h : SideSim levels s) (hbest : IsBestAsk levels best) :
    s.shares.minKey?.getD 0 = best := by
  by_cases h0 : best = 0
  · have hnone : s.shares.minKey? = none := by
      rw [Std.ExtTreeMap.minKey?_eq_none_iff]
      apply Std.ExtTreeMap.ext_getElem?
      intro p
      have hp : (levels p).totalShares = 0 :=
        by_contra fun hne => (hbest.lower p hne).1 h0
      rw [h p, if_pos hp, Std.ExtTreeMap.getElem?_empty]
    rw [hnone, h0, Option.getD_none]
  · have hsome : s.shares.minKey? = some best := by
      rw [Std.ExtTreeMap.minKey?_eq_some_iff_mem_and_forall]
      refine ⟨(h.mem_iff best).mpr (hbest.attained h0), fun p hp => ?_⟩
      have hle := (hbest.lower p ((h.mem_iff p).mp hp)).2
      exact Std.isLE_compare.mpr hle
    rw [hsome, Option.getD_some]

end SideSim

/-! ## All books -/

/-- What the reference keeps of an order. -/
def Value.toRefOrder (v : Value) : RefOrder := ⟨v.locate, v.side, v.price, v.shares⟩

namespace ReferenceBook

/-- Replacing one side of one book shows there and nowhere else. -/
theorem side_modifySide (r : ReferenceBook) (locate locate' : UInt16) (s s' : Side)
    (f : RefSide → RefSide) :
    ((r.modifySide locate s.code f).bookAt locate').side s'.code =
      if locate' = locate ∧ s' = s then f ((r.bookAt locate).side s.code)
      else (r.bookAt locate').side s'.code := by
  by_cases hl : locate' = locate
  · subst hl
    cases s <;> cases s' <;>
      simp [modifySide, bookAt, SymbolBook.setSide, SymbolBook.side, Side.code,
        sideSell_ne_sideBuy]
  · simp [modifySide, bookAt, hl]

@[simp] theorem orders_modifySide (r : ReferenceBook) (locate : UInt16) (side : UInt8)
    (f : RefSide → RefSide) : (r.modifySide locate side f).orders = r.orders := rfl

/-- A reduction that is not clamped. -/
theorem onReduce_eq {r : ReferenceBook} {m : DecodedMessage} {v : Value}
    (h : r.orders.lookup m.orderRef = some v.toRefOrder) (hle : m.shares ≤ v.shares) :
    r.onReduce m =
      { r.modifySide v.locate v.side fun s => s.reduce v.price m.shares (v.shares == m.shares) with
        orders :=
          let left := r.orders.insert m.orderRef
            (Value.toRefOrder { v with shares := v.shares - m.shares })
          if v.shares = m.shares then left.erase m.orderRef else left } := by
  have hex : (if m.shares > v.shares then v.shares else m.shares) = m.shares :=
    if_neg (UInt32.not_lt.mpr hle)
  have hgone : (v.shares - m.shares == 0) = (v.shares == m.shares) := by
    rw [Bool.eq_iff_iff, beq_iff_eq, beq_iff_eq, UInt32.sub_eq_iff_eq_add, UInt32.zero_add]
  simp only [onReduce, h, Value.toRefOrder, hex, hgone]
  by_cases heq : v.shares = m.shares
  · simp [heq, modifySide, bookAt]
  · simp [heq, modifySide, bookAt]

theorem onDelete_eq {r : ReferenceBook} {m : DecodedMessage} {v : Value}
    (h : r.orders.lookup m.orderRef = some v.toRefOrder) :
    r.onDelete m =
      { r.modifySide v.locate v.side fun s => s.reduce v.price v.shares true with
        orders := r.orders.erase m.orderRef } := by
  simp only [onDelete, h]
  rfl

theorem onReplace_eq {r : ReferenceBook} {m : DecodedMessage} {v : Value}
    (h : r.orders.lookup m.orderRef = some v.toRefOrder) :
    r.onReplace m =
      { (r.modifySide v.locate v.side fun s => s.reduce v.price v.shares true).modifySide
          v.locate v.side fun s => s.add m.price m.shares with
        orders := (r.orders.erase m.orderRef).insert m.newOrderRef
          (Value.toRefOrder ⟨m.price, m.shares, v.locate, v.side⟩) } := by
  simp only [onReplace, h]
  rfl

theorem orders_onAdd (r : ReferenceBook) (m : DecodedMessage) :
    (r.onAdd m).orders
      = r.orders.insert m.orderRef
          (Value.toRefOrder ⟨m.price, m.shares, m.stockLocate, m.side⟩) := rfl

end ReferenceBook

/-- Every side of every book is simulated. -/
def BooksSim (levels : UInt16 → Side → UInt32 → PriceLevel) (r : ReferenceBook) : Prop :=
  ∀ locate s, SideSim (levels locate s) ((r.bookAt locate).side s.code)

/-- The orders of a reference book are no part of its books. -/
@[simp] theorem booksSim_orders {levels : UInt16 → Side → UInt32 → PriceLevel}
    {r : ReferenceBook} {orders : Finmap fun _ : UInt64 => RefOrder} :
    BooksSim levels { r with orders := orders } ↔ BooksSim levels r := Iff.rfl

/-- One level of one book and the reference's side of that book change together. -/
theorem BooksSim.modify {levels : UInt16 → Side → UInt32 → PriceLevel} {r : ReferenceBook}
    {b : OrderBook} {locate : UInt16} {s : Side} {price : UInt32} {l : PriceLevel}
    {f : RefSide → RefSide} (h : BooksSim levels r) (hb : levels locate = b.levels)
    (hside : SideSim (b.levels s) ((r.bookAt locate).side s.code) →
      SideSim (Function.update (b.levels s) price l) (f ((r.bookAt locate).side s.code))) :
    BooksSim (Function.update levels locate (b.setLevel s price l))
      (r.modifySide locate s.code f) := by
  intro locate' s'
  rw [ReferenceBook.side_modifySide]
  by_cases hl : locate' = locate
  · subst hl
    rw [Function.update_self]
    by_cases hs : s' = s
    · subst hs
      rw [if_pos ⟨rfl, rfl⟩, OrderBook.setLevel_self]
      exact hside (hb ▸ h locate' s')
    · rw [if_neg (fun hc => hs hc.2), OrderBook.setLevel_of_ne b hs, ← hb]
      exact h locate' s'
  · rw [if_neg (fun hc => hl hc.1), Function.update_of_ne hl]
    exact h locate' s'

theorem BooksSim.add {levels : UInt16 → Side → UInt32 → PriceLevel} {r : ReferenceBook}
    {b : OrderBook} {locate : UInt16} {s : Side} {price shares : UInt32}
    (h : BooksSim levels r) (hb : levels locate = b.levels)
    (hcan : b.canAdd s.code price shares = true) :
    BooksSim (Function.update levels locate (b.add s.code price shares).2.levels)
      (r.modifySide locate s.code fun t => t.add price shares) := by
  rw [OrderBook.levels_add hcan]
  exact h.modify hb fun hs => hs.add (OrderBook.totalShares_add_ne_zero hcan)

theorem BooksSim.remove {levels : UInt16 → Side → UInt32 → PriceLevel} {r : ReferenceBook}
    {b : OrderBook} {locate : UInt16} {s : Side} {price shares : UInt32} {gone : Bool}
    (h : BooksSim levels r) (hb : levels locate = b.levels)
    (hcan : b.canRemove s.code price shares gone = true) :
    BooksSim (Function.update levels locate (b.remove s.code price shares gone).2.levels)
      (r.modifySide locate s.code fun t => t.reduce price shares gone) := by
  rw [OrderBook.levels_remove hcan]
  exact h.modify hb fun hs => hs.reduce (OrderBook.nonempty_of_canRemove hcan) gone

/-- The orders of the two sides agree. -/
def OrdersSim (live : LiveOrders) (orders : Finmap fun _ : UInt64 => RefOrder) : Prop :=
  ∀ ref, orders.lookup ref = (live.lookup ref).map Value.toRefOrder

theorem OrdersSim.insert {live : LiveOrders} {orders : Finmap fun _ : UInt64 => RefOrder}
    (h : OrdersSim live orders) (ref : UInt64) (v : Value) :
    OrdersSim (live.insert ref v) (orders.insert ref v.toRefOrder) := by
  intro x
  by_cases hx : x = ref
  · rw [hx, Finmap.lookup_insert, Finmap.lookup_insert, Option.map_some]
  · rw [Finmap.lookup_insert_of_ne _ hx, Finmap.lookup_insert_of_ne _ hx, h]

theorem OrdersSim.erase {live : LiveOrders} {orders : Finmap fun _ : UInt64 => RefOrder}
    (h : OrdersSim live orders) (ref : UInt64) :
    OrdersSim (live.erase ref) (orders.erase ref) := by
  intro x
  by_cases hx : x = ref
  · rw [hx, Finmap.lookup_erase, Finmap.lookup_erase, Option.map_none]
  · rw [Finmap.lookup_erase_ne hx, Finmap.lookup_erase_ne hx, h]

/-- The simulation relation. -/
structure Sim (e : BookEngine RefMap) (r : ReferenceBook) : Prop where
  orders : OrdersSim e.refs.live r.orders
  books : BooksSim (fun locate => (e.bookOf locate).levels) r

theorem Sim.lookup_orders {e : BookEngine RefMap} {r : ReferenceBook} (h : Sim e r)
    {ref : UInt64} {v : Value} (hv : e.refs.find ref = some v) :
    r.orders.lookup ref = some v.toRefOrder := by
  rw [h.orders, show e.refs.live.lookup ref = some v from hv, Option.map_some]

namespace BookEngine

theorem sim_new (priceLevels : UInt32) (capacity : ℕ) :
    Sim (new priceLevels (RefMap.new capacity)) {} where
  orders ref := rfl
  books locate s p := by cases s <;> simp [bookOf, new, OrderBook.new, OrderBook.levels,
    ReferenceBook.bookAt, SymbolBook.side, Side.code, sideSell_ne_sideBuy]

theorem SameBooks.sim {e e' : BookEngine RefMap} {r : ReferenceBook} (same : SameBooks e e')
    (h : Sim e r) : Sim e' r where
  orders ref := by rw [same.refs]; exact h.orders ref
  books := by rw [funext same.books]; exact h.books

/-- The levels of every book after one book is replaced. -/
theorem Updates.levels_eq {e e' : BookEngine RefMap} {live : LiveOrders} {locate : UInt16}
    {b : OrderBook} (upd : Updates e e' live locate b) :
    (fun locate' => (e'.bookOf locate').levels)
      = Function.update (fun locate' => (e.bookOf locate').levels) locate b.levels := by
  funext locate'
  rw [upd.books, Function.update_apply]
  split <;> rfl

/-- **One applied message.** What the engine does to its orders and books, the reference does
to its own. -/
theorem Outcome.sim {e e' : BookEngine RefMap} {m : DecodedMessage} {out : ExecResult}
    {r : ReferenceBook} (h : Outcome e m e' out) (hinv : e.Inv) (hsim : Sim e r)
    (happ : e'.lastStatus = .applied) : Sim e' (r.apply m) := by
  cases h with
  | rejected reason same =>
    rw [happ] at reason
    cases reason
  | printed ht _ same =>
    rw [ReferenceBook.apply, ht]
    exact same.sim hsim
  | system ht _ same =>
    rw [ReferenceBook.apply, ht]
    exact same.sim hsim
  | added s ht hside _ _ _ _ _ _ _ hcan upd =>
    have hr : r.apply m = r.onAdd m := by
      rcases ht with ht | ht <;> rw [ReferenceBook.apply, ht]
    rw [hside] at hcan upd
    rw [hr]
    refine ⟨?_, ?_⟩
    · rw [upd.live_eq, ReferenceBook.orders_onAdd, hside]
      exact hsim.orders.insert _ _
    · rw [upd.levels_eq, ReferenceBook.onAdd, booksSim_orders, hside]
      exact hsim.books.add rfl hcan
  | reduced v s ht hv hside hsh hle upd =>
    have hr : r.apply m = r.onReduce m := by
      rcases ht with (ht | ht) | ht <;> rw [ReferenceBook.apply, ht]
    have hcan := reduce_removed hinv hv hsh hle
    rw [hside] at hcan upd
    rw [hr, ReferenceBook.onReduce_eq (hsim.lookup_orders hv) hle]
    refine ⟨?_, ?_⟩
    · rw [upd.live_eq, reduceLive]
      split
      · rw [← Finmap.erase_insert_self _ _ { v with shares := v.shares - m.shares }]
        exact (hsim.orders.insert _ _).erase _
      · exact hsim.orders.insert _ _
    · rw [upd.levels_eq, booksSim_orders, hside]
      exact hsim.books.remove rfl hcan
  | deleted v s ht hv hside upd =>
    have hcan := reduce_removed hinv hv (hinv.positive _ v hv).1 (UInt32.le_refl _)
    rw [beq_self_eq_true, hside] at hcan
    rw [hside] at upd
    rw [ReferenceBook.apply, ht]
    show Sim e' (r.onDelete m)
    rw [ReferenceBook.onDelete_eq (hsim.lookup_orders hv)]
    refine ⟨?_, ?_⟩
    · rw [upd.live_eq]
      exact hsim.orders.erase _
    · rw [upd.levels_eq, booksSim_orders, hside]
      exact hsim.books.remove rfl hcan
  | replaced old s ht hv hside _ _ _ _ _ _ hcan upd =>
    rw [hside] at hcan upd
    obtain ⟨hrem, hadd⟩ := OrderBook.replace_admitted hcan
    rw [ReferenceBook.apply, ht]
    show Sim e' (r.onReplace m)
    rw [ReferenceBook.onReplace_eq (hsim.lookup_orders hv)]
    refine ⟨?_, ?_⟩
    · rw [upd.live_eq, hside]
      exact (hsim.orders.erase _).insert _ _
    · -- the reduction and then the addition, each in the same book
      rw [upd.levels_eq, booksSim_orders, hside]
      have hremoved := hsim.books.remove (rfl : (e.bookOf old.locate).levels = _) hrem
      have hadded := hremoved.add (Function.update_self ..) hadd
      rwa [Function.update_idem] at hadded

/-! ## Whole runs -/

/-- One message to both: the reference sees it when the engine applied it. -/
def lockstep (p : BookEngine RefMap × ReferenceBook) (m : DecodedMessage) :
    BookEngine RefMap × ReferenceBook :=
  (p.1.next m, if (p.1.next m).lastStatus = .applied then p.2.apply m else p.2)

/-- All messages to both, from the start. -/
def runDiff (priceLevels : UInt32) (capacity : ℕ) (ms : List DecodedMessage) :
    BookEngine RefMap × ReferenceBook :=
  ms.foldl lockstep (new priceLevels (RefMap.new capacity), {})

theorem sim_lockstep {p : BookEngine RefMap × ReferenceBook} (hinv : p.1.Inv)
    (hsim : Sim p.1 p.2) (m : DecodedMessage) :
    Sim (lockstep p m).1 (lockstep p m).2 := by
  have hout := step_outcome hinv m
  unfold lockstep
  split
  · exact hout.sim hinv hsim ‹_›
  · exact (hout.not_applied ‹_›).1.sim hsim

/-- The simulation holds all along the run. Induction on the messages. -/
theorem sim_runDiff (priceLevels : UInt32) (capacity : ℕ) (ms : List DecodedMessage) :
    (runDiff priceLevels capacity ms).1.Inv
      ∧ Sim (runDiff priceLevels capacity ms).1 (runDiff priceLevels capacity ms).2 := by
  induction ms using List.reverseRecOn with
  | nil => exact ⟨inv_new priceLevels capacity, sim_new priceLevels capacity⟩
  | append_singleton ms m ih =>
    rw [runDiff, List.foldl_append]
    exact ⟨ih.1.next m, sim_lockstep ih.1 ih.2 m⟩

theorem fst_runDiff (priceLevels : UInt32) (capacity : ℕ) (ms : List DecodedMessage) :
    (runDiff priceLevels capacity ms).1 = (new priceLevels (RefMap.new capacity)).run ms := by
  induction ms using List.reverseRecOn with
  | nil => rfl
  | append_singleton ms m ih =>
    rw [runDiff, run, List.foldl_append, List.foldl_append]
    exact congrArg (fun e => e.next m) ih

/-! ## Queries -/

section Agree

variable {e : BookEngine RefMap} {r : ReferenceBook}

theorem bestBid_agree (hinv : e.Inv) (h : Sim e r) (locate : UInt16) :
    r.bestBid locate = (e.bookOf locate).bestBid := by
  have hwf := (hinv.tracks locate).wellFormed
  rw [ReferenceBook.bestBid_eq]
  exact (h.books locate .buy).maxKey_eq hwf.best_bid
    (congrArg PriceLevel.totalShares (hwf.outside .buy 0 (Or.inl rfl)))

theorem bestAsk_agree (hinv : e.Inv) (h : Sim e r) (locate : UInt16) :
    r.bestAsk locate = (e.bookOf locate).bestAsk := by
  rw [ReferenceBook.bestAsk_eq]
  exact (h.books locate .sell).minKey_eq (hinv.tracks locate).wellFormed.best_ask

theorem bid_agree (h : Sim e r) (locate : UInt16) (price : UInt32) :
    r.bidSharesAt locate price = ((e.bookOf locate).bid price).totalShares := by
  rw [ReferenceBook.bidSharesAt_eq]
  exact (h.books locate .buy).shares_eq price

theorem ask_agree (h : Sim e r) (locate : UInt16) (price : UInt32) :
    r.askSharesAt locate price = ((e.bookOf locate).ask price).totalShares := by
  rw [ReferenceBook.askSharesAt_eq]
  exact (h.books locate .sell).shares_eq price

/-- Both hold the same references, so as many. -/
theorem liveOrders_agree (h : Sim e r) : r.liveOrders = e.refs.size := by
  apply Finmap.size_congr
  intro ref
  rw [h.orders, Option.isSome_map]

end Agree

/-- **The engine refines the reference book.** After any messages, with the reference fed
those that were applied, every query of every book agrees and so does the number of live
orders. -/
theorem run_refines_reference (priceLevels : UInt32) (capacity : ℕ) (ms : List DecodedMessage) :
    let e := (new priceLevels (RefMap.new capacity)).run ms
    let r := (runDiff priceLevels capacity ms).2
    (∀ locate, (e.bookOf locate).bestBid = r.bestBid locate
        ∧ (e.bookOf locate).bestAsk = r.bestAsk locate
        ∧ (e.bookOf locate).bestBidDepth = r.bestBidDepth locate
        ∧ (e.bookOf locate).bestAskDepth = r.bestAskDepth locate)
      ∧ (∀ locate price, (e.bookOf locate).bidSharesAt price = r.bidSharesAt locate price
        ∧ (e.bookOf locate).askSharesAt price = r.askSharesAt locate price)
      ∧ e.refs.size = r.liveOrders := by
  intro e r
  have hfst := fst_runDiff priceLevels capacity ms
  obtain ⟨hinv, hsim⟩ := sim_runDiff priceLevels capacity ms
  rw [hfst] at hinv hsim
  have hbid := bestBid_agree hinv hsim
  have hask := bestAsk_agree hinv hsim
  refine ⟨fun locate => ⟨(hbid locate).symm, (hask locate).symm, ?_, ?_⟩, fun locate price => ?_,
    (liveOrders_agree hsim).symm⟩
  · rw [OrderBook.bestBidDepth, ReferenceBook.bestBidDepth, hbid, bid_agree hsim]
  · rw [OrderBook.bestAskDepth, ReferenceBook.bestAskDepth, hask, ask_agree hsim]
  · have hwf := (hinv.tracks locate).wellFormed
    rw [OrderBook.bidSharesAt, OrderBook.askSharesAt, bid_agree hsim, ask_agree hsim]
    split
    · exact ⟨rfl, rfl⟩
    · -- beyond the price range the levels are empty
      have hout := fun s => hwf.outside s price (Or.inr (UInt32.not_le.mp ‹_›))
      exact ⟨(congrArg PriceLevel.totalShares (hout .buy)).symm,
        (congrArg PriceLevel.totalShares (hout .sell)).symm⟩

end BookEngine

end ItchOrderbook
