import ItchOrderbook.Book.EngineSpec
import ItchOrderbook.Trade.FillEngine

/-!
# What one step of the fill engine does

Everything the loops of the fill engine do to an order is one of two moves: shares in front of
it leave, or it is filled. `Evolves` is what both keep of the order, and `Trades` what any
sequence of them does to all open orders and to the fills. Each loop body is inverted once
(`priceThroughAt_cases`, `atLevelAt_cases`); the loops follow by their invariant rule.
-/

namespace ItchOrderbook

open VectorLoop (forEach forEach_invariant sum_map_set)

/-! ## Arithmetic -/

@[simp] theorem toNat_umin (a b : UInt32) : (umin a b).toNat = min a.toNat b.toNat := by
  unfold umin
  split
  · rename_i h
    rw [UInt32.lt_iff_toNat_lt] at h
    omega
  · rename_i h
    rw [UInt32.lt_iff_toNat_lt] at h
    omega

theorem umin_le_left (a b : UInt32) : umin a b ≤ a := by
  rw [UInt32.le_iff_toNat_le, toNat_umin]
  omega

theorem umin_le_right (a b : UInt32) : umin a b ≤ b := by
  rw [UInt32.le_iff_toNat_le, toNat_umin]
  omega

namespace OpenOrder

variable (o : OpenOrder) (x : UInt32)

theorem toNat_taken : (o.taken x).toNat = min x.toNat o.queueAhead.toNat := by
  unfold taken
  split
  · rename_i h
    rw [UInt64.lt_iff_toNat_lt, UInt32.toNat_toUInt64] at h
    rw [UInt32.toNat_toUInt64]
    omega
  · rename_i h
    rw [UInt64.lt_iff_toNat_lt, UInt32.toNat_toUInt64] at h
    omega

/-- Draining is a subtraction that stops at 0. -/
theorem toNat_queueAhead_drainQueue :
    (o.drainQueue x).queueAhead.toNat = o.queueAhead.toNat - x.toNat := by
  have hle : o.taken x ≤ o.queueAhead := by
    rw [UInt64.le_iff_toNat_le, toNat_taken]
    omega
  rw [drainQueue, UInt64.toNat_sub_of_le _ _ hle, toNat_taken]
  omega

/-- What is left of the drained shares is what exceeds the queue. -/
theorem toNat_leftover :
    (x - (o.taken x).toUInt32).toNat = x.toNat - o.queueAhead.toNat := by
  have hlt := x.toNat_lt
  have htake : (o.taken x).toUInt32.toNat = min x.toNat o.queueAhead.toNat := by
    rw [UInt64.toNat_toUInt32, toNat_taken]
    omega
  have hle : (o.taken x).toUInt32 ≤ x := by
    rw [UInt32.le_iff_toNat_le, htake]
    omega
  rw [UInt32.toNat_sub_of_le _ _ hle, htake]
  omega

/-- What a step keeps of an order: who and where it is; it only loses shares and shares ahead. -/
structure Evolves (o o' : OpenOrder) : Prop where
  ref : o'.ref = o.ref
  side : o'.side = o.side
  price : o'.price = o.price
  original : o'.original = o.original
  watermark : o'.watermark = o.watermark
  seq : o'.seq = o.seq
  remaining : o'.remaining ≤ o.remaining
  queueAhead : o'.queueAhead ≤ o.queueAhead

theorem Evolves.refl : Evolves o o :=
  ⟨rfl, rfl, rfl, rfl, rfl, rfl, UInt32.le_refl _, UInt64.le_refl _⟩

variable {o}

theorem Evolves.trans {o' o'' : OpenOrder} (h : Evolves o o') (h' : Evolves o' o'') :
    Evolves o o'' :=
  ⟨h'.ref.trans h.ref, h'.side.trans h.side, h'.price.trans h.price,
    h'.original.trans h.original, h'.watermark.trans h.watermark, h'.seq.trans h.seq,
    UInt32.le_trans h'.remaining h.remaining, UInt64.le_trans h'.queueAhead h.queueAhead⟩

theorem evolves_drainQueue (o : OpenOrder) (x : UInt32) : Evolves o (o.drainQueue x) :=
  { Evolves.refl o with
    queueAhead := by
      rw [UInt64.le_iff_toNat_le, toNat_queueAhead_drainQueue]
      omega }

theorem evolves_reduceBehind (o : OpenOrder) (amount : UInt32) (later : OpenOrder) :
    Evolves later (o.reduceBehind amount later) := by
  unfold reduceBehind
  split
  · exact Evolves.refl later
  · exact evolves_drainQueue later amount

@[simp] theorem ref_reduceBehind (o : OpenOrder) (amount : UInt32) (later : OpenOrder) :
    (o.reduceBehind amount later).ref = later.ref := (evolves_reduceBehind o amount later).ref

@[simp] theorem remaining_reduceBehind (o : OpenOrder) (amount : UInt32) (later : OpenOrder) :
    (o.reduceBehind amount later).remaining = later.remaining := by
  unfold reduceBehind
  split <;> rfl

theorem evolves_take {shares : UInt32} (h : shares ≤ o.remaining) :
    Evolves o { o with remaining := o.remaining - shares } :=
  { Evolves.refl o with
    remaining := by
      show o.remaining - shares ≤ o.remaining
      rw [UInt32.le_iff_toNat_le, UInt32.toNat_sub_of_le _ _ h]
      omega }

end OpenOrder

open OpenOrder (Evolves)

/-! ## Shares by reference -/

/-- The shares filled under a reference. -/
def filledShares (fills : List FillRec) (ref : UInt64) : ℕ :=
  (fills.map fun f => if f.ourRef = ref then f.shares.toNat else 0).sum

/-- The shares open under a reference. -/
def openShares (orders : List OpenOrder) (ref : UInt64) : ℕ :=
  (orders.map fun o => if o.ref = ref then o.remaining.toNat else 0).sum

@[simp] theorem filledShares_nil (ref : UInt64) : filledShares [] ref = 0 := rfl

@[simp] theorem filledShares_append (fills fills' : List FillRec) (ref : UInt64) :
    filledShares (fills ++ fills') ref = filledShares fills ref + filledShares fills' ref := by
  simp [filledShares]

@[simp] theorem filledShares_singleton (f : FillRec) (ref : UInt64) :
    filledShares [f] ref = if f.ourRef = ref then f.shares.toNat else 0 := by
  simp [filledShares]

@[simp] theorem openShares_append (orders orders' : List OpenOrder) (ref : UInt64) :
    openShares (orders ++ orders') ref = openShares orders ref + openShares orders' ref := by
  simp [openShares]

theorem openShares_cons (o : OpenOrder) (orders : List OpenOrder) (ref : UInt64) :
    openShares (o :: orders) ref
      = (if o.ref = ref then o.remaining.toNat else 0) + openShares orders ref := by
  simp [openShares]

/-- Writing one order. -/
theorem openShares_set {orders : List OpenOrder} {i : ℕ} {o o' : OpenOrder}
    (h : orders[i]? = some o) (ref : UInt64) :
    openShares (orders.set i o') ref + (if o.ref = ref then o.remaining.toNat else 0)
      = openShares orders ref + (if o'.ref = ref then o'.remaining.toNat else 0) :=
  sum_map_set (fun o : OpenOrder => if o.ref = ref then o.remaining.toNat else 0) o' h

@[simp] theorem openShares_reduceLater (orders : List OpenOrder) (o : OpenOrder)
    (amount : UInt32) (ref : UInt64) :
    openShares (reduceLater orders o amount) ref = openShares orders ref := by
  unfold openShares reduceLater
  rw [List.map_map]
  congr 2
  funext later
  simp

/-- Forgetting the filled orders forgets no shares. -/
theorem openShares_eraseFilled (orders : List OpenOrder) (ref : UInt64) :
    openShares (FillEngine.eraseFilled orders) ref = openShares orders ref := by
  refine VectorLoop.sum_map_filter _ _ fun o _ h => ?_
  have hzero : o.remaining = 0 := by simpa using h
  rw [hzero, UInt32.toNat_zero, ite_self]

/-! ## Trading steps -/

/-- The record says that shares of the order were filled as a maker, at its own price. -/
structure FillRec.IsMakerOf (f : FillRec) (o : OpenOrder) : Prop where
  maker : f.maker = true
  ref : f.ourRef = o.ref
  side : f.side = o.side
  price : f.price = o.price

/-- Orders and fills before and after a step in which nothing but trading happens: each order
evolves where it stands, each new fill is a maker fill of one of them, and what the fills gain
the orders lose. -/
structure Trades (orders : List OpenOrder) (fills : List FillRec) (orders' : List OpenOrder)
    (fills' : List FillRec) : Prop where
  evolves : List.Forall₂ Evolves orders orders'
  makers : ∃ new, fills' = fills ++ new ∧ ∀ f ∈ new, ∃ o ∈ orders, f.IsMakerOf o
  conserved : ∀ ref, filledShares fills' ref + openShares orders' ref
    = filledShares fills ref + openShares orders ref

theorem Trades.refl (orders : List OpenOrder) (fills : List FillRec) :
    Trades orders fills orders fills where
  evolves := List.forall₂_same.mpr fun o _ => Evolves.refl o
  makers := ⟨[], (List.append_nil fills).symm, fun _ hf => absurd hf List.not_mem_nil⟩
  conserved _ := rfl

/-- Every order after comes from one before. -/
theorem forall₂_evolves_mem {orders orders' : List OpenOrder}
    (h : List.Forall₂ Evolves orders orders') {o' : OpenOrder} (ho : o' ∈ orders') :
    ∃ o ∈ orders, Evolves o o' := by
  induction h with
  | nil => cases ho
  | cons hab _ ih =>
    rcases List.mem_cons.mp ho with rfl | hin
    · exact ⟨_, List.mem_cons_self, hab⟩
    · obtain ⟨o, hmem, hev⟩ := ih hin
      exact ⟨o, List.mem_cons_of_mem _ hmem, hev⟩

theorem forall₂_evolves_refs {orders orders' : List OpenOrder}
    (h : List.Forall₂ Evolves orders orders') :
    orders'.map OpenOrder.ref = orders.map OpenOrder.ref := by
  induction h with
  | nil => rfl
  | cons hab _ ih => rw [List.map_cons, List.map_cons, hab.ref, ih]

theorem forall₂_evolves_trans {orders orders' orders'' : List OpenOrder}
    (h : List.Forall₂ Evolves orders orders') (h' : List.Forall₂ Evolves orders' orders'') :
    List.Forall₂ Evolves orders orders'' := by
  induction h generalizing orders'' with
  | nil => exact h'
  | cons hab _ ih =>
    cases h' with
    | cons hbc hrest => exact .cons (hab.trans hbc) (ih hrest)

theorem Trades.trans {orders orders' orders'' : List OpenOrder}
    {fills fills' fills'' : List FillRec} (h : Trades orders fills orders' fills')
    (h' : Trades orders' fills' orders'' fills'') : Trades orders fills orders'' fills'' where
  evolves := forall₂_evolves_trans h.evolves h'.evolves
  makers := by
    obtain ⟨new, rfl, hnew⟩ := h.makers
    obtain ⟨new', rfl, hnew'⟩ := h'.makers
    refine ⟨new ++ new', List.append_assoc .., fun f hf => ?_⟩
    rcases List.mem_append.mp hf with hf | hf
    · exact hnew f hf
    · obtain ⟨o', ho', hmaker⟩ := hnew' f hf
      obtain ⟨o, ho, hev⟩ := forall₂_evolves_mem h.evolves ho'
      exact ⟨o, ho, hmaker.maker, hmaker.ref.trans hev.ref, hmaker.side.trans hev.side,
        hmaker.price.trans hev.price⟩
  conserved ref := (h'.conserved ref).trans (h.conserved ref)

/-- Writing back an order that evolved. -/
theorem forall₂_evolves_set {orders : List OpenOrder} {i : ℕ} {o o' : OpenOrder}
    (h : orders[i]? = some o) (hev : Evolves o o') :
    List.Forall₂ Evolves orders (orders.set i o') := by
  induction orders generalizing i with
  | nil => simp at h
  | cons x xs ih =>
    cases i with
    | zero =>
      rw [List.getElem?_cons_zero, Option.some_inj] at h
      exact .cons (h ▸ hev) (List.forall₂_same.mpr fun o _ => Evolves.refl o)
    | succ i => exact .cons (Evolves.refl x) (ih h)

theorem forall₂_evolves_reduceLater (orders : List OpenOrder) (o : OpenOrder)
    (amount : UInt32) : List.Forall₂ Evolves orders (reduceLater orders o amount) := by
  rw [reduceLater, List.forall₂_map_right_iff, List.forall₂_same]
  exact fun later _ => OpenOrder.evolves_reduceBehind o amount later

/-! ### The two moves -/

/-- What a fill leaves of the order. -/
theorem fill_fst (fills : List FillRec) (o : OpenOrder) (shares price : UInt32) (maker : Bool)
    (ts : UInt64) :
    (fill fills o shares price maker ts).1 = { o with remaining := o.remaining - shares } := by
  unfold fill
  split
  · rename_i h
    rw [h, UInt32.sub_zero]
  · rfl

/-- Filling an order at its own price with no more shares than it has left; the assertion
`shares <= o.remaining` of `fill` is the hypothesis. -/
theorem trades_fill {orders : List OpenOrder} {fills : List FillRec} {i : ℕ} {o₀ o : OpenOrder}
    {shares : UInt32} (ts : UInt64) (h : orders[i]? = some o₀) (hev : Evolves o₀ o)
    (hrem : o.remaining = o₀.remaining) (hle : shares ≤ o.remaining) :
    Trades orders fills (orders.set i (fill fills o shares o.price true ts).1)
      (fill fills o shares o.price true ts).2 where
  evolves := by
    rw [fill_fst]
    exact forall₂_evolves_set h (hev.trans (OpenOrder.evolves_take hle))
  makers := by
    unfold fill
    split
    · exact ⟨[], (List.append_nil fills).symm, fun _ hf => absurd hf List.not_mem_nil⟩
    · refine ⟨_, rfl, fun f hf => ⟨o₀, List.mem_of_getElem? h, ?_⟩⟩
      rw [List.mem_singleton] at hf
      subst hf
      exact ⟨rfl, hev.ref, hev.side, hev.price⟩
  conserved ref := by
    have hset : openShares (orders.set i { o with remaining := o.remaining - shares }) ref + _ = _ :=
      openShares_set h ref
    have hfills : filledShares (fill fills o shares o.price true ts).2 ref
        = filledShares fills ref + if o.ref = ref then shares.toNat else 0 := by
      unfold fill
      split
      · rename_i h0
        simp [h0]
      · simp
    have hsub := UInt32.toNat_sub_of_le _ _ hle
    have := UInt32.le_iff_toNat_le.mp hle
    rw [hfills, fill_fst]
    change _ = _ + (if o.ref = ref then (o.remaining - shares).toNat else 0) at hset
    rw [← hev.ref, ← hrem] at hset
    split at hset
    · rw [if_pos ‹_›]
      omega
    · rw [if_neg ‹_›]
      omega

theorem trades_reduceLater (orders : List OpenOrder) (fills : List FillRec) (o : OpenOrder)
    (amount : UInt32) : Trades orders fills (reduceLater orders o amount) fills where
  evolves := forall₂_evolves_reduceLater orders o amount
  makers := ⟨[], (List.append_nil fills).symm, fun _ hf => absurd hf List.not_mem_nil⟩
  conserved ref := by rw [openShares_reduceLater]

theorem ExecState.trades_fillFromBudget {st : ExecState} {i : ℕ} {o : OpenOrder} (ts : UInt64)
    (h : st.orders[i]? = some o) :
    Trades st.orders st.fills (st.fillFromBudget i o ts).orders (st.fillFromBudget i o ts).fills := by
  have hle : umin st.budget o.remaining ≤ o.remaining := umin_le_right st.budget o.remaining
  have hfill : Trades st.orders st.fills _ _ := trades_fill ts h (Evolves.refl o) rfl hle
  unfold fillFromBudget
  show Trades st.orders st.fills (ite _ _ _) _
  split
  · exact hfill.trans (trades_reduceLater ..)
  · exact hfill

theorem ExecState.trades_drainAhead {st : ExecState} {i : ℕ} {o : OpenOrder} (q : UInt32)
    (ts : UInt64) (h : st.orders[i]? = some o) :
    Trades st.orders st.fills (st.drainAhead i o q ts).orders (st.drainAhead i o q ts).fills :=
  trades_fill ts h (OpenOrder.evolves_drainQueue o q) rfl (umin_le_right _ _)

/-! ### The loop bodies -/

/-- What the price-through body does: nothing, when the order at the index is not a price-superior
one of the side with shares left; else a fill from the budget. -/
theorem priceThroughAt_cases (side : UInt8) (price : UInt32) (ts : UInt64) (st : ExecState)
    (i : ℕ) :
    (priceThroughAt side price ts st i = st
        ∧ ∀ o, st.orders[i]? = some o →
          ¬(o.side = side ∧ o.remaining ≠ 0 ∧ superior side o.price price = true))
      ∨ ∃ o, st.orders[i]? = some o ∧ o.side = side ∧ o.remaining ≠ 0
        ∧ superior side o.price price = true
        ∧ priceThroughAt side price ts st i = st.fillFromBudget i o ts := by
  unfold priceThroughAt
  cases h : st.orders[i]? with
  | none => exact Or.inl ⟨rfl, fun o ho => by cases ho⟩
  | some o =>
    by_cases hskip : o.side ≠ side ∨ o.remaining = 0
    · refine Or.inl ⟨if_pos hskip, fun o' ho' hc => ?_⟩
      cases ho'
      rcases hskip with hs | hr
      · exact hs hc.1
      · exact hc.2.1 hr
    · simp only [if_neg hskip]
      rw [not_or, not_not] at hskip
      cases hsup : superior side o.price price with
      | false =>
        refine Or.inl ⟨rfl, fun o' ho' hc => ?_⟩
        cases ho'
        rw [hsup] at hc
        exact absurd hc.2.2 Bool.false_ne_true
      | true => exact Or.inr ⟨o, rfl, hskip.1, hskip.2, hsup, rfl⟩

/-- What the body at the executed level does: nothing, when the order at the index is not one of
the level with shares left; else the executed shares were ahead of it and drain its queue, or
they were behind it and it is filled from the budget. -/
theorem atLevelAt_cases (r : UInt64) (side : UInt8) (price q : UInt32) (ts : UInt64)
    (st : ExecState) (i : ℕ) :
    (atLevelAt r side price q ts st i = st
        ∧ ∀ o, st.orders[i]? = some o →
          ¬(o.side = side ∧ o.price = price ∧ o.remaining ≠ 0))
      ∨ ∃ o, st.orders[i]? = some o ∧ o.side = side ∧ o.price = price ∧ o.remaining ≠ 0
        ∧ ((r ≤ o.watermark ∧ atLevelAt r side price q ts st i = st.drainAhead i o q ts)
          ∨ (o.watermark < r ∧ atLevelAt r side price q ts st i = st.fillFromBudget i o ts)) := by
  unfold atLevelAt
  cases h : st.orders[i]? with
  | none => exact Or.inl ⟨rfl, fun o ho => by cases ho⟩
  | some o =>
    by_cases hskip : o.side ≠ side ∨ o.price ≠ price ∨ o.remaining = 0
    · refine Or.inl ⟨if_pos hskip, fun o' ho' hc => ?_⟩
      cases ho'
      rcases hskip with hs | hp | hr
      · exact hs hc.1
      · exact hp hc.2.1
      · exact hc.2.2 hr
    · simp only [if_neg hskip]
      rw [not_or, not_or, not_not, not_not] at hskip
      refine Or.inr ⟨o, rfl, hskip.1, hskip.2.1, hskip.2.2, ?_⟩
      by_cases hr : r ≤ o.watermark
      · exact Or.inl ⟨hr, if_pos hr⟩
      · exact Or.inr ⟨UInt64.not_le.mp hr, if_neg hr⟩

/-! ## The loops and the messages -/

theorem trades_priceThrough (side : UInt8) (price : UInt32) (ts : UInt64) (n : ℕ)
    (st : ExecState) :
    Trades st.orders st.fills (forEach n (priceThroughAt side price ts) st).orders
      (forEach n (priceThroughAt side price ts) st).fills := by
  refine forEach_invariant (fun _ (t : ExecState) => Trades st.orders st.fills t.orders t.fills)
    (Trades.refl ..) fun i _ t ht => ?_
  rcases priceThroughAt_cases side price ts t i with ⟨heq, -⟩ | ⟨o, ho, -, -, -, heq⟩
  · rw [heq]
    exact ht
  · rw [heq]
    exact ht.trans (ExecState.trades_fillFromBudget ts ho)

theorem trades_atLevel (r : UInt64) (side : UInt8) (price q : UInt32) (ts : UInt64) (n : ℕ)
    (st : ExecState) :
    Trades st.orders st.fills (forEach n (atLevelAt r side price q ts) st).orders
      (forEach n (atLevelAt r side price q ts) st).fills := by
  refine forEach_invariant (fun _ (t : ExecState) => Trades st.orders st.fills t.orders t.fills)
    (Trades.refl ..) fun i _ t ht => ?_
  rcases atLevelAt_cases r side price q ts t i with
    ⟨heq, -⟩ | ⟨o, ho, -, -, -, ⟨-, heq⟩ | ⟨-, heq⟩⟩
  · rw [heq]
    exact ht
  · rw [heq]
    exact ht.trans (ExecState.trades_drainAhead q ts ho)
  · rw [heq]
    exact ht.trans (ExecState.trades_fillFromBudget ts ho)

namespace FillEngine

/-- What a market message can do to the fill engine: trade, and then forget the orders that are
filled; and raise the watermark. -/
structure MarketStep (fe fe' : FillEngine) : Prop where
  locate : fe'.locate = fe.locate
  nextRef : fe'.nextRef = fe.nextRef
  nextSeq : fe'.nextSeq = fe.nextSeq
  maxMarketRef : fe.maxMarketRef ≤ fe'.maxMarketRef
  trades : ∃ orders, Trades fe.openOrders fe.fills orders fe'.fills
    ∧ (fe'.openOrders = orders ∨ fe'.openOrders = eraseFilled orders)
  positive : (∀ o ∈ fe.openOrders, o.remaining ≠ 0) → ∀ o ∈ fe'.openOrders, o.remaining ≠ 0

theorem MarketStep.refl (fe : FillEngine) : MarketStep fe fe :=
  ⟨rfl, rfl, rfl, UInt64.le_refl _, ⟨fe.openOrders, Trades.refl .., Or.inl rfl⟩, id⟩

theorem handleExec_step (fe : FillEngine) (r : UInt64) (side : UInt8) (price q : UInt32)
    (ts : UInt64) : MarketStep fe (fe.handleExec r side price q ts) := by
  have hfirst := trades_priceThrough side price ts fe.openOrders.length
    ⟨fe.openOrders, q, fe.fills⟩
  have hsecond := trades_atLevel r side price q ts fe.openOrders.length
    { forEach fe.openOrders.length (priceThroughAt side price ts)
        ⟨fe.openOrders, q, fe.fills⟩ with budget := q }
  refine ⟨rfl, rfl, rfl, UInt64.le_refl _, ⟨_, hfirst.trans hsecond, Or.inr rfl⟩,
    fun _ o ho => ?_⟩
  simpa using (List.mem_filter.mp ho).2

theorem handleRemove_step (fe : FillEngine) (r : UInt64) (side : UInt8) (price x : UInt32) :
    MarketStep fe (fe.handleRemove r side price x) := by
  refine ⟨rfl, rfl, rfl, UInt64.le_refl _, ⟨_, ⟨?_, ?_, fun ref => ?_⟩, Or.inl rfl⟩,
    fun hpos o ho => ?_⟩
  · rw [handleRemove, List.forall₂_map_right_iff, List.forall₂_same]
    intro o _
    split
    · exact OpenOrder.Evolves.refl o
    · split
      · exact OpenOrder.evolves_drainQueue o x
      · exact OpenOrder.Evolves.refl o
  · exact ⟨[], (List.append_nil _).symm, fun _ hf => absurd hf List.not_mem_nil⟩
  · unfold handleRemove openShares
    rw [List.map_map]
    congr 3
    funext o
    show (if (ite _ o _ : OpenOrder).ref = ref then (ite _ o _ : OpenOrder).remaining.toNat else 0) = _
    split
    · rfl
    · split <;> rfl
  · obtain ⟨o₀, ho₀, rfl⟩ := List.mem_map.mp ho
    have hrem := hpos o₀ ho₀
    split
    · exact hrem
    · split <;> exact hrem

theorem raiseWatermark_step {fe fe' : FillEngine} (h : MarketStep fe fe') (ref : UInt64) :
    MarketStep fe (fe'.raiseWatermark ref) := by
  refine ⟨h.locate, h.nextRef, h.nextSeq, UInt64.le_trans h.maxMarketRef ?_, h.trades,
    h.positive⟩
  unfold raiseWatermark
  show fe'.maxMarketRef ≤ ite _ _ _
  split
  · exact UInt64.le_of_lt ‹_›
  · exact UInt64.le_refl _

/-- A message is looked up, and acted on when the order it names is of our locate. -/
theorem resolved_step {fe : FillEngine} {act : Value → FillEngine}
    (h : ∀ v, MarketStep fe (act v)) (found : Option Value) :
    MarketStep fe (match found with
      | none => fe
      | some v => if v.locate ≠ fe.locate then fe else act v) := by
  cases found with
  | none => exact MarketStep.refl fe
  | some v =>
    show MarketStep fe (if v.locate ≠ fe.locate then fe else act v)
    split
    · exact MarketStep.refl fe
    · exact h v

variable {T : Type} {M : Type → Type} [RefTable T M]

theorem onMarketMessage_step (fe : FillEngine) (eng : BookEngine T) (m : DecodedMessage) :
    MarketStep fe (fe.onMarketMessage eng m) := by
  unfold onMarketMessage
  cases m.type with
  | addOrder => exact raiseWatermark_step (MarketStep.refl fe) _
  | addOrderMPID => exact raiseWatermark_step (MarketStep.refl fe) _
  | orderExecuted => exact resolved_step (fun v => handleExec_step fe ..) _
  | orderExecutedPrice => exact resolved_step (fun v => handleExec_step fe ..) _
  | orderCancel => exact resolved_step (fun v => handleRemove_step fe ..) _
  | orderDelete => exact resolved_step (fun v => handleRemove_step fe ..) _
  | orderReplace =>
    apply raiseWatermark_step
    cases RefTable.find eng.refs m.orderRef with
    | none => exact MarketStep.refl fe
    | some v =>
      show MarketStep fe (if v.locate = fe.locate then _ else fe)
      split
      · exact handleRemove_step ..
      · exact MarketStep.refl fe
  | trade => exact MarketStep.refl fe
  | systemEvent => exact MarketStep.refl fe
  | unknown => exact MarketStep.refl fe

/-! ### The messages by kind -/

section Kinds

variable (fe : FillEngine) {eng : BookEngine T} {m : DecodedMessage} {v : Value}

theorem onMarketMessage_add (ht : m.type.IsAdd) :
    fe.onMarketMessage eng m = fe.raiseWatermark m.orderRef := by
  unfold onMarketMessage
  rcases ht with ht | ht
  · rw [ht]
  · rw [ht]

theorem onMarketMessage_exec (ht : m.type.IsExec)
    (hv : RefTable.find eng.refs m.orderRef = some v) :
    fe.onMarketMessage eng m = if v.locate ≠ fe.locate then fe
      else fe.handleExec m.orderRef v.side v.price (umin m.shares v.shares) m.timestamp := by
  unfold onMarketMessage
  rcases ht with ht | ht
  · simp only [ht, hv]
  · simp only [ht, hv]

theorem onMarketMessage_cancel (ht : m.type = .orderCancel)
    (hv : RefTable.find eng.refs m.orderRef = some v) :
    fe.onMarketMessage eng m = if v.locate ≠ fe.locate then fe
      else fe.handleRemove m.orderRef v.side v.price (umin m.shares v.shares) := by
  unfold onMarketMessage
  simp only [ht, hv]

theorem onMarketMessage_delete (ht : m.type = .orderDelete)
    (hv : RefTable.find eng.refs m.orderRef = some v) :
    fe.onMarketMessage eng m = if v.locate ≠ fe.locate then fe
      else fe.handleRemove m.orderRef v.side v.price v.shares := by
  unfold onMarketMessage
  simp only [ht, hv]

theorem onMarketMessage_replace (ht : m.type = .orderReplace)
    (hv : RefTable.find eng.refs m.orderRef = some v) :
    fe.onMarketMessage eng m = (if v.locate ≠ fe.locate then fe
      else fe.handleRemove m.orderRef v.side v.price v.shares).raiseWatermark m.newOrderRef := by
  unfold onMarketMessage
  simp only [ht, hv]
  congr 1
  by_cases hloc : v.locate = fe.locate
  · rw [if_pos hloc, if_neg (not_not.mpr hloc)]
  · rw [if_neg hloc, if_pos hloc]

/-- A message that names no live order does nothing, or raises the watermark. -/
theorem onMarketMessage_missing (ht : ¬m.type.IsAdd)
    (hv : RefTable.find eng.refs m.orderRef = none) :
    fe.onMarketMessage eng m = if m.type = .orderReplace then fe.raiseWatermark m.newOrderRef
      else fe := by
  unfold onMarketMessage
  unfold MsgType.IsAdd at ht
  cases hm : m.type with
  | addOrder => exact absurd (Or.inl hm) ht
  | addOrderMPID => exact absurd (Or.inr hm) ht
  | orderExecuted => simp [hv]
  | orderExecutedPrice => simp [hv]
  | orderCancel => simp [hv]
  | orderDelete => simp [hv]
  | orderReplace => simp [hv]
  | trade => simp
  | systemEvent => simp
  | unknown => simp

/-- A trade print, a system event or an unknown message concerns no resting order. -/
theorem onMarketMessage_other
    (ht : m.type = .trade ∨ m.type = .systemEvent ∨ m.type = .unknown) :
    fe.onMarketMessage eng m = fe := by
  unfold onMarketMessage
  rcases ht with ht | ht | ht
  · rw [ht]
  · rw [ht]
  · rw [ht]

end Kinds

end FillEngine

/-! ## The sweep -/

/-- What a sweep from `p` on is: the shares add up; each fill is at a crossing displayed price,
for no more than is displayed there; the prices come in the order of the walk; and a price that
was passed by was emptied. -/
structure Swept (opposite : UInt32 → UInt32) (crosses : UInt32 → Bool)
    (before : UInt32 → UInt32 → Prop) (taker : FillRec) (p remaining : UInt32)
    (fills : List FillRec) (left : UInt32) : Prop where
  total : (fills.map fun f => f.shares.toNat).sum + left.toNat = remaining.toNat
  record : ∀ f ∈ fills, f = { taker with price := f.price, shares := f.shares }
  displayed : ∀ f ∈ fills, crosses f.price = true ∧ f.shares ≠ 0 ∧ f.shares ≤ opposite f.price
  onward : ∀ f ∈ fills, f.price = p ∨ before p f.price
  ordered : fills.Pairwise fun f g => before f.price g.price
  emptied : ∀ f ∈ fills, ∀ x, (x = p ∨ before p x) → before x f.price → opposite x ≠ 0 →
    ∃ g ∈ fills, g.price = x ∧ g.shares = opposite x

theorem swept_nil {opposite : UInt32 → UInt32} {crosses : UInt32 → Bool}
    {before : UInt32 → UInt32 → Prop} {taker : FillRec} {p remaining : UInt32} :
    Swept opposite crosses before taker p remaining [] remaining :=
  ⟨by simp, by simp, by simp, by simp, List.Pairwise.nil, by simp⟩

section Walk

variable {opposite : UInt32 → UInt32} {crosses : UInt32 → Bool} {next : UInt32 → UInt32}
  {before : UInt32 → UInt32 → Prop} {taker : FillRec} {p remaining left : UInt32}
  {fills : List FillRec}

/-- There is no price 0 to walk from. -/
theorem sweep_price_zero (fuel : ℕ) :
    sweep opposite crosses next taker fuel 0 remaining = ([], remaining) := by
  cases fuel with
  | zero => rfl
  | succ fuel => exact if_pos (Or.inr (Or.inl rfl))

/-- A walk from the next price is one from this price, when nothing is displayed here. -/
theorem Swept.skip (h : Swept opposite crosses before taker (next p) remaining fills left)
    (hempty : opposite p = 0) (hon : ∀ f ∈ fills, before p f.price)
    (hcover : ∀ q, before p q → q = next p ∨ before (next p) q) :
    Swept opposite crosses before taker p remaining fills left := by
  refine ⟨h.total, h.record, h.displayed, fun f hf => Or.inr (hon f hf), h.ordered, ?_⟩
  intro f hf x hx hxf hne
  rcases hx with rfl | hpx
  · exact absurd hempty hne
  · exact h.emptied f hf x (hcover x hpx) hxf hne

/-- A walk from the next price goes on from a fill here. -/
theorem Swept.cons (hasymm : ∀ p q, before p q → ¬before q p)
    (h : Swept opposite crosses before taker (next p) (remaining - umin remaining (opposite p))
      fills left)
    (hrem : remaining ≠ 0) (hopp : opposite p ≠ 0) (hcross : crosses p = true)
    (hon : ∀ f ∈ fills, before p f.price)
    (hcover : ∀ q, before p q → q = next p ∨ before (next p) q) :
    Swept opposite crosses before taker p remaining
      ({ taker with price := p, shares := umin remaining (opposite p) } :: fills) left := by
  have hsub := UInt32.toNat_sub_of_le _ _ (umin_le_left remaining (opposite p))
  have htot := h.total
  have hr0 : remaining.toNat ≠ 0 := fun e => hrem (UInt32.toNat_inj.mp e)
  have ho0 : (opposite p).toNat ≠ 0 := fun e => hopp (UInt32.toNat_inj.mp e)
  rw [hsub, toNat_umin] at htot
  refine ⟨?_, ?_, ?_, ?_, ?_, ?_⟩
  · simp only [List.map_cons, List.sum_cons, toNat_umin]
    omega
  · intro f hf
    rcases List.mem_cons.mp hf with rfl | hf
    · rfl
    · exact h.record f hf
  · intro f hf
    rcases List.mem_cons.mp hf with rfl | hf
    · refine ⟨hcross, fun e => ?_, umin_le_right ..⟩
      have := congrArg UInt32.toNat e
      rw [toNat_umin, UInt32.toNat_zero] at this
      omega
    · exact h.displayed f hf
  · intro f hf
    rcases List.mem_cons.mp hf with rfl | hf
    · exact Or.inl rfl
    · exact Or.inr (hon f hf)
  · exact List.Pairwise.cons hon h.ordered
  · intro f hf x hx hxf hne
    rcases List.mem_cons.mp hf with rfl | hin
    · rcases hx with rfl | hpx
      · exact absurd hxf (hasymm _ _ hxf)
      · exact absurd hxf (hasymm _ _ hpx)
    · rcases hx with rfl | hpx
      · -- a later fill means that this price did not suffice
        refine ⟨_, List.mem_cons_self, rfl, UInt32.toNat_inj.mp ?_⟩
        have hfs : f.shares.toNat ≠ 0 := fun e =>
          (h.displayed f hin).2.1 (UInt32.toNat_inj.mp e)
        have := VectorLoop.le_sum_map (fun f : FillRec => f.shares.toNat) hin
        rw [toNat_umin]
        omega
      · obtain ⟨g, hg, hgx⟩ := h.emptied f hin x (hcover x hpx) hxf hne
        exact ⟨g, List.mem_cons_of_mem _ hg, hgx⟩

end Walk

/-- A sweep walks away from its first price. Induction on the fuel. -/
theorem sweep_spec {opposite : UInt32 → UInt32} {crosses : UInt32 → Bool} {next : UInt32 → UInt32}
    {before : UInt32 → UInt32 → Prop} (taker : FillRec)
    (hasymm : ∀ p q, before p q → ¬before q p)
    (htrans : ∀ p q r, before p q → before q r → before p r)
    (hnext : ∀ p, p ≠ 0 → next p ≠ 0 → before p (next p))
    (hcover : ∀ p q, p ≠ 0 → before p q → q = next p ∨ before (next p) q)
    (fuel : ℕ) (p remaining : UInt32) :
    Swept opposite crosses before taker p remaining
      (sweep opposite crosses next taker fuel p remaining).1
      (sweep opposite crosses next taker fuel p remaining).2 := by
  induction fuel generalizing p remaining with
  | zero => exact swept_nil
  | succ fuel ih =>
    -- the rest of the walk is beyond `p`, or there is none
    have hon : p ≠ 0 → ∀ rem,
        ∀ f ∈ (sweep opposite crosses next taker fuel (next p) rem).1, before p f.price := by
      intro hp rem f hf
      by_cases h0 : next p = 0
      · rw [h0, sweep_price_zero] at hf
        exact absurd hf List.not_mem_nil
      · have hstep := hnext p hp h0
        rcases (ih (next p) rem).onward f hf with heq | hbefore
        · exact heq ▸ hstep
        · exact htrans _ _ _ hstep hbefore
    unfold sweep
    by_cases hstop : remaining = 0 ∨ p = 0 ∨ crosses p = false
    · rw [if_pos hstop]
      exact swept_nil
    · rw [if_neg hstop]
      rw [not_or, not_or, Bool.not_eq_false] at hstop
      obtain ⟨hrem, hp, hcross⟩ := hstop
      by_cases hopp : opposite p = 0
      · simp only [if_pos hopp]
        exact (ih (next p) remaining).skip hopp (hon hp _) fun q => hcover p q hp
      · simp only [if_neg hopp]
        exact (ih (next p) (remaining - umin remaining (opposite p))).cons hasymm hrem hopp hcross
          (hon hp _) fun q => hcover p q hp

namespace OrderBook

theorem swept_buy (b : OrderBook) (price : UInt32) (taker : FillRec) (shares : UInt32) :
    Swept b.askSharesAt (fun p => decide (p ≤ price)) (· < ·) taker b.bestAsk shares
      (b.sweepBuy price taker shares).1 (b.sweepBuy price taker shares).2 := by
  refine sweep_spec taker (fun p q (h : p < q) => UInt32.lt_asymm h)
    (fun p q r h h' => UInt32.lt_trans h h') ?_ ?_ _ _ _
  · intro p _ hn
    have := p.toNat_lt
    have hn' : (p + 1).toNat ≠ 0 := fun e => hn (UInt32.toNat_inj.mp e)
    rw [UInt32.toNat_add, UInt32.toNat_one] at hn'
    rw [UInt32.lt_iff_toNat_lt, UInt32.toNat_add, UInt32.toNat_one]
    omega
  · intro p q _ hpq
    have := q.toNat_lt
    have hadd : (p + 1).toNat = p.toNat + 1 := by
      rw [UInt32.lt_iff_toNat_lt] at hpq
      rw [UInt32.toNat_add, UInt32.toNat_one]
      omega
    rw [← UInt32.toNat_inj, UInt32.lt_iff_toNat_lt, hadd]
    rw [UInt32.lt_iff_toNat_lt] at hpq
    omega

theorem swept_sell (b : OrderBook) (price : UInt32) (taker : FillRec) (shares : UInt32) :
    Swept b.bidSharesAt (fun p => decide (p ≥ price)) (· > ·) taker b.bestBid shares
      (b.sweepSell price taker shares).1 (b.sweepSell price taker shares).2 := by
  have hpred : ∀ p : UInt32, p ≠ 0 → (p - 1).toNat + 1 = p.toNat := by
    intro p hp
    have hne : p.toNat ≠ 0 := fun e => hp (UInt32.toNat_inj.mp e)
    have hle : (1 : UInt32) ≤ p := by
      rw [UInt32.le_iff_toNat_le, UInt32.toNat_one]
      omega
    rw [UInt32.toNat_sub_of_le _ _ hle, UInt32.toNat_one]
    omega
  refine sweep_spec taker (fun p q (h : p > q) => UInt32.lt_asymm h)
    (fun p q r h h' => UInt32.lt_trans h' h) ?_ ?_ _ _ _
  · intro p hp _
    have := hpred p hp
    show p - 1 < p
    rw [UInt32.lt_iff_toNat_lt]
    omega
  · intro p q hp (hpq : q < p)
    have := hpred p hp
    show q = p - 1 ∨ q < p - 1
    rw [← UInt32.toNat_inj, UInt32.lt_iff_toNat_lt]
    rw [UInt32.lt_iff_toNat_lt] at hpq
    omega

end OrderBook

end ItchOrderbook
