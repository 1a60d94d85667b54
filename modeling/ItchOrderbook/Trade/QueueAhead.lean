import ItchOrderbook.Book.EngineInvariant
import ItchOrderbook.Trade.FillEngineSpec

/-!
# The queue ahead of an own order

What `queue_ahead` stands for: the shares of market orders that were displayed at the level
before the order came, plus the shares of own orders there that came before it. `QueuesExact`
says that the counters are these sums. Each move of the fill engine keeps it: a fill takes the
same shares from an order and from the counters behind it, and shares that leave the market
are drained from the counters that had counted them. No subtraction saturates on the way.

The loops are in the middle of such a change: the orders before the index have seen the shares
leave, the others have not. The market's part is therefore a function of the index as well.
-/

namespace ItchOrderbook

open VectorLoop (forEach forEach_invariant sum_map_set le_sum_map sum_map_filter)
open OpenOrder (Evolves)

/-! ## Own orders ahead -/

/-- The first order came to the second one's level before it. -/
def OpenOrder.Ahead (o later : OpenOrder) : Prop :=
  o.seq < later.seq ∧ o.side = later.side ∧ o.price = later.price

instance (o later : OpenOrder) : Decidable (o.Ahead later) := by
  unfold OpenOrder.Ahead
  infer_instance

/-- The shares of own orders ahead of an order. -/
def ownAhead (orders : List OpenOrder) (o : OpenOrder) : ℕ :=
  (orders.map fun p => if p.Ahead o then p.remaining.toNat else 0).sum

namespace OpenOrder

variable {o o' p p' : OpenOrder}

theorem not_ahead_self (o : OpenOrder) : ¬o.Ahead o := fun h => UInt64.lt_irrefl _ h.1

/-- Who is ahead of whom does not change. -/
theorem Evolves.ahead_iff (h : Evolves o o') (h' : Evolves p p') : o'.Ahead p' ↔ o.Ahead p := by
  unfold Ahead
  rw [h.seq, h.side, h.price, h'.seq, h'.side, h'.price]

/-- `reduce_later` drains the orders the given one is ahead of. -/
theorem reduceBehind_eq (o : OpenOrder) (amount : UInt32) (later : OpenOrder) :
    o.reduceBehind amount later = if o.Ahead later then later.drainQueue amount else later := by
  unfold reduceBehind
  by_cases hskip : later.seq ≤ o.seq ∨ later.side ≠ o.side ∨ later.price ≠ o.price
  · have hnot : ¬o.Ahead later := fun ⟨hseq, hside, hprice⟩ => by
      rcases hskip with h | h | h
      · exact UInt64.not_le.mpr hseq h
      · exact h hside.symm
      · exact h hprice.symm
    rw [if_pos hskip, if_neg hnot]
  · rw [if_neg hskip]
    rw [not_or, not_or, not_not, not_not, UInt64.not_le] at hskip
    rw [if_pos ⟨hskip.1, hskip.2.1.symm, hskip.2.2.symm⟩]

/-- While the shares are all in the counter, it loses exactly them. -/
theorem toNat_queueAhead_reduceBehind (o : OpenOrder) (amount : UInt32) (later : OpenOrder)
    (h : o.Ahead later → amount.toNat ≤ later.queueAhead.toNat) :
    (o.reduceBehind amount later).queueAhead.toNat
      + (if o.Ahead later then amount.toNat else 0) = later.queueAhead.toNat := by
  rw [reduceBehind_eq]
  split
  · rename_i hahead
    have := h hahead
    rw [toNat_queueAhead_drainQueue]
    omega
  · rfl

end OpenOrder

section OwnAhead

variable {orders : List OpenOrder} {o o' p : OpenOrder}

theorem OpenOrder.Evolves.ownAhead_eq (h : Evolves o o') : ownAhead orders o' = ownAhead orders o := by
  unfold ownAhead
  congr 2
  funext p
  simp only [(OpenOrder.Evolves.refl p).ahead_iff h]

@[simp] theorem ownAhead_append (orders' : List OpenOrder) (o : OpenOrder) :
    ownAhead (orders ++ orders') o = ownAhead orders o + ownAhead orders' o := by
  simp [ownAhead]

theorem ownAhead_cons (p : OpenOrder) (orders : List OpenOrder) (o : OpenOrder) :
    ownAhead (p :: orders) o = (if p.Ahead o then p.remaining.toNat else 0) + ownAhead orders o := by
  simp [ownAhead]

/-- Nothing is ahead by more or less where the orders keep their shares. -/
theorem ownAhead_map {f : OpenOrder → OpenOrder} (hev : ∀ p, Evolves p (f p))
    (hrem : ∀ p, (f p).remaining = p.remaining) (orders : List OpenOrder) (o : OpenOrder) :
    ownAhead (orders.map f) o = ownAhead orders o := by
  unfold ownAhead
  rw [List.map_map]
  congr 2
  funext p
  simp only [Function.comp_apply, (hev p).ahead_iff (Evolves.refl o), hrem p]

@[simp] theorem ownAhead_reduceLater (orders : List OpenOrder) (o : OpenOrder) (amount : UInt32)
    (p : OpenOrder) : ownAhead (reduceLater orders o amount) p = ownAhead orders p :=
  ownAhead_map (OpenOrder.evolves_reduceBehind o amount)
    (OpenOrder.remaining_reduceBehind o amount) orders p

/-- Shares taken from one order are missing ahead of those behind it. -/
theorem ownAhead_set_take {i : ℕ} {amount : UInt32} (h : orders[i]? = some o)
    (hle : amount ≤ o.remaining) (p : OpenOrder) :
    ownAhead (orders.set i { o with remaining := o.remaining - amount }) p
      + (if o.Ahead p then amount.toNat else 0) = ownAhead orders p := by
  have hset := sum_map_set (fun p' : OpenOrder => if p'.Ahead p then p'.remaining.toNat else 0)
    { o with remaining := o.remaining - amount } h
  have hsame : ({ o with remaining := o.remaining - amount } : OpenOrder).Ahead p ↔ o.Ahead p :=
    Iff.rfl
  have hsub := UInt32.toNat_sub_of_le _ _ hle
  have hle := UInt32.le_iff_toNat_le.mp hle
  unfold ownAhead
  simp only [hsame] at hset
  split
  · rename_i ha
    simp only [ha, if_true] at hset
    omega
  · rename_i ha
    simp only [ha, if_false] at hset
    omega

/-- An order ahead counts with all its shares. -/
theorem remaining_le_ownAhead (h : o ∈ orders) (ha : o.Ahead p) :
    o.remaining.toNat ≤ ownAhead orders p := by
  have := le_sum_map (fun p' : OpenOrder => if p'.Ahead p then p'.remaining.toNat else 0) h
  simp only [ha, if_true] at this
  exact this

end OwnAhead

/-! ## Exact queues -/

/-- Every order with shares left has in its counter the market's shares ahead of it and those of
the own orders ahead of it. -/
def QueuesExact (ahead : ℕ → OpenOrder → ℕ) (orders : List OpenOrder) : Prop :=
  ∀ i o, orders[i]? = some o → o.remaining ≠ 0 →
    o.queueAhead.toNat = ahead i o + ownAhead orders o

/-- The market's part depends on nothing that trading changes. -/
def Stable (ahead : ℕ → OpenOrder → ℕ) : Prop :=
  ∀ i o o', Evolves o o' → ahead i o' = ahead i o

/-- An order has no more shares than before, so it had some if it has some. -/
theorem OpenOrder.Evolves.remaining_ne_zero {o o' : OpenOrder} (h : Evolves o o') (hne : o'.remaining ≠ 0) :
    o.remaining ≠ 0 := fun e => by
  have := h.remaining
  rw [e, UInt32.le_zero_iff] at this
  exact hne this

namespace QueuesExact

variable {ahead : ℕ → OpenOrder → ℕ} {orders : List OpenOrder} {i : ℕ} {o : OpenOrder}

/-- **A fill.** The order loses shares, and so do the counters behind it. -/
theorem fill (h : QueuesExact ahead orders) (hstable : Stable ahead)
    (ho : orders[i]? = some o) {amount : UInt32} (hle : amount ≤ o.remaining) :
    QueuesExact ahead (reduceLater (orders.set i { o with remaining := o.remaining - amount })
      { o with remaining := o.remaining - amount } amount) := by
  intro j p' hp' hrem
  rw [reduceLater, List.getElem?_map] at hp'
  obtain ⟨p, hp, rfl⟩ := Option.map_eq_some_iff.mp hp'
  rw [OpenOrder.remaining_reduceBehind] at hrem
  have hev := OpenOrder.evolves_reduceBehind { o with remaining := o.remaining - amount } amount p
  rw [ownAhead_reduceLater, hstable j _ _ hev, hev.ownAhead_eq]
  have hahead : ({ o with remaining := o.remaining - amount } : OpenOrder).Ahead p ↔ o.Ahead p :=
    Iff.rfl
  have hown := ownAhead_set_take ho hle p
  have hmem : o ∈ orders := List.mem_of_getElem? ho
  have hamount := UInt32.le_iff_toNat_le.mp hle
  -- the counter before, of the order itself or of another one
  have hqueue : p.queueAhead.toNat = ahead j p + ownAhead orders p := by
    by_cases hij : i = j
    · subst hij
      have hlt : i < orders.length := (List.getElem?_eq_some_iff.mp ho).1
      rw [List.getElem?_set_self hlt, Option.some_inj] at hp
      subst hp
      have htake := OpenOrder.evolves_take hle
      rw [hstable i _ _ htake, htake.ownAhead_eq]
      exact h i o ho (htake.remaining_ne_zero hrem)
    · rw [List.getElem?_set_ne hij] at hp
      exact h j p hp hrem
  have hbehind := OpenOrder.toNat_queueAhead_reduceBehind
    { o with remaining := o.remaining - amount } amount p fun ha => by
      have := remaining_le_ownAhead hmem (hahead.mp ha)
      omega
  simp only [hahead] at hbehind
  omega

/-- **Shares leave the market** ahead of one order. -/
theorem drain (h : QueuesExact ahead orders) (ho : orders[i]? = some o) {q : UInt32}
    {ahead' : ℕ → OpenOrder → ℕ} (hstable : Stable ahead')
    (hother : ∀ j p, j ≠ i → ahead' j p = ahead j p)
    (hself : ahead' i o + q.toNat = ahead i o) :
    QueuesExact ahead' (orders.set i (o.drainQueue q)) := by
  have hown : ∀ p, ownAhead (orders.set i (o.drainQueue q)) p = ownAhead orders p := by
    intro p
    have hset := sum_map_set
      (fun p' : OpenOrder => if p'.Ahead p then p'.remaining.toNat else 0) (o.drainQueue q) ho
    exact Nat.add_right_cancel hset
  have hev := OpenOrder.evolves_drainQueue o q
  intro j p hp hrem
  rw [hown]
  by_cases hij : i = j
  · subst hij
    have hlt : i < orders.length := (List.getElem?_eq_some_iff.mp ho).1
    rw [List.getElem?_set_self hlt, Option.some_inj] at hp
    subst hp
    have hqueue := h i o ho hrem
    rw [hstable i _ _ hev, hev.ownAhead_eq, OpenOrder.toNat_queueAhead_drainQueue]
    omega
  · rw [List.getElem?_set_ne hij] at hp
    rw [hother j p (Ne.symm hij)]
    exact h j p hp hrem

/-- Only the parts at the indices of orders with shares left matter. -/
theorem congr {ahead' : ℕ → OpenOrder → ℕ} (h : QueuesExact ahead orders)
    (heq : ∀ i o, orders[i]? = some o → o.remaining ≠ 0 → ahead' i o = ahead i o) :
    QueuesExact ahead' orders := fun i o ho hrem => by
  rw [heq i o ho hrem]
  exact h i o ho hrem

variable {market : OpenOrder → ℕ}

/-- Forgetting the filled orders. -/
theorem eraseFilled (h : QueuesExact (fun _ => market) orders) :
    QueuesExact (fun _ => market) (FillEngine.eraseFilled orders) := by
  intro i o ho hrem
  obtain ⟨hmem, -⟩ := List.mem_filter.mp (List.mem_of_getElem? ho)
  obtain ⟨j, hj⟩ := List.mem_iff_getElem?.mp hmem
  have hown : ownAhead (FillEngine.eraseFilled orders) o = ownAhead orders o := by
    refine sum_map_filter _ _ fun p _ hp => ?_
    have hzero : p.remaining = 0 := by simpa using hp
    rw [hzero, UInt32.toNat_zero, ite_self]
  rw [hown]
  exact h j o hj hrem

/-- **A cancel.** The order leaves with its shares, and the counters behind it lose them. -/
theorem cancel {before behind : List OpenOrder}
    (h : QueuesExact (fun _ => market) (before ++ o :: behind))
    (hstable : ∀ o o', Evolves o o' → market o' = market o) :
    QueuesExact (fun _ => market) (reduceLater (before ++ behind) o o.remaining) := by
  intro i p' hp' hrem
  rw [reduceLater, List.getElem?_map] at hp'
  obtain ⟨p, hp, rfl⟩ := Option.map_eq_some_iff.mp hp'
  rw [OpenOrder.remaining_reduceBehind] at hrem
  have hev := OpenOrder.evolves_reduceBehind o o.remaining p
  show _ = market _ + _
  rw [ownAhead_reduceLater, hstable _ _ hev, hev.ownAhead_eq, ownAhead_append]
  have hmem : p ∈ before ++ o :: behind := by
    rcases List.mem_append.mp (List.mem_of_getElem? hp) with hb | hb
    · exact List.mem_append_left _ hb
    · exact List.mem_append_right _ (List.mem_cons_of_mem _ hb)
  obtain ⟨j, hj⟩ := List.mem_iff_getElem?.mp hmem
  have hqueue : p.queueAhead.toNat = market p + _ := h j p hj hrem
  rw [ownAhead_append, ownAhead_cons] at hqueue
  have hbehind := o.toNat_queueAhead_reduceBehind o.remaining p fun ha => by
    rw [if_pos ha] at hqueue
    omega
  omega

/-- **A new order** that counted what is ahead of it. -/
theorem submit {new : OpenOrder} (h : QueuesExact (fun _ => market) orders)
    (hlast : ∀ p ∈ orders, p.seq < new.seq)
    (hnew : new.queueAhead.toNat = market new + ownAhead orders new) :
    QueuesExact (fun _ => market) (orders ++ [new]) := by
  intro i o ho hrem
  have hnot : ∀ p, ownAhead [new] p = if new.Ahead p then new.remaining.toNat else 0 := fun p => by
    rw [ownAhead_cons]
    rfl
  rw [ownAhead_append, hnot]
  rcases List.mem_append.mp (List.mem_of_getElem? ho) with hold | hlast'
  · have hbefore : ¬new.Ahead o := fun ha => UInt64.lt_asymm ha.1 (hlast o hold)
    obtain ⟨j, hj⟩ := List.mem_iff_getElem?.mp hold
    rw [if_neg hbefore, Nat.add_zero]
    exact h j o hj hrem
  · rw [List.mem_singleton.mp hlast', if_neg new.not_ahead_self, Nat.add_zero]
    exact hnew

end QueuesExact

/-! ## Shares leaving the market -/

/-- `q` shares of the market order `r` leave its level: they were ahead of the orders there whose
watermark covers `r`. -/
def Leaves (market market' : OpenOrder → ℕ) (r : UInt64) (side : UInt8) (price q : UInt32) :
    Prop :=
  ∀ o, market o = market' o
    + if o.side = side ∧ o.price = price ∧ r ≤ o.watermark then q.toNat else 0

/-- What an execution may fill: an order at a better price than the executed one, or at its level
and from before the executed order. -/
def OpenOrder.MayFill (o : OpenOrder) (r : UInt64) (side : UInt8) (price : UInt32) : Prop :=
  o.side = side ∧ (superior side o.price price = true ∨ o.price = price ∧ o.watermark < r)

theorem OpenOrder.Evolves.mayFill_iff {o o' : OpenOrder} (h : Evolves o o') (r : UInt64)
    (side : UInt8) (price : UInt32) : o'.MayFill r side price ↔ o.MayFill r side price := by
  unfold OpenOrder.MayFill
  rw [h.side, h.price, h.watermark]

/-- The record that a fill writes, if any. -/
theorem fill_snd (fills : List FillRec) (o : OpenOrder) (shares : UInt32) (ts : UInt64) :
    (fill fills o shares o.price true ts).2
      = fills ++ if shares = 0 then [] else [⟨ts, o.ref, o.side, o.price, shares, true⟩] := by
  unfold fill
  split
  · exact (List.append_nil fills).symm
  · rfl

theorem ExecState.fills_fillFromBudget (st : ExecState) (i : ℕ) (o : OpenOrder) (ts : UInt64) :
    (st.fillFromBudget i o ts).fills
      = st.fills ++ if umin st.budget o.remaining = 0 then []
        else [⟨ts, o.ref, o.side, o.price, umin st.budget o.remaining, true⟩] :=
  fill_snd st.fills o (umin st.budget o.remaining) ts

/-- What holds inside the loops of an execution. -/
structure ExactExec (orders : List OpenOrder) (fills : List FillRec) (r : UInt64) (side : UInt8)
    (price : UInt32) (ahead : ℕ → OpenOrder → ℕ) (st : ExecState) : Prop where
  evolves : List.Forall₂ Evolves orders st.orders
  exact : QueuesExact ahead st.orders
  fills : ∃ new, st.fills = fills ++ new
    ∧ ∀ f ∈ new, ∃ o ∈ orders, f.ourRef = o.ref ∧ o.MayFill r side price

section Loops

variable {orders : List OpenOrder} {fills : List FillRec} {r : UInt64} {side : UInt8}
  {price : UInt32} {ahead : ℕ → OpenOrder → ℕ} {st : ExecState} {i : ℕ} {o : OpenOrder}

theorem ExactExec.fillFromBudget (h : ExactExec orders fills r side price ahead st)
    (hstable : Stable ahead) (ho : st.orders[i]? = some o) (hmay : o.MayFill r side price)
    (ts : UInt64) : ExactExec orders fills r side price ahead (st.fillFromBudget i o ts) where
  evolves := forall₂_evolves_trans h.evolves (ExecState.trades_fillFromBudget ts ho).evolves
  exact := by
    have hfill := h.exact.fill hstable ho (umin_le_right st.budget o.remaining)
    unfold ExecState.fillFromBudget
    show QueuesExact ahead (ite _ _ _)
    rw [fill_fst]
    split
    · exact hfill
    · -- nothing of the budget is left: the order is written back as it was
      rename_i hnone
      rw [not_not] at hnone
      have hset : st.orders.set i { o with remaining := o.remaining - 0 } = st.orders := by
        rw [UInt32.sub_zero]
        obtain ⟨hlt, rfl⟩ := List.getElem?_eq_some_iff.mp ho
        exact List.set_getElem_self hlt
      rw [hnone, hset]
      exact h.exact
  fills := by
    obtain ⟨new, heq, hnew⟩ := h.fills
    obtain ⟨o₀, ho₀, hev⟩ := forall₂_evolves_mem h.evolves (List.mem_of_getElem? ho)
    refine ⟨_, by rw [ExecState.fills_fillFromBudget, heq, List.append_assoc], fun f hf => ?_⟩
    · rcases List.mem_append.mp hf with hf | hf
      · exact hnew f hf
      · split at hf
        · cases hf
        · rw [List.mem_singleton.mp hf]
          exact ⟨o₀, ho₀, hev.ref, (hev.mayFill_iff r side price).mp hmay⟩

/-- Shares that are all in the queue leave nothing to fill the order with. -/
theorem ExecState.drainAhead_of_le (st : ExecState) (i : ℕ) {o : OpenOrder} {q : UInt32}
    (ts : UInt64) (h : q.toNat ≤ o.queueAhead.toNat) :
    st.drainAhead i o q ts = { st with orders := st.orders.set i (o.drainQueue q) } := by
  have hleft : q - (o.taken q).toUInt32 = 0 := UInt32.toNat_inj.mp (by
    rw [OpenOrder.toNat_leftover, UInt32.toNat_zero]
    omega)
  have hnone : umin (q - (o.taken q).toUInt32) (o.drainQueue q).remaining = 0 :=
    UInt32.toNat_inj.mp (by
      rw [toNat_umin, hleft, UInt32.toNat_zero, Nat.zero_min])
  unfold ExecState.drainAhead fill
  simp only [hnone, if_true]

/-- Before the index the shares have left, from it on they have not. -/
def midway (market market' : OpenOrder → ℕ) (k : ℕ) : ℕ → OpenOrder → ℕ :=
  fun i => if i < k then market' else market

theorem stable_midway {market market' : OpenOrder → ℕ}
    (h : ∀ o o', Evolves o o' → market o' = market o)
    (h' : ∀ o o', Evolves o o' → market' o' = market' o) (k : ℕ) :
    Stable (midway market market' k) := by
  intro i o o' hev
  unfold midway
  split
  · exact h' o o' hev
  · exact h o o' hev

/-- An order the shares were not ahead of is passed by. -/
theorem QueuesExact.midway_succ {market market' : OpenOrder → ℕ} {q : UInt32} {k : ℕ}
    (h : QueuesExact (midway market market' k) orders)
    (hleaves : Leaves market market' r side price q)
    (hpass : ∀ o, orders[k]? = some o → o.remaining ≠ 0 →
      ¬(o.side = side ∧ o.price = price ∧ r ≤ o.watermark)) :
    QueuesExact (midway market market' (k + 1)) orders := by
  refine h.congr fun i o ho hrem => ?_
  unfold midway
  rcases Nat.lt_trichotomy i k with hlt | heq | hgt
  · rw [if_pos hlt, if_pos (by omega)]
  · subst heq
    have := hleaves o
    rw [if_neg (hpass o ho hrem)] at this
    rw [if_pos (Nat.lt_succ_self i), if_neg (Nat.lt_irrefl i), this, Nat.add_zero]
  · rw [if_neg (by omega), if_neg (by omega)]

theorem ExactExec.priceThrough (hstable : Stable ahead) (ts : UInt64) (n : ℕ)
    (h : ExactExec orders fills r side price ahead st) :
    ExactExec orders fills r side price ahead (forEach n (priceThroughAt side price ts) st) := by
  refine forEach_invariant (fun _ => ExactExec orders fills r side price ahead) h
    fun i _ t ht => ?_
  rcases priceThroughAt_cases side price ts t i with ⟨heq, -⟩ | ⟨o, ho, hside, -, hsup, heq⟩
  · rw [heq]
    exact ht
  · rw [heq]
    exact ht.fillFromBudget hstable ho ⟨hside, Or.inl hsup⟩ ts

/-- The loop at the executed level: the orders up to the index have seen the shares leave. -/
theorem ExactExec.atLevel {market market' : OpenOrder → ℕ} {q : UInt32}
    (hstable : ∀ o o', Evolves o o' → market o' = market o)
    (hstable' : ∀ o o', Evolves o o' → market' o' = market' o)
    (hleaves : Leaves market market' r side price q) (ts : UInt64) (n : ℕ)
    (h : ExactExec orders fills r side price (fun _ => market) st) :
    ExactExec orders fills r side price (midway market market' n)
      (forEach n (atLevelAt r side price q ts) st) := by
  refine forEach_invariant
    (fun k => ExactExec orders fills r side price (midway market market' k)) h fun k _ t ht => ?_
  have hnext := stable_midway hstable hstable' (k + 1)
  rcases atLevelAt_cases r side price q ts t k with
    ⟨heq, hskip⟩ | ⟨o, ho, hside, hprice, hrem, ⟨hle, heq⟩ | ⟨hlt, heq⟩⟩
  · rw [heq]
    exact ⟨ht.evolves, ht.exact.midway_succ hleaves fun o ho hrem ⟨hs, hp, _⟩ =>
      hskip o ho ⟨hs, hp, hrem⟩, ht.fills⟩
  · -- the shares were ahead of this order, so its queue holds them all
    have hself : midway market market' (k + 1) k o + q.toNat = midway market market' k k o := by
      have := hleaves o
      rw [if_pos ⟨hside, hprice, hle⟩] at this
      unfold midway
      rw [if_pos (by omega), if_neg (by omega), this]
    have hqueue := ht.exact k o ho hrem
    rw [heq, t.drainAhead_of_le k ts (by omega)]
    refine ⟨forall₂_evolves_trans ht.evolves
      (forall₂_evolves_set ho (OpenOrder.evolves_drainQueue o q)),
      ht.exact.drain ho hnext (fun j p hne => ?_) hself, ht.fills⟩
    unfold midway
    rcases Nat.lt_or_ge j k with hlt | hge
    · rw [if_pos hlt, if_pos (by omega)]
    · rw [if_neg (by omega), if_neg (by omega)]
  · rw [heq]
    have hpass : QueuesExact (midway market market' (k + 1)) t.orders := by
      refine ht.exact.midway_succ hleaves fun o' ho' _ ⟨_, _, hle⟩ => ?_
      rw [ho, Option.some_inj] at ho'
      exact UInt64.not_le.mpr hlt (ho' ▸ hle)
    exact (ExactExec.mk ht.evolves hpass ht.fills).fillFromBudget hnext ho
      ⟨hside, Or.inr ⟨hprice, hlt⟩⟩ ts

end Loops

namespace FillEngine

variable {fe : FillEngine} {market market' : OpenOrder → ℕ} {r : UInt64} {side : UInt8}
  {price q : UInt32}

/-- **An execution** of shares that leave the market keeps the queues exact, and fills no order
it was ahead of. -/
theorem handleExec_exact (h : QueuesExact (fun _ => market) fe.openOrders)
    (hstable : ∀ o o', Evolves o o' → market o' = market o)
    (hstable' : ∀ o o', Evolves o o' → market' o' = market' o)
    (hleaves : Leaves market market' r side price q) (ts : UInt64) :
    QueuesExact (fun _ => market') (fe.handleExec r side price q ts).openOrders
      ∧ ∃ new, (fe.handleExec r side price q ts).fills = fe.fills ++ new
        ∧ ∀ f ∈ new, ∃ o ∈ fe.openOrders, f.ourRef = o.ref ∧ o.MayFill r side price := by
  have hstart : ExactExec fe.openOrders fe.fills r side price (fun _ => market)
      ⟨fe.openOrders, q, fe.fills⟩ :=
    ⟨List.forall₂_same.mpr fun o _ => Evolves.refl o, h, [], (List.append_nil _).symm,
      fun _ hf => absurd hf List.not_mem_nil⟩
  have hfirst := hstart.priceThrough (fun _ => hstable) ts fe.openOrders.length
  have hsecond : ExactExec fe.openOrders fe.fills r side price
      (midway market market' fe.openOrders.length)
      (forEach fe.openOrders.length (atLevelAt r side price q ts)
        { forEach fe.openOrders.length (priceThroughAt side price ts)
            ⟨fe.openOrders, q, fe.fills⟩ with budget := q }) :=
    ExactExec.atLevel hstable hstable' hleaves ts fe.openOrders.length
      ⟨hfirst.evolves, hfirst.exact, hfirst.fills⟩
  refine ⟨QueuesExact.eraseFilled (hsecond.exact.congr fun i o ho _ => ?_), hsecond.fills⟩
  have hlt := (List.getElem?_eq_some_iff.mp ho).1
  rw [← hsecond.evolves.length_eq] at hlt
  exact (congrFun (if_pos hlt) o).symm

/-- **A cancel or a delete** of shares that leave the market keeps the queues exact. -/
theorem handleRemove_exact (h : QueuesExact (fun _ => market) fe.openOrders)
    (hstable' : ∀ o o', Evolves o o' → market' o' = market' o)
    (hleaves : Leaves market market' r side price q) :
    QueuesExact (fun _ => market') (fe.handleRemove r side price q).openOrders := by
  intro i o' ho' hrem'
  obtain ⟨o, ho, rfl⟩ := Option.map_eq_some_iff.mp (List.getElem?_map .. ▸ ho')
  have hqueue : o.queueAhead.toNat = market o + ownAhead fe.openOrders o := by
    refine h i o ho ?_
    split at hrem'
    · exact hrem'
    · split at hrem' <;> exact hrem'
  have hdrain := OpenOrder.evolves_drainQueue o q
  have hmarket := hleaves o
  show _ = market' _ + _
  rw [handleRemove, ownAhead_map]
  · split
    · rename_i hskip
      rw [if_neg fun hc => ?_] at hmarket
      · omega
      · rcases hskip with hs | hp
        · exact hs hc.1
        · exact hp hc.2.1
    · rename_i hskip
      rw [not_or, not_not, not_not] at hskip
      split
      · rename_i hle
        rw [if_pos ⟨hskip.1, hskip.2, hle⟩] at hmarket
        rw [hstable' _ _ hdrain, hdrain.ownAhead_eq, OpenOrder.toNat_queueAhead_drainQueue]
        omega
      · rename_i hgt
        rw [if_neg fun hc => hgt hc.2.2] at hmarket
        omega
  · intro p
    split
    · exact Evolves.refl p
    · split
      · exact OpenOrder.evolves_drainQueue p q
      · exact Evolves.refl p
  · intro p
    split
    · rfl
    · split <;> rfl

end FillEngine

end ItchOrderbook
