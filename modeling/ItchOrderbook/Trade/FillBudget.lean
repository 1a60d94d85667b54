import ItchOrderbook.Trade.QueueExact

/-!
# What one execution can fill

Each of the two loops of `handle_exec` shares out the executed quantity, first come first served:
one among the own orders at a better price, one among those at the executed level that came
before the executed order. `Spread` is the invariant of such a loop: what the orders of the
group lost is what the budget lost, and while something is left of the budget, nothing is left
of the orders passed. The budgets are separate, so one execution can fill twice its quantity
(`exec_fills_twice`), and on an accepted stream never more (`run_exec_fills`).
-/

namespace ItchOrderbook

open VectorLoop (forEach forEach_invariant sum_map_set sum_map_of_nodup sum_map_add_sum_map)
open OpenOrder (Evolves)

/-! ## Groups of own orders -/

namespace OpenOrder

/-- At a better price than the executed one. -/
def Superior (o : OpenOrder) (side : UInt8) (price : UInt32) : Prop :=
  o.side = side ∧ superior side o.price price = true

/-- At the executed level, before the executed order. -/
def TradedThrough (o : OpenOrder) (r : UInt64) (side : UInt8) (price : UInt32) : Prop :=
  o.side = side ∧ o.price = price ∧ o.watermark < r

/-- At the executed level, behind the executed order. -/
def Behind (o : OpenOrder) (r : UInt64) (side : UInt8) (price : UInt32) : Prop :=
  o.side = side ∧ o.price = price ∧ r ≤ o.watermark

variable (o : OpenOrder) (r : UInt64) (side : UInt8) (price : UInt32)

instance : Decidable (o.Superior side price) := by
  unfold Superior
  infer_instance

instance : Decidable (o.TradedThrough r side price) := by
  unfold TradedThrough
  infer_instance

/-- No price is better than itself. -/
theorem not_superior_self (side : UInt8) (price : UInt32) : superior side price price = false := by
  unfold superior
  split
  · exact decide_eq_false (UInt32.lt_irrefl price)
  · exact decide_eq_false (UInt32.lt_irrefl price)

variable {o r side price}

theorem Superior.price_ne (h : o.Superior side price) : o.price ≠ price := fun e => by
  have hsup := h.2
  rw [e, not_superior_self] at hsup
  exact Bool.false_ne_true hsup

end OpenOrder

/-- A group of orders that is told by what trading does not change. -/
def Lasting (p : OpenOrder → Prop) : Prop := ∀ o o', Evolves o o' → (p o' ↔ p o)

theorem lasting_superior (side : UInt8) (price : UInt32) :
    Lasting fun o => o.Superior side price := fun o o' h => by
  show o'.side = side ∧ superior side o'.price price = true ↔ o.Superior side price
  rw [h.side, h.price]
  exact Iff.rfl

theorem lasting_tradedThrough (r : UInt64) (side : UInt8) (price : UInt32) :
    Lasting fun o => o.TradedThrough r side price := fun o o' h => by
  show o'.side = side ∧ o'.price = price ∧ o'.watermark < r ↔ o.TradedThrough r side price
  rw [h.side, h.price, h.watermark]
  exact Iff.rfl

/-- The shares left of a group of orders. -/
def groupShares (p : OpenOrder → Prop) [DecidablePred p] (orders : List OpenOrder) : ℕ :=
  (orders.map fun o => if p o then o.remaining.toNat else 0).sum

/-- The shares filled of a group of orders. -/
def groupFilled (p : OpenOrder → Prop) [DecidablePred p] (orders : List OpenOrder)
    (fills : List FillRec) : ℕ :=
  (orders.map fun o => if p o then filledShares fills o.ref else 0).sum

section Groups

variable {p : OpenOrder → Prop} [DecidablePred p] {orders : List OpenOrder} {i : ℕ}
  {o o' : OpenOrder}

theorem groupShares_set (h : orders[i]? = some o) (hev : Evolves o o') (hp : Lasting p) :
    groupShares p (orders.set i o') + (if p o then o.remaining.toNat else 0)
      = groupShares p orders + (if p o then o'.remaining.toNat else 0) := by
  have hset := sum_map_set (fun o : OpenOrder => if p o then o.remaining.toNat else 0) o' h
  simp only [hp o o' hev] at hset
  exact hset

theorem groupShares_reduceLater (hp : Lasting p) (orders : List OpenOrder) (o : OpenOrder)
    (amount : UInt32) : groupShares p (reduceLater orders o amount) = groupShares p orders := by
  unfold groupShares reduceLater
  rw [List.map_map]
  congr 2
  funext later
  simp only [Function.comp_apply, OpenOrder.remaining_reduceBehind,
    hp _ _ (OpenOrder.evolves_reduceBehind o amount later)]

/-- A group none of whose orders lost shares. -/
theorem groupShares_congr {orders' : List OpenOrder} (hlen : orders'.length = orders.length)
    (h : ∀ (i : ℕ) o o', orders[i]? = some o → orders'[i]? = some o' →
      (p o' ↔ p o) ∧ (p o → o'.remaining = o.remaining)) :
    groupShares p orders' = groupShares p orders := by
  have hsum := sum_map_add_sum_map (f := fun _ : OpenOrder => 0)
    (g := fun o : OpenOrder => if p o then o.remaining.toNat else 0)
    (k := fun o : OpenOrder => if p o then o.remaining.toNat else 0) hlen
    fun i o o' ho ho' => by
      obtain ⟨hiff, hrem⟩ := h i o o' ho ho'
      simp only [hiff, Nat.zero_add]
      split
      · rw [hrem ‹_›]
      · rfl
  rw [groupShares, groupShares, ← hsum]
  simp

/-- Nothing is left of a group whose orders have nothing left. -/
theorem groupShares_eq_zero (h : ∀ o ∈ orders, p o → o.remaining = 0) :
    groupShares p orders = 0 := by
  refine List.sum_eq_zero fun n hn => ?_
  obtain ⟨o, ho, rfl⟩ := List.mem_map.mp hn
  split
  · rw [h o ho ‹_›]
    rfl
  · rfl

end Groups

/-! ## The two moves, order by order -/

/-- Where an order comes from. -/
theorem forall₂_evolves_getElem? {orders orders' : List OpenOrder}
    (h : List.Forall₂ Evolves orders orders') {i : ℕ} {o' : OpenOrder}
    (ho' : orders'[i]? = some o') : ∃ o, orders[i]? = some o ∧ Evolves o o' := by
  induction h generalizing i with
  | nil => simp at ho'
  | cons hab _ ih =>
    cases i with
    | zero =>
      rw [List.getElem?_cons_zero, Option.some_inj] at ho'
      exact ⟨_, List.getElem?_cons_zero, ho' ▸ hab⟩
    | succ i => exact ih ho'

/-- Every order after comes from the one before at its index, in a way that may depend on it. -/
structure Came (R : ℕ → OpenOrder → OpenOrder → Prop) (orders orders' : List OpenOrder) :
    Prop where
  length : orders'.length = orders.length
  order : ∀ i o', orders'[i]? = some o' → ∃ o, orders[i]? = some o ∧ Evolves o o' ∧ R i o o'

theorem Came.refl {R : ℕ → OpenOrder → OpenOrder → Prop} (h : ∀ i o, R i o o)
    (orders : List OpenOrder) : Came R orders orders :=
  ⟨rfl, fun i o ho => ⟨o, ho, Evolves.refl o, h i o⟩⟩

theorem Came.trans {R S T : ℕ → OpenOrder → OpenOrder → Prop}
    {orders orders' orders'' : List OpenOrder} (h : Came R orders orders')
    (h' : Came S orders' orders'')
    (hcomp : ∀ i o o' o'', orders'[i]? = some o' → Evolves o o' → R i o o' → S i o' o'' →
      T i o o'') : Came T orders orders'' where
  length := h'.length.trans h.length
  order i o'' ho'' := by
    obtain ⟨o', ho', hev', hs⟩ := h'.order i o'' ho''
    obtain ⟨o, ho, hev, hr⟩ := h.order i o' ho'
    exact ⟨o, ho, hev.trans hev', hcomp i o o' o'' ho' hev hr hs⟩

theorem Came.groupShares {R : ℕ → OpenOrder → OpenOrder → Prop} {orders orders' : List OpenOrder}
    (h : Came R orders orders') {p : OpenOrder → Prop} [DecidablePred p] (hp : Lasting p)
    (hrem : ∀ i o o', R i o o' → p o → o'.remaining = o.remaining) :
    groupShares p orders' = groupShares p orders := by
  refine groupShares_congr h.length fun i o o' ho ho' => ?_
  obtain ⟨o₀, ho₀, hev, hr⟩ := h.order i o' ho'
  rw [ho, Option.some_inj] at ho₀
  subst ho₀
  exact ⟨hp o o' hev, hrem i o o' hr⟩

namespace ExecState

variable {st : ExecState} {i : ℕ} {o : OpenOrder}

/-- A fill from the budget takes from the order at the index, and from no other. -/
theorem came_fillFromBudget (ts : UInt64) (h : st.orders[i]? = some o) :
    Came (fun j o₀ o' => o'.remaining = if i = j then o.remaining - umin st.budget o.remaining
      else o₀.remaining) st.orders (st.fillFromBudget i o ts).orders := by
  have hevolves := (trades_fillFromBudget ts h).evolves
  refine ⟨hevolves.length_eq.symm, fun j o' ho' => ?_⟩
  obtain ⟨o₀, ho₀, hev⟩ := forall₂_evolves_getElem? hevolves ho'
  refine ⟨o₀, ho₀, hev, ?_⟩
  have hset : ∀ p, (st.orders.set i { o with
      remaining := o.remaining - umin st.budget o.remaining })[j]? = some p →
      p.remaining = if i = j then o.remaining - umin st.budget o.remaining
        else o₀.remaining := by
    intro p hp
    split
    · rename_i hij
      rw [← hij, List.getElem?_set_self (List.getElem?_eq_some_iff.mp h).1, Option.some_inj] at hp
      rw [← hp]
    · rename_i hij
      rw [List.getElem?_set_ne hij, ho₀, Option.some_inj] at hp
      rw [hp]
  unfold fillFromBudget at ho'
  change (ite _ _ _ : List OpenOrder)[j]? = some o' at ho'
  rw [fill_fst] at ho'
  split at ho'
  · rw [reduceLater, List.getElem?_map] at ho'
    obtain ⟨p, hp, rfl⟩ := Option.map_eq_some_iff.mp ho'
    rw [OpenOrder.remaining_reduceBehind]
    exact hset p hp
  · exact hset o' ho'

/-- A drain takes from the order at the index no more than the executed shares. -/
theorem came_drainAhead (q : UInt32) (ts : UInt64) (h : st.orders[i]? = some o) :
    Came (fun j o₀ o' => (i ≠ j → o'.remaining = o₀.remaining)
      ∧ o₀.remaining.toNat ≤ o'.remaining.toNat + q.toNat)
      st.orders (st.drainAhead i o q ts).orders := by
  have hevolves := (trades_drainAhead q ts h).evolves
  refine ⟨hevolves.length_eq.symm, fun j o' ho' => ?_⟩
  obtain ⟨o₀, ho₀, hev⟩ := forall₂_evolves_getElem? hevolves ho'
  refine ⟨o₀, ho₀, hev, ?_⟩
  unfold drainAhead at ho'
  change (st.orders.set i _)[j]? = some o' at ho'
  rw [fill_fst] at ho'
  by_cases hij : i = j
  · subst hij
    rw [List.getElem?_set_self (List.getElem?_eq_some_iff.mp h).1, Option.some_inj] at ho'
    rw [h, Option.some_inj] at ho₀
    refine ⟨fun hne => absurd rfl hne, ?_⟩
    rw [← ho', ← ho₀]
    show o.remaining.toNat ≤ (o.remaining - umin (q - (o.taken q).toUInt32) o.remaining).toNat + _
    rw [UInt32.toNat_sub_of_le _ _ (umin_le_right ..), toNat_umin, OpenOrder.toNat_leftover]
    omega
  · rw [List.getElem?_set_ne hij, ho₀, Option.some_inj] at ho'
    rw [ho']
    exact ⟨fun _ => rfl, Nat.le_add_right _ _⟩

end ExecState

/-! ## Sharing out a budget -/

/-- Inside a loop that shares out `q` shares among the orders of a group, before index `k`. -/
structure Spread (p : OpenOrder → Prop) [DecidablePred p] (orders : List OpenOrder) (q k : ℕ)
    (st : ExecState) : Prop where
  paid : groupShares p st.orders + q = groupShares p orders + st.budget.toNat
  spent : st.budget = 0 ∨ ∀ i < k, ∀ o, st.orders[i]? = some o → p o → o.remaining = 0

namespace Spread

variable {p : OpenOrder → Prop} [DecidablePred p] {orders : List OpenOrder} {q k : ℕ}
  {st : ExecState} {o : OpenOrder}

/-- An order without shares, or of another group, is passed by. -/
theorem pass (h : Spread p orders q k st)
    (hpass : ∀ o, st.orders[k]? = some o → p o → o.remaining = 0) :
    Spread p orders q (k + 1) st where
  paid := h.paid
  spent := by
    rcases h.spent with h0 | hspent
    · exact Or.inl h0
    · refine Or.inr fun i hi o ho hpo => ?_
      rcases Nat.lt_or_eq_of_le (Nat.lt_succ_iff.mp hi) with hlt | rfl
      · exact hspent i hlt o ho hpo
      · exact hpass o ho hpo

/-- An order of the group takes from the budget: all it wants, or all there is. -/
theorem fillFromBudget (h : Spread p orders q k st) (hp : Lasting p)
    (ho : st.orders[k]? = some o) (hpo : p o) (ts : UInt64) :
    Spread p orders q (k + 1) (st.fillFromBudget k o ts) where
  paid := by
    have hle := umin_le_right st.budget o.remaining
    have hset := groupShares_set ho (OpenOrder.evolves_take hle) hp
    have hpaid := h.paid
    have hsub := UInt32.toNat_sub_of_le _ _ hle
    have hbudget := UInt32.toNat_sub_of_le _ _ (umin_le_left st.budget o.remaining)
    have hmin := toNat_umin st.budget o.remaining
    simp only [if_pos hpo] at hset
    unfold ExecState.fillFromBudget
    show groupShares p (ite _ _ _) + q = _ + (st.budget - umin st.budget o.remaining).toNat
    rw [fill_fst, hbudget]
    split
    · rw [groupShares_reduceLater hp]
      omega
    · omega
  spent := by
    have hbudget := UInt32.toNat_sub_of_le _ _ (umin_le_left st.budget o.remaining)
    have hleft := UInt32.toNat_sub_of_le _ _ (umin_le_right st.budget o.remaining)
    rw [toNat_umin] at hbudget hleft
    by_cases h0 : (st.budget - umin st.budget o.remaining).toNat = 0
    · exact Or.inl (UInt32.toNat_inj.mp h0)
    · -- something is left of the budget, so the order got all it wanted
      have hbefore : st.budget ≠ 0 := fun e => by
        have := congrArg UInt32.toNat e
        rw [UInt32.toNat_zero] at this
        omega
      refine Or.inr fun i hi o' ho' hpo' => UInt32.toNat_inj.mp ?_
      obtain ⟨o₀, ho₀, hev, hrem⟩ := (ExecState.came_fillFromBudget ts ho).order i o' ho'
      rw [hrem, UInt32.toNat_zero]
      split
      · omega
      · have hlt : i < k := by omega
        rw [h.spent.resolve_left hbefore i hlt o₀ ho₀ ((hp o₀ o' hev).mp hpo')]
        rfl

/-- A drain of an order of another group. -/
theorem drainAhead (h : Spread p orders q k st) (hp : Lasting p) (ho : st.orders[k]? = some o)
    (hpo : ¬p o) (x : UInt32) (ts : UInt64) :
    Spread p orders q (k + 1) (st.drainAhead k o x ts) where
  paid := by
    have hev : Evolves o (fill st.fills (o.drainQueue x)
        (umin (x - (o.taken x).toUInt32) (o.drainQueue x).remaining) o.price true ts).1 := by
      rw [fill_fst]
      exact (OpenOrder.evolves_drainQueue o x).trans (OpenOrder.evolves_take (umin_le_right ..))
    have hset := groupShares_set ho hev hp
    rw [if_neg hpo, if_neg hpo, Nat.add_zero, Nat.add_zero] at hset
    exact (congrArg (· + q) hset).trans h.paid
  spent := by
    rcases h.spent with h0 | hspent
    · exact Or.inl h0
    · refine Or.inr fun i hi o' ho' hpo' => ?_
      obtain ⟨o₀, ho₀, hev, hrem, -⟩ := (ExecState.came_drainAhead x ts ho).order i o' ho'
      have hpo₀ := (hp o₀ o' hev).mp hpo'
      rcases Nat.lt_or_eq_of_le (Nat.lt_succ_iff.mp hi) with hlt | rfl
      · rw [hrem (by omega)]
        exact hspent i hlt o₀ ho₀ hpo₀
      · rw [ho, Option.some_inj] at ho₀
        exact absurd (ho₀ ▸ hpo₀) hpo

/-- After the loop: all that was to be had is paid out. -/
theorem total (h : Spread p orders q k st) (hk : st.orders.length ≤ k) :
    groupShares p st.orders + min q (groupShares p orders) = groupShares p orders := by
  have hpaid := h.paid
  rcases h.spent with h0 | hspent
  · rw [h0, UInt32.toNat_zero] at hpaid
    omega
  · have hzero : groupShares p st.orders = 0 := groupShares_eq_zero fun o ho hpo => by
      obtain ⟨i, hi⟩ := List.mem_iff_getElem?.mp ho
      exact hspent i (Nat.lt_of_lt_of_le (List.getElem?_eq_some_iff.mp hi).1 hk) o hi hpo
    omega

end Spread

/-! ## The two loops -/

/-- What an execution of `q` shares leaves of the open orders: each budget is paid out in full,
orders behind the executed one lose at most `q` each, and the others nothing. -/
structure Executed (r : UInt64) (side : UInt8) (price q : UInt32) (orders orders' : List OpenOrder) :
    Prop where
  superior : groupShares (fun o => o.Superior side price) orders'
    + min q.toNat (groupShares (fun o => o.Superior side price) orders)
    = groupShares (fun o => o.Superior side price) orders
  through : groupShares (fun o => o.TradedThrough r side price) orders'
    + min q.toNat (groupShares (fun o => o.TradedThrough r side price) orders)
    = groupShares (fun o => o.TradedThrough r side price) orders
  others : Came (fun _ o o' =>
      (o.Behind r side price → o.remaining.toNat ≤ o'.remaining.toNat + q.toNat)
      ∧ (¬o.Superior side price → ¬(o.side = side ∧ o.price = price) →
        o'.remaining = o.remaining)) orders orders'

/-- The price-through loop shares out its budget, and takes from no other order. -/
theorem spread_priceThrough (side : UInt8) (price : UInt32) (ts : UInt64) (n : ℕ) (q : UInt32)
    (orders : List OpenOrder) (fills : List FillRec) :
    Spread (fun o => o.Superior side price) orders q.toNat n
        (forEach n (priceThroughAt side price ts) ⟨orders, q, fills⟩)
      ∧ Came (fun _ o o' => ¬o.Superior side price → o'.remaining = o.remaining) orders
        (forEach n (priceThroughAt side price ts) ⟨orders, q, fills⟩).orders := by
  refine forEach_invariant (fun k t => Spread (fun o => o.Superior side price) orders q.toNat k t
    ∧ Came (fun _ o o' => ¬o.Superior side price → o'.remaining = o.remaining) orders t.orders)
    ⟨⟨rfl, Or.inr fun i hi => absurd hi (Nat.not_lt_zero i)⟩, Came.refl (fun _ _ _ => rfl) orders⟩
    fun k _ t ⟨hspread, hcame⟩ => ?_
  rcases priceThroughAt_cases side price ts t k with ⟨heq, hskip⟩ | ⟨o, ho, hside, -, hsup, heq⟩
  · rw [heq]
    exact ⟨hspread.pass fun o ho hs => by_contra fun hrem => hskip o ho ⟨hs.1, hrem, hs.2⟩, hcame⟩
  · rw [heq]
    refine ⟨hspread.fillFromBudget (lasting_superior side price) ho ⟨hside, hsup⟩ ts,
      hcame.trans (ExecState.came_fillFromBudget ts ho) fun i o₁ o₂ o₃ ho₂ hev h h' hnot => ?_⟩
    rw [if_neg] at h'
    · exact h'.trans (h hnot)
    · rintro rfl
      rw [ho, Option.some_inj] at ho₂
      subst ho₂
      exact hnot ((lasting_superior side price o₁ o hev).mp ⟨hside, hsup⟩)

/-- The loop at the executed level shares out its budget; each order behind the executed one
loses at most the executed shares, once; orders elsewhere lose nothing. -/
theorem spread_atLevel (r : UInt64) (side : UInt8) (price q : UInt32) (ts : UInt64) (n : ℕ)
    (orders : List OpenOrder) (fills : List FillRec) :
    Spread (fun o => o.TradedThrough r side price) orders q.toNat n
        (forEach n (atLevelAt r side price q ts) ⟨orders, q, fills⟩)
      ∧ Came (fun i o o' => (¬(o.side = side ∧ o.price = price) → o'.remaining = o.remaining)
          ∧ (o.Behind r side price → o.remaining.toNat ≤ o'.remaining.toNat + q.toNat
            ∧ (n ≤ i → o'.remaining = o.remaining))) orders
        (forEach n (atLevelAt r side price q ts) ⟨orders, q, fills⟩).orders := by
  have hp := lasting_tradedThrough r side price
  refine forEach_invariant (fun k t =>
    Spread (fun o => o.TradedThrough r side price) orders q.toNat k t
    ∧ Came (fun i o o' => (¬(o.side = side ∧ o.price = price) → o'.remaining = o.remaining)
        ∧ (o.Behind r side price → o.remaining.toNat ≤ o'.remaining.toNat + q.toNat
          ∧ (k ≤ i → o'.remaining = o.remaining))) orders t.orders)
    ⟨⟨rfl, Or.inr fun i hi => absurd hi (Nat.not_lt_zero i)⟩,
      Came.refl (fun _ _ => ⟨fun _ => rfl, fun _ => ⟨Nat.le_add_right _ _, fun _ => rfl⟩⟩) orders⟩
    fun k _ t ⟨hspread, hcame⟩ => ?_
  rcases atLevelAt_cases r side price q ts t k with
    ⟨heq, hskip⟩ | ⟨o, ho, hside, hprice, -, ⟨hle, heq⟩ | ⟨hlt, heq⟩⟩
  · rw [heq]
    refine ⟨hspread.pass fun o ho hs => by_contra fun hrem => hskip o ho ⟨hs.1, hs.2.1, hrem⟩,
      hcame.length, fun i o' ho' => ?_⟩
    obtain ⟨o, hbefore, hev, helse, hbehind⟩ := hcame.order i o' ho'
    exact ⟨o, hbefore, hev, helse, fun hb =>
      ⟨(hbehind hb).1, fun hk => (hbehind hb).2 (Nat.le_of_succ_le hk)⟩⟩
  · -- a drain: the order has lost nothing before
    rw [heq]
    have hpo : ¬o.TradedThrough r side price := fun h => UInt64.not_le.mpr h.2.2 hle
    refine ⟨hspread.drainAhead hp ho hpo q ts,
      hcame.trans (ExecState.came_drainAhead q ts ho) fun i o₁ o₂ o₃ ho₂ hev h h' => ?_⟩
    by_cases hik : k = i
    · subst hik
      rw [ho, Option.some_inj] at ho₂
      subst ho₂
      refine ⟨fun hnot => absurd ⟨hev.side.symm.trans hside, hev.price.symm.trans hprice⟩ hnot,
        fun hb => ⟨?_, fun hk => absurd hk (Nat.not_succ_le_self k)⟩⟩
      rw [← (h.2 hb).2 (Nat.le_refl k)]
      exact h'.2
    · have hsame := h'.1 hik
      rw [hsame]
      exact ⟨h.1, fun hb => ⟨(h.2 hb).1, fun hk => (h.2 hb).2 (Nat.le_of_succ_le hk)⟩⟩
  · rw [heq]
    have hpo : o.TradedThrough r side price := ⟨hside, hprice, hlt⟩
    refine ⟨hspread.fillFromBudget hp ho hpo ts,
      hcame.trans (ExecState.came_fillFromBudget ts ho) fun i o₁ o₂ o₃ ho₂ hev h h' => ?_⟩
    by_cases hik : k = i
    · subst hik
      rw [ho, Option.some_inj] at ho₂
      subst ho₂
      refine ⟨fun hnot => absurd ⟨hev.side.symm.trans hside, hev.price.symm.trans hprice⟩ hnot,
        fun hb => ?_⟩
      exact absurd hb.2.2 (UInt64.not_le.mpr ((hp o₁ o hev).mp hpo).2.2)
    · rw [if_neg hik] at h'
      rw [h']
      exact ⟨h.1, fun hb => ⟨(h.2 hb).1, fun hk => (h.2 hb).2 (Nat.le_of_succ_le hk)⟩⟩

/-- **One execution**, before the filled orders are forgotten. -/
theorem FillEngine.handleExec_executed (fe : FillEngine) (r : UInt64) (side : UInt8)
    (price q : UInt32) (ts : UInt64) :
    ∃ orders', Trades fe.openOrders fe.fills orders' (fe.handleExec r side price q ts).fills
      ∧ Executed r side price q fe.openOrders orders'
      ∧ (fe.handleExec r side price q ts).openOrders = eraseFilled orders' := by
  obtain ⟨mid, hmid⟩ : ∃ mid, forEach fe.openOrders.length (priceThroughAt side price ts)
    ⟨fe.openOrders, q, fe.fills⟩ = mid := ⟨_, rfl⟩
  obtain ⟨hspread, hcame⟩ := spread_priceThrough side price ts fe.openOrders.length q
    fe.openOrders fe.fills
  have htrades := trades_priceThrough side price ts fe.openOrders.length
    ⟨fe.openOrders, q, fe.fills⟩
  have hfills : (fe.handleExec r side price q ts).fills
      = (forEach fe.openOrders.length (atLevelAt r side price q ts)
          { forEach fe.openOrders.length (priceThroughAt side price ts)
              ⟨fe.openOrders, q, fe.fills⟩ with budget := q }).fills := rfl
  have hopen : (fe.handleExec r side price q ts).openOrders
      = eraseFilled (forEach fe.openOrders.length (atLevelAt r side price q ts)
          { forEach fe.openOrders.length (priceThroughAt side price ts)
              ⟨fe.openOrders, q, fe.fills⟩ with budget := q }).orders := rfl
  rw [hmid] at hspread hcame htrades hfills hopen
  obtain ⟨hspread', hcame'⟩ := spread_atLevel r side price q ts fe.openOrders.length
    mid.orders mid.fills
  have htrades' := trades_atLevel r side price q ts fe.openOrders.length
    ⟨mid.orders, q, mid.fills⟩
  refine ⟨(forEach fe.openOrders.length (atLevelAt r side price q ts)
    ⟨mid.orders, q, mid.fills⟩).orders, hfills ▸ htrades.trans htrades', ?_, hopen⟩
  have hsuperior : groupShares (fun o => o.Superior side price)
      (forEach fe.openOrders.length (atLevelAt r side price q ts)
        ⟨mid.orders, q, mid.fills⟩).orders
      = groupShares (fun o => o.Superior side price) mid.orders :=
    hcame'.groupShares (lasting_superior side price) fun i o o' h hs =>
      h.1 fun hlevel => hs.price_ne hlevel.2
  have hthrough : groupShares (fun o => o.TradedThrough r side price) mid.orders
      = groupShares (fun o => o.TradedThrough r side price) fe.openOrders :=
    hcame.groupShares (lasting_tradedThrough r side price) fun i o o' h ht =>
      h fun hs => hs.price_ne ht.2.1
  have htotal := hspread.total hcame.length.le
  have htotal' := hspread'.total (hcame'.length.trans hcame.length).le
  rw [hthrough] at htotal'
  refine ⟨hsuperior ▸ htotal, htotal', hcame.trans hcame' fun i o₁ o₂ o₃ ho₂ hev h h' => ?_⟩
  refine ⟨fun hb => ?_, fun hnot hlevel => ?_⟩
  · have hb' : o₂.Behind r side price :=
      ⟨hev.side.trans hb.1, hev.price.trans hb.2.1, hev.watermark ▸ hb.2.2⟩
    rw [← h fun hs => hs.price_ne hb.2.1]
    exact (h'.2 hb').1
  · rw [h'.1 fun hl => hlevel ⟨hev.side.symm.trans hl.1, hev.price.symm.trans hl.2⟩]
    exact h hnot

/-! ## Filled shares -/

/-- All shares of some fills. -/
def totalShares (fills : List FillRec) : ℕ := (fills.map fun f => f.shares.toNat).sum

section Filled

variable {orders orders' : List OpenOrder} {fills : List FillRec}

/-- With distinct references, what an order lost is what was filled under its reference. -/
theorem Trades.filled (h : Trades orders [] orders' fills)
    (hnodup : (orders.map OpenOrder.ref).Nodup) {i : ℕ} {o o' : OpenOrder}
    (ho : orders[i]? = some o) (ho' : orders'[i]? = some o') :
    filledShares fills o.ref + o'.remaining.toNat = o.remaining.toNat := by
  obtain ⟨o₀, ho₀, hev⟩ := forall₂_evolves_getElem? h.evolves ho'
  rw [ho, Option.some_inj] at ho₀
  subst ho₀
  have hnodup' : (orders'.map OpenOrder.ref).Nodup := by
    rwa [forall₂_evolves_refs h.evolves]
  have hbefore : openShares orders o.ref = o.remaining.toNat :=
    sum_map_of_nodup OpenOrder.ref (fun o => o.remaining.toNat) hnodup (List.mem_of_getElem? ho)
  have hafter : openShares orders' o.ref = o'.remaining.toNat :=
    hev.ref ▸ sum_map_of_nodup OpenOrder.ref (fun o => o.remaining.toNat) hnodup'
      (List.mem_of_getElem? ho')
  have hconserved := h.conserved o.ref
  rw [filledShares_nil, Nat.zero_add] at hconserved
  omega

theorem Trades.groupFilled (h : Trades orders [] orders' fills)
    (hnodup : (orders.map OpenOrder.ref).Nodup) {p : OpenOrder → Prop} [DecidablePred p]
    (hp : Lasting p) :
    groupFilled p orders fills + groupShares p orders' = groupShares p orders := by
  refine sum_map_add_sum_map h.evolves.length_eq.symm fun i o o' ho ho' => ?_
  obtain ⟨o₀, ho₀, hev⟩ := forall₂_evolves_getElem? h.evolves ho'
  rw [ho, Option.some_inj] at ho₀
  subst ho₀
  simp only [hp o o' hev]
  split
  · exact h.filled hnodup ho ho'
  · rfl

/-- Where each fill is of one order, the orders' fills are all fills. Induction on the fills. -/
theorem totalShares_eq (hnodup : (orders.map OpenOrder.ref).Nodup)
    (hknown : ∀ f ∈ fills, ∃ o ∈ orders, f.ourRef = o.ref) :
    totalShares fills = (orders.map fun o => filledShares fills o.ref).sum := by
  induction fills with
  | nil => simp [totalShares]
  | cons f fills ih =>
    have hrest := ih fun g hg => hknown g (List.mem_cons_of_mem f hg)
    obtain ⟨o, ho, href⟩ := hknown f List.mem_cons_self
    have hone := sum_map_of_nodup OpenOrder.ref (fun _ => f.shares.toNat) hnodup ho
    have hsplit : (orders.map fun o => filledShares (f :: fills) o.ref)
        = orders.map fun p => (if p.ref = o.ref then f.shares.toNat else 0)
          + filledShares fills p.ref := by
      refine List.map_congr_left fun p _ => ?_
      rw [filledShares, List.map_cons, List.sum_cons, filledShares, href]
      simp only [eq_comm]
    rw [hsplit, List.sum_map_add, hone, ← hrest]
    rfl

end Filled

namespace FillSim

/-! ## The event in a run -/

/-- One execution of resting shares on our locate, between the steps of a run. -/
theorem Sound.executed {s : FillSim} (h : s.Sound) {m : DecodedMessage} {v : Value}
    (ht : m.type.IsExec) (hv : s.eng.refs.find m.orderRef = some v)
    (hloc : v.locate = s.fe.locate) :
    ∃ after, Trades s.fe.openOrders [] after (s.fe.onMarketMessage s.eng m).fills
      ∧ Executed m.orderRef v.side v.price (umin m.shares v.shares) s.fe.openOrders after
      ∧ (s.fe.onMarketMessage s.eng m).openOrders = FillEngine.eraseFilled after := by
  have hexec : s.fe.onMarketMessage s.eng m
      = s.fe.handleExec m.orderRef v.side v.price (umin m.shares v.shares) m.timestamp :=
    (s.fe.onMarketMessage_exec ht hv).trans (if_neg (not_not.mpr hloc))
  rw [hexec, ← h.taken]
  exact s.fe.handleExec_executed ..

/-- The fills of an execution, group by group: each group at better prices, or from before the
executed order, gets the quantity or all it has; an order behind gets at most the quantity. -/
structure GroupFills (r : UInt64) (side : UInt8) (price : UInt32) (q : ℕ)
    (orders : List OpenOrder) (fills : List FillRec) : Prop where
  better : groupFilled (fun o => o.Superior side price) orders fills
    = min q (groupShares (fun o => o.Superior side price) orders)
  through : groupFilled (fun o => o.TradedThrough r side price) orders fills
    = min q (groupShares (fun o => o.TradedThrough r side price) orders)
  behind : ∀ o ∈ orders, o.Behind r side price →
    filledShares fills o.ref ≤ min q o.remaining.toNat
  elsewhere : ∀ o ∈ orders, ¬o.Superior side price → ¬(o.side = side ∧ o.price = price) →
    filledShares fills o.ref = 0

/-- Where references are distinct, what orders lose is what is filled under their references. -/
theorem groupFills_of_executed {orders after : List OpenOrder} {fills : List FillRec} {r : UInt64}
    {side : UInt8} {price q : UInt32} (htrades : Trades orders [] after fills)
    (hexec : Executed r side price q orders after)
    (hnodup : (orders.map OpenOrder.ref).Nodup) :
    GroupFills r side price q.toNat orders fills := by
  -- each order, with what is left of it
  have hafter : ∀ o ∈ orders, ∃ left : ℕ, filledShares fills o.ref + left = o.remaining.toNat
      ∧ (o.Behind r side price → o.remaining.toNat ≤ left + q.toNat)
      ∧ (¬o.Superior side price → ¬(o.side = side ∧ o.price = price) →
        left = o.remaining.toNat) := by
    intro o ho
    obtain ⟨i, hi⟩ := List.mem_iff_getElem?.mp ho
    have hlt : i < after.length := hexec.others.length ▸ (List.getElem?_eq_some_iff.mp hi).1
    have ho' : after[i]? = some after[i] := List.getElem?_eq_getElem hlt
    obtain ⟨o₀, ho₀, -, hbehind, helse⟩ := hexec.others.order i _ ho'
    rw [hi, Option.some_inj] at ho₀
    subst ho₀
    exact ⟨_, htrades.filled hnodup hi ho', hbehind, fun h h' => by rw [helse h h']⟩
  refine ⟨?_, ?_, fun o ho hb => ?_, fun o ho hb hl => ?_⟩
  · have hfilled := htrades.groupFilled hnodup (lasting_superior side price)
    exact Nat.add_right_cancel (hfilled.trans (hexec.superior.symm.trans (Nat.add_comm _ _)))
  · have hfilled := htrades.groupFilled hnodup (lasting_tradedThrough r side price)
    exact Nat.add_right_cancel (hfilled.trans (hexec.through.symm.trans (Nat.add_comm _ _)))
  · obtain ⟨left, hsum, hbehind, -⟩ := hafter o ho
    have := hbehind hb
    omega
  · obtain ⟨left, hsum, -, hsame⟩ := hafter o ho
    have := hsame hb hl
    omega

/-- Where no order behind the executed one is filled, the two groups' fills are all. -/
theorem GroupFills.total {orders : List OpenOrder} {fills : List FillRec} {r : UInt64}
    {side : UInt8} {price : UInt32} {q : ℕ} (h : GroupFills r side price q orders fills)
    (hnodup : (orders.map OpenOrder.ref).Nodup)
    (hknown : ∀ f ∈ fills, ∃ o ∈ orders, f.ourRef = o.ref)
    (hnone : ∀ o ∈ orders, o.Behind r side price → filledShares fills o.ref = 0) :
    totalShares fills = min q (groupShares (fun o => o.Superior side price) orders)
      + min q (groupShares (fun o => o.TradedThrough r side price) orders) := by
  have hsplit : (orders.map fun o => filledShares fills o.ref)
      = orders.map fun o => (if o.Superior side price then filledShares fills o.ref else 0)
        + if o.TradedThrough r side price then filledShares fills o.ref else 0 := by
    refine List.map_congr_left fun o ho => ?_
    by_cases hb : o.Superior side price
    · rw [if_pos hb, if_neg fun ht => hb.price_ne ht.2.1, Nat.add_zero]
    · rw [if_neg hb, Nat.zero_add]
      split
      · rfl
      · rename_i hthr
        by_cases hl : o.side = side ∧ o.price = price
        · exact hnone o ho ⟨hl.1, hl.2, UInt64.not_lt.mp fun hlt => hthr ⟨hl.1, hl.2, hlt⟩⟩
        · exact h.elsewhere o ho hb hl
  rw [totalShares_eq hnodup hknown, hsplit, List.sum_map_add]
  exact congrArg₂ (· + ·) h.better h.through

/-- **One execution** of `q` resting shares, in every state a run reaches. The own orders at
better prices lose `q` shares between them, or all they have; so do the own orders at the level
from before the executed one; one behind it loses at most `q`, any other nothing. While
references last these are the fills under their references. On an accepted stream with exact
queues an order behind the executed one is not filled, so the two groups' fills are all. -/
theorem run_exec_fills (priceLevels : UInt32) (capacity : ℕ) (locate : UInt16) (ops : List SimOp)
    (m : DecodedMessage) (v : Value) (ht : m.type.IsExec)
    (hv : ((new priceLevels capacity locate).run ops).eng.refs.find m.orderRef = some v)
    (hloc : v.locate = ((new priceLevels capacity locate).run ops).fe.locate) :
    let s := (new priceLevels capacity locate).run ops
    let orders := s.fe.openOrders
    let fills := (s.fe.onMarketMessage s.eng m).fills
    let q := umin m.shares v.shares
    (∃ after, Trades orders [] after fills ∧ Executed m.orderRef v.side v.price q orders after
        ∧ (s.fe.onMarketMessage s.eng m).openOrders = FillEngine.eraseFilled after)
      ∧ (submits ops ≤ 2 ^ 64 → GroupFills m.orderRef v.side v.price q.toNat orders fills)
      ∧ (submits ops ≤ 2 ^ 64 → Along Accepted (new priceLevels capacity locate) ops →
          (ops.filterMap SimOp.newRef).Pairwise (· < ·) →
          Along SnapshotFits (new priceLevels capacity locate) ops →
          totalShares fills
            = min q.toNat (groupShares (fun o => o.Superior v.side v.price) orders)
              + min q.toNat
                (groupShares (fun o => o.TradedThrough m.orderRef v.side v.price) orders)) := by
  intro s orders fills q
  have hsound : s.Sound := (sound_new priceLevels capacity locate).run ops
  obtain ⟨after, htrades, hexec, hopen⟩ := hsound.executed ht hv hloc
  have hnodup : submits ops ≤ 2 ^ 64 → (orders.map OpenOrder.ref).Nodup := fun hsubmits => by
    have hinv := ((inv_new priceLevels capacity locate).run ops
      (by show 0 + submits ops ≤ 2 ^ 64; omega)).1
    exact (List.nodup_append.mp hinv.nodup).2.1
  have hgroups := fun hsubmits => groupFills_of_executed htrades hexec (hnodup hsubmits)
  refine ⟨⟨after, htrades, hexec, hopen⟩, hgroups, fun hsubmits haccepted hgrow hfits => ?_⟩
  have hqueue : s.QueueInv := (queueInv_new priceLevels capacity locate).run ops
    (by show 0 + submits ops ≤ 2 ^ 64; omega) haccepted hfits hgrow
    fun r _ h0 => UInt64.pos_iff_ne_zero.mpr h0
  refine (hgroups hsubmits).total (hnodup hsubmits) (fun f hf => ?_) fun o ho hb => ?_
  · obtain ⟨new, hfills, hnew⟩ := htrades.makers
    rw [List.nil_append] at hfills
    obtain ⟨o, ho, hmaker⟩ := hnew f (hfills.symm ▸ hf)
    exact ⟨o, ho, hmaker.ref⟩
  · exact VectorLoop.sum_map_of_absent FillRec.ourRef (fun f : FillRec => f.shares.toNat)
      (hqueue.exec_fills_none ht hv ho ⟨hloc, hb.1.symm, hb.2.1.symm, hb.2.2⟩)

/-- A bid of ours at the executed price and one above it, both from before the executed order:
10 shares trade, and each is filled 10. -/
theorem exec_fills_twice :
    let add : DecodedMessage :=
      { type := .addOrder, orderRef := 10, stockLocate := 1, side := sideBuy, price := 4,
        shares := 100 }
    let exec : DecodedMessage := { type := .orderExecuted, orderRef := 10, shares := 10 }
    let s := (new 16 4 1).run [.submit .buy 5 10 1, .submit .buy 4 10 2, .market add]
    s.eng.refs.find 10 = some ⟨4, 100, 1, sideBuy⟩ ∧ s.fe.locate = 1
      ∧ (umin exec.shares 100).toNat = 10
      ∧ totalShares (s.fe.onMarketMessage s.eng exec).fills = 20 := by
  decide

/-- The same event, by the general statement. -/
theorem run_exec_fills_twice :
    let add : DecodedMessage :=
      { type := .addOrder, orderRef := 10, stockLocate := 1, side := sideBuy, price := 4,
        shares := 100 }
    let exec : DecodedMessage := { type := .orderExecuted, orderRef := 10, shares := 10 }
    let s := (new 16 4 1).run [.submit .buy 5 10 1, .submit .buy 4 10 2, .market add]
    totalShares (s.fe.onMarketMessage s.eng exec).fills
      = min 10 (groupShares (fun o => o.Superior sideBuy 4) s.fe.openOrders)
        + min 10 (groupShares (fun o => o.TradedThrough 10 sideBuy 4) s.fe.openOrders) := by
  intro add exec s
  exact (run_exec_fills 16 4 1 [.submit .buy 5 10 1, .submit .buy 4 10 2, .market add] exec
    ⟨4, 100, 1, sideBuy⟩ (by decide) (by decide) (by decide)).2.2
    (by decide) (by decide) (by decide) (by decide)

end FillSim

end ItchOrderbook
