import Mathlib

/-!
# Loops that update a vector in place

`forEach n body s` runs `body` with the indices `0 … n - 1` on a state, as a loop over a vector
does whose body may also write to other elements. `forEach_invariant` is its invariant rule;
the other lemmas say what one write does to a sum over the vector.
-/

namespace VectorLoop

variable {σ α : Type*}

/-- `for (i = 0; i < n; ++i) s = body(s, i)`. -/
def forEach (n : ℕ) (body : σ → ℕ → σ) (s : σ) : σ := (List.range n).foldl body s

@[simp] theorem forEach_zero (body : σ → ℕ → σ) (s : σ) : forEach 0 body s = s := rfl

theorem forEach_succ (n : ℕ) (body : σ → ℕ → σ) (s : σ) :
    forEach (n + 1) body s = body (forEach n body s) n := by
  simp [forEach, List.range_succ]

/-- The invariant rule: what holds before the first iteration and is passed on by each one
holds after the last. -/
theorem forEach_invariant {n : ℕ} {body : σ → ℕ → σ} (P : ℕ → σ → Prop) {s : σ} (h₀ : P 0 s)
    (hstep : ∀ i < n, ∀ t, P i t → P (i + 1) (body t i)) : P n (forEach n body s) := by
  induction n with
  | zero => exact h₀
  | succ n ih =>
    rw [forEach_succ]
    exact hstep n (Nat.lt_succ_self n) _ (ih fun i hi => hstep i (Nat.lt_succ_of_lt hi))

/-! ## Sums over a vector -/

/-- Writing an element exchanges its term of a sum. -/
theorem sum_map_set (f : α → ℕ) {l : List α} {i : ℕ} {a : α} (b : α) (h : l[i]? = some a) :
    ((l.set i b).map f).sum + f a = (l.map f).sum + f b := by
  induction l generalizing i with
  | nil => simp at h
  | cons x xs ih =>
    cases i with
    | zero =>
      rw [List.getElem?_cons_zero, Option.some_inj] at h
      subst h
      simp only [List.set_cons_zero, List.map_cons, List.sum_cons]
      omega
    | succ i =>
      rw [List.getElem?_cons_succ] at h
      have := ih h
      simp only [List.set_cons_succ, List.map_cons, List.sum_cons]
      omega

/-- A term is at most the sum. -/
theorem le_sum_map (f : α → ℕ) {l : List α} {a : α} (h : a ∈ l) : f a ≤ (l.map f).sum := by
  induction l with
  | nil => cases h
  | cons x xs ih =>
    rw [List.map_cons, List.sum_cons]
    rcases List.mem_cons.mp h with rfl | hxs
    · omega
    · have := ih hxs
      omega

/-- Dropping elements whose term is zero leaves the sum. -/
theorem sum_map_filter (f : α → ℕ) (p : α → Bool) {l : List α}
    (h : ∀ a ∈ l, p a = false → f a = 0) : ((l.filter p).map f).sum = (l.map f).sum := by
  induction l with
  | nil => rfl
  | cons x xs ih =>
    have hrest := ih fun a ha => h a (List.mem_cons_of_mem x ha)
    rw [List.filter_cons]
    cases hp : p x with
    | true => simp [hrest]
    | false => simp [hrest, h x List.mem_cons_self hp]

/-- Among elements with distinct keys, the terms of a key are the term of its element. -/
theorem sum_map_of_nodup {κ : Type*} [DecidableEq κ] (key : α → κ) (f : α → ℕ) {l : List α}
    (h : (l.map key).Nodup) {a : α} (ha : a ∈ l) :
    (l.map fun x => if key x = key a then f x else 0).sum = f a := by
  induction l with
  | nil => cases ha
  | cons x xs ih =>
    rw [List.map_cons, List.nodup_cons] at h
    rw [List.map_cons, List.sum_cons]
    rcases List.mem_cons.mp ha with rfl | ha
    · have hzero : (xs.map fun x => if key x = key a then f x else 0).sum = 0 := by
        refine List.sum_eq_zero fun n hn => ?_
        obtain ⟨x, hx, rfl⟩ := List.mem_map.mp hn
        exact if_neg fun e : key x = key a => h.1 (e ▸ List.mem_map_of_mem hx)
      rw [if_pos rfl, hzero, Nat.add_zero]
    · have hne : key x ≠ key a := fun e => h.1 (e ▸ List.mem_map_of_mem ha)
      rw [if_neg hne, ih h.2 ha, Nat.zero_add]

/-- Without an element of a key there are no terms. -/
theorem sum_map_of_absent {κ : Type*} [DecidableEq κ] (key : α → κ) (f : α → ℕ) {l : List α}
    {k : κ} (h : ∀ x ∈ l, key x ≠ k) : (l.map fun x => if key x = k then f x else 0).sum = 0 := by
  refine List.sum_eq_zero fun n hn => ?_
  obtain ⟨x, hx, rfl⟩ := List.mem_map.mp hn
  exact if_neg (h x hx)

/-- Two vectors whose terms add up, index by index, to those of a third function. -/
theorem sum_map_add_sum_map {β : Type*} {f k : α → ℕ} {g : β → ℕ} {l : List α} {l' : List β}
    (hlen : l'.length = l.length)
    (h : ∀ (i : ℕ) a b, l[i]? = some a → l'[i]? = some b → f a + g b = k a) :
    (l.map f).sum + (l'.map g).sum = (l.map k).sum := by
  induction l generalizing l' with
  | nil =>
    rw [List.eq_nil_of_length_eq_zero hlen]
    rfl
  | cons a l ih =>
    obtain ⟨b, l', rfl⟩ := List.exists_cons_of_length_eq_add_one hlen
    have hhead := h 0 a b rfl rfl
    have htail := ih (Nat.succ_inj.mp hlen) fun i a b ha hb => h (i + 1) a b ha hb
    simp only [List.map_cons, List.sum_cons]
    omega

end VectorLoop
