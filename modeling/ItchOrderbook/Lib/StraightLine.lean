import Mathlib

/-!
# Straight-line code and its static depth

A machine runs a list of instructions in order and may fail on the way. A static analysis gives
each instruction the number `delta` by which it is meant to move a measure of the machine (the
height of a stack), so `depth` of the instructions before one is the value it expects there.

The rules are for a machine that follows the analysis except where an instruction slips: an
invariant is passed on by every instruction, an instruction that does not slip succeeds and moves
the measure by its `delta`, one that slips does not. Then the analysis is right at every
instruction if none slips (`run_depth`), and only then (`not_slips_of_depth`).
-/

namespace StraightLine

variable {ι σ ε : Type}

/-- The measure expected after `code`. -/
def depth (delta : ι → ℤ) (code : List ι) : ℤ := (code.map delta).sum

/-- The machine run through `code`. -/
def run (exec : ι → σ → Except ε σ) (code : List ι) (s : σ) : Except ε σ :=
  code.foldlM (fun s i => exec i s) s

section Prefixes

variable {delta : ι → ℤ} {exec : ι → σ → Except ε σ} {code : List ι} {s t : σ} {i : ι} {k : ℕ}

@[simp] theorem depth_nil : depth delta [] = 0 := rfl

theorem depth_cons (i : ι) (code : List ι) :
    depth delta (i :: code) = delta i + depth delta code := by
  simp [depth]

/-- One more instruction adds its `delta`. -/
theorem depth_take_succ (h : code[k]? = some i) :
    depth delta (code.take (k + 1)) = depth delta (code.take k) + delta i := by
  rw [List.take_add_one, h]
  simp [depth]

@[simp] theorem run_nil (s : σ) : run exec [] s = .ok s := rfl

theorem run_cons (i : ι) (code : List ι) (s : σ) :
    run exec (i :: code) s = exec i s >>= run exec code := by
  rw [run, List.foldlM_cons]
  rfl

theorem run_append (code code' : List ι) (s : σ) :
    run exec (code ++ code') s = run exec code s >>= run exec code' := by
  rw [run, List.foldlM_append]
  rfl

/-- The run up to an instruction, continued by it. -/
theorem run_take_succ (h : code[k]? = some i) (hs : run exec (code.take k) s = .ok t) :
    run exec (code.take (k + 1)) s = exec i t := by
  rw [List.take_add_one, h, run_append, hs]
  show run exec [i] t = exec i t
  rw [run_cons]
  cases exec i t with
  | error e => rfl
  | ok u => rfl

/-- A run that gets past an instruction got to it. -/
theorem run_take_of_succ (h : code[k]? = some i) (hs : run exec (code.take (k + 1)) s = .ok t) :
    ∃ u, run exec (code.take k) s = .ok u ∧ exec i u = .ok t := by
  cases hu : run exec (code.take k) s with
  | error e =>
    rw [List.take_add_one, h, run_append, hu] at hs
    cases hs
  | ok u => exact ⟨u, rfl, (run_take_succ h hu).symm.trans hs⟩

/-- What every instruction passes on holds after a run. -/
theorem run_invariant {P : σ → Prop} (hP : ∀ i ∈ code, ∀ s s', P s → exec i s = .ok s' → P s')
    (hs : P s) (h : run exec code s = .ok t) : P t := by
  induction code generalizing s with
  | nil =>
    cases h
    exact hs
  | cons i code ih =>
    rw [run_cons] at h
    cases hi : exec i s with
    | error e =>
      rw [hi] at h
      cases h
    | ok u =>
      rw [hi] at h
      have hu : P u := hP i List.mem_cons_self s u hs hi
      exact ih (fun j hj => hP j (List.mem_cons_of_mem i hj)) hu h

/-- A machine that returns wherever another one does, and the same, runs as far. -/
theorem run_extends {exec' : ι → σ → Except ε σ}
    (hext : ∀ i s s', exec i s = .ok s' → exec' i s = .ok s') (h : run exec code s = .ok t) :
    run exec' code s = .ok t := by
  induction code generalizing s with
  | nil => exact h
  | cons i code ih =>
    rw [run_cons] at h ⊢
    cases hi : exec i s with
    | error e =>
      rw [hi] at h
      cases h
    | ok u =>
      rw [hi] at h
      rw [hext i s u hi]
      exact ih h

end Prefixes

/-! ## The static depth is right unless an instruction slips -/

section Depth

variable {delta : ι → ℤ} {exec : ι → σ → Except ε σ} {size : σ → ℤ} {Inv : σ → Prop}
  {slips : ι → σ → Prop} {code : List ι} {s₀ : σ}

/-- As long as no instruction slips, the run reaches every instruction at its depth. -/
theorem run_depth (h₀ : Inv s₀) (hsize : size s₀ = 0)
    (hok : ∀ k i s, code[k]? = some i → Inv s → size s = depth delta (code.take k) →
      ¬slips i s → ∃ s', exec i s = .ok s' ∧ Inv s' ∧ size s' = size s + delta i)
    {n : ℕ} (hn : n ≤ code.length)
    (hslip : ∀ k i s, k < n → code[k]? = some i → run exec (code.take k) s₀ = .ok s →
      ¬slips i s) :
    ∃ s, run exec (code.take n) s₀ = .ok s ∧ Inv s ∧ size s = depth delta (code.take n) := by
  induction n with
  | zero => exact ⟨s₀, rfl, h₀, hsize⟩
  | succ n ih =>
    obtain ⟨s, hs, hI, hd⟩ := ih (by omega) fun k i s hk => hslip k i s (by omega)
    have hi : code[n]? = some code[n] := List.getElem?_eq_getElem hn
    have hno : ¬slips code[n] s := hslip n _ s (Nat.lt_succ_self n) hi hs
    obtain ⟨s', he, hI', hd'⟩ := hok n _ s hi hI hd hno
    refine ⟨s', (run_take_succ hi hs).trans he, hI', ?_⟩
    rw [hd', hd, depth_take_succ hi]

/-- Where the run has every instruction's depth, no instruction slips. -/
theorem not_slips_of_depth (h₀ : Inv s₀)
    (hkeep : ∀ i ∈ code, ∀ s s', Inv s → exec i s = .ok s' → Inv s')
    (hbad : ∀ i ∈ code, ∀ s s', Inv s → slips i s → exec i s = .ok s' →
      size s' ≠ size s + delta i)
    (hall : ∀ k ≤ code.length,
      ∃ s, run exec (code.take k) s₀ = .ok s ∧ size s = depth delta (code.take k))
    {k : ℕ} {i : ι} {s : σ} (hi : code[k]? = some i) (hs : run exec (code.take k) s₀ = .ok s) :
    ¬slips i s := by
  intro hslip
  have hk : k < code.length := (List.getElem?_eq_some_iff.1 hi).1
  have hI : Inv s := run_invariant (fun j hj => hkeep j (List.mem_of_mem_take hj)) h₀ hs
  -- the run gets past the instruction, to a depth that a slip excludes
  obtain ⟨s', hs', hd'⟩ := hall (k + 1) hk
  obtain ⟨u, hu, he⟩ := run_take_of_succ hi hs'
  have hus : u = s := Except.ok.inj (hu.symm.trans hs)
  obtain ⟨v, hv, hd⟩ := hall k (Nat.le_of_lt hk)
  have hvs : v = s := Except.ok.inj (hv.symm.trans hs)
  subst hus
  subst hvs
  refine hbad i (List.mem_of_getElem? hi) v s' hI hslip he ?_
  rw [hd', hd, depth_take_succ hi]

end Depth

end StraightLine
