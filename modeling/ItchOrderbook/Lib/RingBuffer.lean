import Mathlib.Data.List.Basic

/-!
# Ring buffers

A list of `cap` cells to which the values of a sequence are written one by one, value `j` to cell
`j % cap`. `Holds cap t x cells` says what is there after `t` writes: the last `cap` values.
-/

namespace RingBuffer

variable {α : Type*} {cap t : ℕ} {x : ℕ → α} {cells : List α}

/-- After `t` writes the cells hold the last `cap` values. -/
structure Holds (cap t : ℕ) (x : ℕ → α) (cells : List α) : Prop where
  length : cells.length = cap
  cell : ∀ j < t, t ≤ j + cap → cells[j % cap]? = some (x j)

theorem Holds.start (h : cells.length = cap) (x : ℕ → α) : Holds cap 0 x cells :=
  ⟨h, fun j hj => absurd hj (Nat.not_lt_zero j)⟩

/-- Two values of a window are in different cells. -/
theorem mod_ne {j k : ℕ} (hlt : j < k) (hle : k < j + cap) : j % cap ≠ k % cap := by
  intro heq
  have hdvd : cap ∣ k - j := Nat.dvd_of_mod_eq_zero (Nat.sub_mod_eq_zero_of_mod_eq heq.symm)
  have hcap := Nat.le_of_dvd (by omega) hdvd
  omega

/-- One write on. -/
theorem Holds.write (h : Holds cap t x cells) (hcap : 0 < cap) :
    Holds cap (t + 1) x (cells.set (t % cap) (x t)) := by
  refine ⟨(List.length_set ..).trans h.length, fun j hj hwindow => ?_⟩
  rcases Nat.lt_succ_iff_lt_or_eq.1 hj with hlt | rfl
  · rw [List.getElem?_set_ne (mod_ne hlt (by omega)).symm]
    exact h.cell j hlt (by omega)
  · exact List.getElem?_set_self (by rw [h.length]; exact Nat.mod_lt _ hcap)

end RingBuffer
