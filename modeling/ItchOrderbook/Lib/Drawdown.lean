import Mathlib.Algebra.Order.Field.Basic
import Mathlib.Data.List.Induction

/-!
# The largest drawdown of a curve

A drawdown is how far a curve falls from its peak so far to a later value, relative to the peak.
`isMaxDrawdown_worst`: one pass with the running peak finds the largest.
-/

namespace Drawdown

variable {K : Type*} [Field K] [LinearOrder K]

/-- `xs` falls from its peak over `0..j`, a positive value not behind `j`, to its value at `j`, and
`d` is by how much of the peak. -/
def FallsBy (xs : List K) (d : K) : Prop :=
  ∃ (i j : ℕ) (x y : K), i ≤ j ∧ xs[i]? = some x ∧ xs[j]? = some y ∧
    (∀ k ≤ j, ∀ z, xs[k]? = some z → z ≤ x) ∧ 0 < x ∧ d = (x - y) / x

/-- The largest drawdown, 0 for a curve that does not fall. -/
structure IsMaxDrawdown (xs : List K) (d : K) : Prop where
  nonneg : 0 ≤ d
  upper : ∀ d', FallsBy xs d' → d' ≤ d
  attained : d = 0 ∨ FallsBy xs d

/-- One step of the pass, on the peak and the largest drawdown so far. -/
def track (p : K × K) (x : K) : K × K :=
  let peak := max p.1 x
  (peak, if 0 < peak then max p.2 ((peak - x) / peak) else p.2)

/-- The largest drawdown, by one pass from zeros. -/
def worst (xs : List K) : K := (xs.foldl track (0, 0)).2

/-- What the running peak is: at least 0, at least every value, and 0 or one of them. -/
structure IsPeak (xs : List K) (peak : K) : Prop where
  nonneg : 0 ≤ peak
  upper : ∀ x ∈ xs, x ≤ peak
  attained : peak = 0 ∨ peak ∈ xs

variable {xs : List K} {x d : K}

theorem IsPeak.concat {peak : K} (h : IsPeak xs peak) (x : K) : IsPeak (xs ++ [x]) (max peak x) where
  nonneg := h.nonneg.trans (le_max_left _ _)
  upper y hy := by
    rcases List.mem_append.1 hy with hy | hy
    · exact (h.upper y hy).trans (le_max_left _ _)
    · rw [List.mem_singleton.1 hy]
      exact le_max_right _ _
  attained := by
    rcases le_total x peak with hle | hle
    · rw [max_eq_left hle]
      exact h.attained.imp_right (List.mem_append_left _)
    · rw [max_eq_right hle]
      exact .inr (List.mem_append_right _ List.mem_cons_self)

/-- A positive value no other exceeds is the peak. -/
theorem IsPeak.eq_of_max {peak y : K} (h : IsPeak xs peak) (hy : y ∈ xs) (hpos : 0 < y)
    (hmax : ∀ z ∈ xs, z ≤ y) : y = peak := by
  refine le_antisymm (h.upper y hy) ?_
  rcases h.attained with h0 | hmem
  · rw [h0]
    exact hpos.le
  · exact hmax peak hmem

/-- A fall of the longer curve is one of the curve, or it ends at the new value. -/
theorem fallsBy_concat : FallsBy (xs ++ [x]) d ↔ FallsBy xs d ∨
    ∃ y ∈ xs ++ [x], (∀ z ∈ xs ++ [x], z ≤ y) ∧ 0 < y ∧ d = (y - x) / y := by
  constructor
  · rintro ⟨i, j, y, z, hij, hi, hj, hmax, hy, rfl⟩
    rcases Nat.lt_or_ge j xs.length with hlt | hge
    · rw [List.getElem?_append_left (by omega)] at hi hj
      refine .inl ⟨i, j, y, z, hij, hi, hj, fun k hk w hw => hmax k hk w ?_, hy, rfl⟩
      rw [List.getElem?_append_left (by omega)]
      exact hw
    · have hend : j = xs.length := by
        have hlast := (List.getElem?_eq_some_iff.1 hj).1
        rw [List.length_append, List.length_singleton] at hlast
        omega
      subst hend
      rw [List.getElem?_concat_length] at hj
      cases hj
      refine .inr ⟨y, List.mem_of_getElem? hi, fun w hw => ?_, hy, rfl⟩
      obtain ⟨k, hk⟩ := List.getElem?_of_mem hw
      have hlt := (List.getElem?_eq_some_iff.1 hk).1
      rw [List.length_append, List.length_singleton] at hlt
      exact hmax k (by omega) w hk
  · rintro (⟨i, j, y, z, hij, hi, hj, hmax, hy, rfl⟩ | ⟨y, hmem, hmax, hy, rfl⟩)
    · have hlt := (List.getElem?_eq_some_iff.1 hj).1
      refine ⟨i, j, y, z, hij, ?_, ?_, fun k hk w hw => hmax k hk w ?_, hy, rfl⟩
      · rw [List.getElem?_append_left (by omega)]
        exact hi
      · rw [List.getElem?_append_left hlt]
        exact hj
      · rwa [List.getElem?_append_left (by omega)] at hw
    · obtain ⟨i, hi⟩ := List.getElem?_of_mem hmem
      have hlt := (List.getElem?_eq_some_iff.1 hi).1
      rw [List.length_append, List.length_singleton] at hlt
      exact ⟨i, xs.length, y, x, by omega, hi, List.getElem?_concat_length,
        fun k _ w hw => hmax w (List.mem_of_getElem? hw), hy, rfl⟩

theorem not_fallsBy_nil : ¬ FallsBy ([] : List K) d := by
  rintro ⟨i, _, _, _, _, hi, _⟩
  simp at hi

/-- The pass keeps both: its first component is the peak, its second the largest drawdown. -/
theorem track_concat {p : K × K} (hpeak : IsPeak xs p.1) (hmax : IsMaxDrawdown xs p.2) :
    IsPeak (xs ++ [x]) (track p x).1 ∧ IsMaxDrawdown (xs ++ [x]) (track p x).2 := by
  have hpeak' : IsPeak (xs ++ [x]) (max p.1 x) := hpeak.concat x
  refine ⟨hpeak', ?_⟩
  by_cases hpos : 0 < max p.1 x
  · have hstep : (track p x).2 = max p.2 ((max p.1 x - x) / max p.1 x) := if_pos hpos
    have hmem : max p.1 x ∈ xs ++ [x] := hpeak'.attained.resolve_left hpos.ne'
    have hnew : FallsBy (xs ++ [x]) ((max p.1 x - x) / max p.1 x) :=
      fallsBy_concat.2 (.inr ⟨_, hmem, hpeak'.upper, hpos, rfl⟩)
    rw [hstep]
    refine ⟨hmax.nonneg.trans (le_max_left _ _), fun d' hd' => ?_, ?_⟩
    · rcases fallsBy_concat.1 hd' with hold | ⟨y, hy, hle, hy0, rfl⟩
      · exact (hmax.upper d' hold).trans (le_max_left _ _)
      · rw [hpeak'.eq_of_max hy hy0 hle]
        exact le_max_right _ _
    · rcases le_total p.2 ((max p.1 x - x) / max p.1 x) with hle | hle
      · rw [max_eq_right hle]
        exact .inr hnew
      · rw [max_eq_left hle]
        exact hmax.attained.imp_right fun hold => fallsBy_concat.2 (.inl hold)
  · have hstep : (track p x).2 = p.2 := if_neg hpos
    rw [hstep]
    refine ⟨hmax.nonneg, fun d' hd' => ?_,
      hmax.attained.imp_right fun hold => fallsBy_concat.2 (.inl hold)⟩
    rcases fallsBy_concat.1 hd' with hold | ⟨y, hy, _, hy0, _⟩
    · exact hmax.upper d' hold
    · exact absurd (hy0.trans_le (hpeak'.upper y hy)) hpos

theorem isMaxDrawdown_worst (xs : List K) : IsMaxDrawdown xs (worst xs) := by
  suffices h : IsPeak xs (xs.foldl track (0, 0)).1 ∧
      IsMaxDrawdown xs (xs.foldl track (0, 0)).2 from h.2
  induction xs using List.reverseRecOn with
  | nil =>
    exact ⟨⟨le_rfl, fun _ h => absurd h List.not_mem_nil, .inl rfl⟩,
      ⟨le_rfl, fun _ h => absurd h not_fallsBy_nil, .inl rfl⟩⟩
  | append_singleton xs x ih =>
    rw [List.foldl_append]
    exact track_concat ih.1 ih.2

end Drawdown
