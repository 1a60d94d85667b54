import Mathlib

/-!
# Groupings of a list

A list may be cut into groups in many ways. Where every element has a positive weight, a grouping
is determined by the weights of its groups, and even by lower bounds for them
(`groups_eq_of_le`).
-/

namespace Grouping

variable {α : Type*} {w : α → ℕ}

/-- The weight of a group. -/
def weight (w : α → ℕ) (xs : List α) : ℕ := (xs.map w).sum

@[simp] theorem weight_nil : weight w [] = 0 := rfl

@[simp] theorem weight_append (xs ys : List α) :
    weight w (xs ++ ys) = weight w xs + weight w ys := by
  rw [weight, List.map_append, List.sum_append]
  rfl

/-- Only the empty group weighs nothing. -/
theorem eq_nil_of_weight {xs : List α} (hpos : ∀ x ∈ xs, 0 < w x) (h : weight w xs = 0) :
    xs = [] := by
  cases xs with
  | nil => rfl
  | cons x xs =>
    have hx := hpos x List.mem_cons_self
    rw [weight, List.map_cons, List.sum_cons] at h
    omega

theorem weight_flatten_le {gs hs : List (List α)}
    (h : List.Forall₂ (fun g g' => weight w g ≤ weight w g') gs hs) :
    weight w gs.flatten ≤ weight w hs.flatten := by
  induction h with
  | nil => exact Nat.le_refl _
  | cons hg _ ih =>
    rw [List.flatten_cons, List.flatten_cons, weight_append, weight_append]
    exact Nat.add_le_add hg ih

/-- Two groupings of one list are the same if no group of the one is lighter than the other's. -/
theorem groups_eq_of_le {gs hs : List (List α)}
    (h : List.Forall₂ (fun g g' => weight w g ≤ weight w g') gs hs)
    (hflat : gs.flatten = hs.flatten) (hpos : ∀ x ∈ hs.flatten, 0 < w x) : gs = hs := by
  induction h with
  | nil => rfl
  | @cons g g' gs hs hg hrest ih =>
    rw [List.flatten_cons, List.flatten_cons] at hflat
    have hle := weight_flatten_le hrest
    -- the longer of the two first groups exceeds the other by nothing
    obtain ⟨hfirst, hflat⟩ : g = g' ∧ gs.flatten = hs.flatten := by
      rcases List.append_eq_append_iff.1 hflat with ⟨more, rfl, hgs⟩ | ⟨more, rfl, hhs⟩
      · have hmore : more = [] := by
          refine eq_nil_of_weight (w := w) (fun x hx => hpos x ?_) ?_
          · rw [List.flatten_cons]
            exact List.mem_append_left _ (List.mem_append_right _ hx)
          · rw [hgs, weight_append] at hle
            omega
        rw [hmore] at hgs ⊢
        exact ⟨(List.append_nil _).symm, hgs⟩
      · have hmore : more = [] := by
          refine eq_nil_of_weight (w := w) (fun x hx => hpos x ?_) ?_
          · rw [List.flatten_cons, hhs]
            exact List.mem_append_right _ (List.mem_append_left _ hx)
          · rw [weight_append] at hg
            omega
        rw [hmore] at hhs ⊢
        exact ⟨List.append_nil _, hhs.symm⟩
    rw [hfirst, ih hflat fun x hx => hpos x (List.mem_append_right _ hx)]

end Grouping
