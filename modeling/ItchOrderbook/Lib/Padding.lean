import Mathlib.Data.List.DropRight

/-!
# Padded text

`strip p` takes off the ends of a list what satisfies `p`; a list is `Trimmed` when there is
nothing to take. A trimmed list is what `strip` makes of the list padded on the right
(`strip_pad`), and padding keeps lists apart that do not end with the pad (`pad_inj`).
-/

namespace Padding

variable {α : Type*} (p : α → Bool)

/-- Both ends without what satisfies `p`. -/
def strip (l : List α) : List α := (l.dropWhile p).rdropWhile p

/-- Neither end satisfies `p`. -/
structure Trimmed (l : List α) : Prop where
  first : ∀ a ∈ l.head?, p a = false
  last : ∀ a ∈ l.getLast?, p a = false

variable {p}

theorem Trimmed.dropWhile_eq {l : List α} (h : Trimmed p l) (tail : List α) (hne : l ≠ []) :
    (l ++ tail).dropWhile p = l ++ tail := by
  cases l with
  | nil => exact absurd rfl hne
  | cons a l =>
    have ha : p a = false := h.first a rfl
    rw [List.cons_append, List.dropWhile_cons_of_neg (Bool.eq_false_iff.1 ha)]

theorem Trimmed.rdropWhile_eq {l : List α} (h : Trimmed p l) : l.rdropWhile p = l := by
  rw [List.rdropWhile_eq_self_iff]
  intro hne
  exact Bool.eq_false_iff.1 (h.last _ (List.getLast?_eq_some_getLast hne))

/-- A pad of what satisfies `p` is dropped. -/
theorem rdropWhile_pad {x : α} (hx : p x = true) (l : List α) (k : ℕ) :
    (l ++ List.replicate k x).rdropWhile p = l.rdropWhile p := by
  induction k with
  | zero => rw [List.replicate_zero, List.append_nil]
  | succ k ih => rw [List.replicate_succ', ← List.append_assoc, List.rdropWhile_concat_pos _ _ _ hx,
      ih]

theorem strip_pad {l : List α} (h : Trimmed p l) {x : α} (hx : p x = true) (k : ℕ) :
    strip p (l ++ List.replicate k x) = l := by
  cases l with
  | nil =>
    have hall : (List.replicate k x).dropWhile p = [] := by
      rw [List.dropWhile_eq_nil_iff]
      intro y hy
      rw [List.eq_of_mem_replicate hy]
      exact hx
    rw [strip, List.nil_append, hall]
    rfl
  | cons a l =>
    rw [strip, h.dropWhile_eq _ (List.cons_ne_nil a l), rdropWhile_pad hx, h.rdropWhile_eq]

theorem trimmed_strip (l : List α) : Trimmed p (strip p l) := by
  constructor
  · intro a ha
    -- the first element of a prefix is the first element
    obtain ⟨t, ht⟩ := List.rdropWhile_prefix p (l.dropWhile p)
    have hhead : a ∈ (l.dropWhile p).head? := by
      rw [← ht]
      exact List.mem_head?_append_of_mem_head? ha
    have hnot := List.head?_dropWhile_not p l
    rw [Option.mem_def.1 hhead] at hnot
    exact hnot
  · intro a ha
    have hne : strip p l ≠ [] := by
      intro h
      rw [h] at ha
      cases ha
    have hlast := List.rdropWhile_last_not p (l.dropWhile p) hne
    rw [Option.mem_def, List.getLast?_eq_some_getLast hne] at ha
    cases ha
    exact Bool.eq_false_iff.2 hlast

/-- What is stripped satisfies `p`. -/
theorem mem_strip_or {l : List α} {a : α} (h : a ∈ l) : a ∈ strip p l ∨ p a = true := by
  rw [← List.takeWhile_append_dropWhile (p := p) (l := l), List.mem_append] at h
  rcases h with hfront | hmid
  · exact .inr (List.mem_takeWhile_imp hfront)
  · rw [← List.rdropWhile_append_rtakeWhile (p := p) (l := l.dropWhile p),
      List.mem_append] at hmid
    exact hmid.imp_right List.mem_rtakeWhile_imp

/-- Padding to one list means one list, for lists that do not end with the pad. -/
theorem pad_inj [DecidableEq α] {x : α} {l l' : List α} {k k' : ℕ}
    (h : l ++ List.replicate k x = l' ++ List.replicate k' x)
    (hl : ∀ a ∈ l.getLast?, a ≠ x) (hl' : ∀ a ∈ l'.getLast?, a ≠ x) : l = l' := by
  have hself (m : List α) (hm : ∀ a ∈ m.getLast?, a ≠ x) :
      m.rdropWhile (fun a => decide (a = x)) = m := by
    rw [List.rdropWhile_eq_self_iff]
    intro hne heq
    exact hm _ (List.getLast?_eq_some_getLast hne) (of_decide_eq_true heq)
  have hdrop (m : List α) (j : ℕ) : (m ++ List.replicate j x).rdropWhile (fun a => decide (a = x)) =
      m.rdropWhile fun a => decide (a = x) :=
    rdropWhile_pad (p := fun a => decide (a = x)) (decide_eq_true rfl) m j
  have hpad := congrArg (List.rdropWhile fun a => decide (a = x)) h
  rwa [hdrop, hdrop, hself l hl, hself l' hl'] at hpad

end Padding
