import Mathlib.Data.List.Basic
import Mathlib.Data.List.Infix

/-!
# Fixed windows behind a two-token preamble

A receiver hunts a stream for the preamble `p q` and then takes the next `n` tokens as one window,
whatever they are. `Hunt` is where it stands, `windows` what it has cut out. Windows that stand
back to back are cut out one by one (`windows_flatMap`), tokens without a preamble are passed over
(`windows_of_no_preamble`), and `Cuts` says without a machine where the windows of a stream lie.
-/

/-- Where the receiver stands: hunting, behind a `p`, or inside a window with what it has. -/
inductive Hunt (α : Type*) where
  | idle
  | half
  | inside (got : List α)
  deriving DecidableEq

namespace Hunt

variable {α : Type*} [DecidableEq α] (p q : α) (n : ℕ)

/-- One token. -/
def next : Hunt α → α → Hunt α
  | .idle, a => if a = p then .half else .idle
  | .half, a => if a = q then .inside [] else if a = p then .half else .idle
  | .inside got, a => if got.length + 1 = n then .idle else .inside (got ++ [a])

/-- The window a token completes. -/
def complete : Hunt α → α → List (List α)
  | .inside got, a => if got.length + 1 = n then [got ++ [a]] else []
  | _, _ => []

/-- Where the receiver stands after some tokens. -/
def after (s : Hunt α) (as : List α) : Hunt α := as.foldl (next p q n) s

/-- The windows completed by some tokens. -/
def windows (s : Hunt α) : List α → List (List α)
  | [] => []
  | a :: as => complete n s a ++ windows (next p q n s a) as

@[simp] theorem after_nil (s : Hunt α) : after p q n s [] = s := rfl

@[simp] theorem after_cons (s : Hunt α) (a : α) (as : List α) :
    after p q n s (a :: as) = after p q n (next p q n s a) as := rfl

theorem after_append (s : Hunt α) (as bs : List α) :
    after p q n s (as ++ bs) = after p q n (after p q n s as) bs := List.foldl_append

theorem windows_append (s : Hunt α) (as bs : List α) :
    windows p q n s (as ++ bs) = windows p q n s as ++ windows p q n (after p q n s as) bs := by
  induction as generalizing s with
  | nil => rfl
  | cons a as ih => rw [List.cons_append, windows, windows, ih, List.append_assoc, after_cons]

variable {p q n}

/-! ## Inside a window -/

/-- Tokens that do not fill the window are collected. -/
theorem inside_short {got as : List α} (h : got.length + as.length < n) :
    after p q n (inside got) as = inside (got ++ as) ∧ windows p q n (inside got) as = [] := by
  induction as generalizing got with
  | nil => exact ⟨by rw [List.append_nil]; rfl, rfl⟩
  | cons a as ih =>
    rw [List.length_cons] at h
    have hne : got.length + 1 ≠ n := by omega
    have hlen : (got ++ [a]).length + as.length < n := by
      rw [List.length_append, List.length_singleton]
      omega
    obtain ⟨hafter, hwins⟩ := ih hlen
    rw [after_cons, windows, next, complete, if_neg hne, if_neg hne, hafter, hwins]
    exact ⟨by rw [List.append_assoc, List.singleton_append], rfl⟩

/-- The tokens that fill it end it. -/
theorem inside_full {got as : List α} (hne : as ≠ []) (h : got.length + as.length = n) :
    after p q n (inside got) as = idle ∧ windows p q n (inside got) as = [got ++ as] := by
  obtain ⟨init, a, rfl⟩ : ∃ init a, as = init ++ [a] :=
    ⟨as.dropLast, as.getLast hne, (List.dropLast_append_getLast hne).symm⟩
  rw [List.length_append, List.length_singleton] at h
  obtain ⟨hafter, hwins⟩ := inside_short (p := p) (q := q) (show got.length + init.length < n by omega)
  have hlast : (got ++ init).length + 1 = n := by
    rw [List.length_append]
    omega
  rw [after_append, windows_append, hafter, hwins, after_cons, after_nil, windows, windows, next,
    complete, if_pos hlast, if_pos hlast]
  exact ⟨rfl, by rw [List.append_assoc]; rfl⟩

/-! ## Windows behind their preamble -/

/-- Not inside a window. -/
def Hunting (s : Hunt α) : Prop := s = idle ∨ s = half

/-- The preamble opens a window wherever the receiver hunts. -/
theorem next_preamble {s : Hunt α} (hpq : p ≠ q) (hs : Hunting s) (as : List α) :
    after p q n s (p :: q :: as) = after p q n (inside []) as ∧
      windows p q n s (p :: q :: as) = windows p q n (inside []) as := by
  have hp : next p q n s p = half := by
    rcases hs with rfl | rfl
    · exact if_pos rfl
    · exact (if_neg hpq).trans (if_pos rfl)
  have hq : next p q n half q = inside [] := if_pos rfl
  have hnone : complete n s p = [] := by rcases hs with rfl | rfl <;> rfl
  constructor
  · rw [after_cons, after_cons, hp, hq]
  · rw [windows, windows, hp, hq, hnone]
    rfl

/-- A window behind its preamble is cut out. -/
theorem frame {s : Hunt α} (hpq : p ≠ q) (hn : 0 < n) (hs : Hunting s) {w : List α}
    (hw : w.length = n) :
    after p q n s (p :: q :: w) = idle ∧ windows p q n s (p :: q :: w) = [w] := by
  have hne : w ≠ [] := List.length_pos_iff.mp (hw ▸ hn)
  obtain ⟨hafter, hwins⟩ := next_preamble (n := n) hpq hs w
  rw [hafter, hwins]
  exact inside_full hne (by rwa [List.length_nil, Nat.zero_add])

/-- Windows back to back are cut out one by one. -/
theorem windows_flatMap {s : Hunt α} (hpq : p ≠ q) (hn : 0 < n) (hs : Hunting s)
    {ws : List (List α)} (hws : ∀ w ∈ ws, w.length = n) :
    windows p q n s (ws.flatMap fun w => p :: q :: w) = ws ∧
      Hunting (after p q n s (ws.flatMap fun w => p :: q :: w)) := by
  induction ws generalizing s with
  | nil => exact ⟨rfl, hs⟩
  | cons w ws ih =>
    obtain ⟨hafter, hwins⟩ := frame hpq hn hs (hws w List.mem_cons_self)
    obtain ⟨hrest, hend⟩ := ih (s := idle) (.inl rfl) fun v hv => hws v (List.mem_cons_of_mem _ hv)
    rw [List.flatMap_cons, windows_append, after_append, hafter, hwins, hrest]
    exact ⟨rfl, hend⟩

theorem after_flatMap (hpq : p ≠ q) (hn : 0 < n) {ws : List (List α)}
    (hws : ∀ w ∈ ws, w.length = n) :
    after p q n idle (ws.flatMap fun w => p :: q :: w) = idle := by
  induction ws with
  | nil => rfl
  | cons w ws ih =>
    rw [List.flatMap_cons, after_append, (frame hpq hn (.inl rfl) (hws w List.mem_cons_self)).1]
    exact ih fun v hv => hws v (List.mem_cons_of_mem _ hv)

/-- Behind a `p`, a token that is not `q` counts as if there had been no `p`. -/
theorem windows_half {a : α} (ha : a ≠ q) (as : List α) :
    windows p q n half (a :: as) = windows p q n idle (a :: as) := by
  rw [windows, windows, next, next, if_neg ha]
  rfl

/-! ## Tokens without a preamble -/

omit [DecidableEq α] in
theorem no_preamble_tail {a : α} {as : List α} (h : ¬ [p, q] <:+: a :: as) : ¬ [p, q] <:+: as :=
  fun hin => h (hin.trans (List.suffix_cons a as).isInfix)

/-- Without a preamble the receiver never enters a window. -/
theorem no_preamble {as : List α} (h : ¬ [p, q] <:+: as) :
    windows p q n idle as = [] ∧ Hunting (after p q n idle as) ∧
      (as.head? ≠ some q → windows p q n half as = [] ∧ Hunting (after p q n half as)) := by
  induction as with
  | nil => exact ⟨rfl, .inl rfl, fun _ => ⟨rfl, .inr rfl⟩⟩
  | cons a as ih =>
    obtain ⟨hidle, hend, hhalf⟩ := ih (no_preamble_tail h)
    -- behind a `p` the next token is not `q`
    have hbehind : a = p → windows p q n half as = [] ∧ Hunting (after p q n half as) := by
      rintro rfl
      apply hhalf
      intro hq
      obtain ⟨t, rfl⟩ := List.head?_eq_some_iff.mp hq
      exact h ⟨[], t, rfl⟩
    have hnext : windows p q n (if a = p then half else idle) as = [] ∧
        Hunting (after p q n (if a = p then half else idle) as) := by
      split
      · exact hbehind ‹_›
      · exact ⟨hidle, hend⟩
    refine ⟨hnext.1, hnext.2, fun hq => ?_⟩
    have hne : a ≠ q := fun haq => hq (by rw [haq, List.head?_cons])
    rw [windows, after_cons, next, if_neg hne]
    exact hnext

theorem windows_of_no_preamble {as : List α} (h : ¬ [p, q] <:+: as) :
    windows p q n idle as = [] := (no_preamble h).1

theorem hunting_of_no_preamble {as : List α} (h : ¬ [p, q] <:+: as) :
    Hunting (after p q n idle as) := (no_preamble (n := n) h).2.1

/-! ## Where the windows lie -/

variable (p q n) in
/-- The windows of a stream: behind its first preamble the next `n` tokens, and so on behind
those; a window the stream breaks off is none. -/
inductive Cuts : List α → List (List α) → Prop where
  | done {as : List α} : ¬ [p, q] <:+: as → Cuts as []
  | broken {gap w : List α} : ¬ [p, q] <:+: gap → w.length < n → Cuts (gap ++ p :: q :: w) []
  | window {gap w as : List α} {ws : List (List α)} : ¬ [p, q] <:+: gap → w.length = n →
      Cuts as ws → Cuts (gap ++ p :: q :: (w ++ as)) (w :: ws)

/-- The receiver cuts out exactly these. -/
theorem Cuts.windows_eq (hpq : p ≠ q) (hn : 0 < n) {as : List α} {ws : List (List α)}
    (h : Cuts p q n as ws) : windows p q n idle as = ws := by
  induction h with
  | done hgap => exact windows_of_no_preamble hgap
  | @broken gap w hgap hw =>
    rw [windows_append, windows_of_no_preamble hgap,
      (next_preamble hpq (hunting_of_no_preamble hgap) w).2,
      (inside_short (by rwa [List.length_nil, Nat.zero_add])).2]
    rfl
  | @window gap w as ws hgap hw _ ih =>
    obtain ⟨hafter, hwins⟩ := frame hpq hn (hunting_of_no_preamble hgap) hw
    have hsplit : gap ++ p :: q :: (w ++ as) = gap ++ ((p :: q :: w) ++ as) := rfl
    rw [hsplit, windows_append, windows_of_no_preamble hgap, windows_append, hafter, hwins, ih]
    rfl

omit [DecidableEq α] in
/-- The first preamble of a stream. -/
theorem exists_first_preamble {as : List α} (h : [p, q] <:+: as) :
    ∃ gap rest, as = gap ++ p :: q :: rest ∧ ¬ [p, q] <:+: gap := by
  induction as with
  | nil => exact absurd (List.infix_nil.mp h) (List.cons_ne_nil _ _)
  | cons a as ih =>
    rcases List.infix_cons_iff.mp h with hpre | hin
    · obtain ⟨t, ht⟩ := hpre
      exact ⟨[], t, ht.symm, fun hgap => absurd (List.infix_nil.mp hgap) (List.cons_ne_nil _ _)⟩
    · obtain ⟨gap, rest, rfl, hgap⟩ := ih hin
      by_cases hfront : [p, q] <+: a :: (gap ++ p :: q :: rest)
      · obtain ⟨t, ht⟩ := hfront
        exact ⟨[], t, ht.symm, fun h0 => absurd (List.infix_nil.mp h0) (List.cons_ne_nil _ _)⟩
      · refine ⟨a :: gap, rest, rfl, fun hin => ?_⟩
        rcases List.infix_cons_iff.mp hin with hpre | hin'
        · exact hfront (hpre.trans (List.prefix_append (a :: gap) (p :: q :: rest)))
        · exact hgap hin'

/-- Every stream has its windows. -/
theorem exists_cuts (hpq : p ≠ q) (hn : 0 < n) (as : List α) : ∃ ws, Cuts p q n as ws := by
  by_cases h : [p, q] <:+: as
  case neg => exact ⟨[], .done h⟩
  case pos =>
    obtain ⟨gap, rest, rfl, hgap⟩ := exists_first_preamble h
    rcases Nat.lt_or_ge rest.length n with hlt | hge
    · exact ⟨[], .broken hgap hlt⟩
    · obtain ⟨ws, hws⟩ := exists_cuts hpq hn (rest.drop n)
      have hlen : (rest.take n).length = n := List.length_take_of_le hge
      have hcut := Cuts.window hgap hlen hws
      rw [List.take_append_drop] at hcut
      exact ⟨rest.take n :: ws, hcut⟩
termination_by as.length
decreasing_by
  subst_vars
  rw [List.length_append, List.length_cons, List.length_cons, List.length_drop]
  omega

theorem cuts_iff (hpq : p ≠ q) (hn : 0 < n) {as : List α} {ws : List (List α)} :
    Cuts p q n as ws ↔ windows p q n idle as = ws := by
  constructor
  · exact Cuts.windows_eq hpq hn
  · rintro rfl
    obtain ⟨ws, hws⟩ := exists_cuts hpq hn as
    rwa [hws.windows_eq hpq hn]

end Hunt
