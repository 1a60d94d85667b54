import Mathlib.Data.List.Basic

/-!
# Clocked machines between two handshakes

A machine that takes tokens from one side and gives tokens to the other. In each cycle its inputs
decide how many tokens change hands, none or more. `run_inv` carries a relation between the state,
what was taken and what was given along any run; `rank_run` bounds the ready cycles after which a
machine that takes nothing more is at rest.
-/

/-- A machine with states `S` and the inputs `I` of one cycle, which takes tokens `α` and gives
tokens `β`. -/
structure StreamMachine (S I α β : Type*) where
  step : S → I → S
  taken : S → I → List α
  given : S → I → List β

namespace StreamMachine

variable {S I α β : Type*} (m : StreamMachine S I α β)

/-- The state after some cycles. -/
def run (s : S) (is : List I) : S := is.foldl m.step s

/-- Everything taken over some cycles. -/
def allTaken (s : S) : List I → List α
  | [] => []
  | i :: is => m.taken s i ++ allTaken (m.step s i) is

/-- Everything given over some cycles. -/
def allGiven (s : S) : List I → List β
  | [] => []
  | i :: is => m.given s i ++ allGiven (m.step s i) is

@[simp] theorem run_nil (s : S) : m.run s [] = s := rfl

@[simp] theorem run_cons (s : S) (i : I) (is : List I) :
    m.run s (i :: is) = m.run (m.step s i) is := rfl

theorem run_append (s : S) (is js : List I) : m.run s (is ++ js) = m.run (m.run s is) js :=
  List.foldl_append

theorem allTaken_append (s : S) (is js : List I) :
    m.allTaken s (is ++ js) = m.allTaken s is ++ m.allTaken (m.run s is) js := by
  induction is generalizing s with
  | nil => rfl
  | cons i is ih => rw [List.cons_append, allTaken, allTaken, ih, List.append_assoc, run_cons]

theorem allGiven_append (s : S) (is js : List I) :
    m.allGiven s (is ++ js) = m.allGiven s is ++ m.allGiven (m.run s is) js := by
  induction is generalizing s with
  | nil => rfl
  | cons i is ih => rw [List.cons_append, allGiven, allGiven, ih, List.append_assoc, run_cons]

variable {m}

/-- What one cycle preserves holds along every run whose tokens are good. -/
theorem run_inv {Inv : S → List α → List β → Prop} {Good : α → Prop}
    (hstep : ∀ s as bs i, (∀ a ∈ m.taken s i, Good a) → Inv s as bs →
      Inv (m.step s i) (as ++ m.taken s i) (bs ++ m.given s i))
    {s : S} {as : List α} {bs : List β} (h : Inv s as bs) (is : List I)
    (hgood : ∀ a ∈ m.allTaken s is, Good a) :
    Inv (m.run s is) (as ++ m.allTaken s is) (bs ++ m.allGiven s is) := by
  induction is generalizing s as bs with
  | nil => rwa [allTaken, allGiven, List.append_nil, List.append_nil]
  | cons i is ih =>
    have hnow := hstep s as bs i (fun a ha => hgood a (List.mem_append_left _ ha)) h
    have hrest := ih hnow fun a ha => hgood a (List.mem_append_right _ ha)
    rwa [List.append_assoc, List.append_assoc] at hrest

/-- Over cycles that take nothing the rank falls by the number of ready ones. -/
theorem rank_run {Ok : S → Prop} {rank : S → ℕ} {ready : I → Bool}
    (hok : ∀ s i, Ok s → m.taken s i = [] → Ok (m.step s i))
    (hrank : ∀ s i, Ok s → m.taken s i = [] →
      rank (m.step s i) ≤ rank s - if ready i then 1 else 0)
    {s : S} (h : Ok s) {is : List I} (hnone : m.allTaken s is = []) :
    rank (m.run s is) ≤ rank s - is.countP ready := by
  induction is generalizing s with
  | nil => exact Nat.le_refl _
  | cons i is ih =>
    obtain ⟨hi, his⟩ := List.append_eq_nil_iff.mp hnone
    have hnow := hrank s i h hi
    have hrest := ih (hok s i h hi) his
    rw [run_cons, List.countP_cons]
    omega

end StreamMachine
