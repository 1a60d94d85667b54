import ItchOrderbook.Lib.Settling
import ItchOrderbook.Lib.StreamMachine
import Mathlib.Logic.Function.Iterate

/-!
# Machines in a row

Two machines are wired so that in each cycle the tokens the first gives are those the second takes;
the whole is a machine again. What each of the two keeps, the whole keeps, with some tokens in
between that nobody loses (`Keeps.chain`). When nothing comes in any more the row drains
(`leads_chain`): the first moves on whenever the second is at rest, and as long as it gives nothing
the second gets to rest.
-/

/-- What a machine keeps in every cycle with legal inputs whose tokens are good: a relation between
its state, what was taken and what was given. What it gives is good in its turn. -/
structure StreamMachine.Keeps {S I α β : Type*} (m : StreamMachine S I α β) (Ok : I → Prop)
    (Good : α → Prop) (Good' : β → Prop) (Inv : S → List α → List β → Prop) : Prop where
  step : ∀ {s as bs i}, Ok i → (∀ a ∈ m.taken s i, Good a) → Inv s as bs →
    Inv (m.step s i) (as ++ m.taken s i) (bs ++ m.given s i)
  given : ∀ {s as bs i}, Ok i → (∀ a ∈ m.taken s i, Good a) → Inv s as bs →
    ∀ b ∈ m.given s i, Good' b

/-- Runs. -/
theorem StreamMachine.Keeps.run {S I α β : Type*} {m : StreamMachine S I α β} {Ok : I → Prop}
    {Good : α → Prop} {Good' : β → Prop} {Inv : S → List α → List β → Prop}
    (h : m.Keeps Ok Good Good' Inv) {s : S} {as : List α} {bs : List β} (hs : Inv s as bs)
    (is : List I) (hok : ∀ i ∈ is, Ok i) (hgood : ∀ a ∈ m.allTaken s is, Good a) :
    Inv (m.run s is) (as ++ m.allTaken s is) (bs ++ m.allGiven s is) := by
  induction is generalizing s as bs with
  | nil =>
    rw [allTaken, allGiven, List.append_nil, List.append_nil]
    exact hs
  | cons i is ih =>
    obtain ⟨hi, his⟩ := List.forall_mem_cons.1 hok
    have hnow := h.step hi (fun a ha => hgood a (List.mem_append_left _ ha)) hs
    have hrest := ih hnow his fun a ha => hgood a (List.mem_append_right _ ha)
    rwa [List.append_assoc, List.append_assoc] at hrest

/-- How two machines are wired: the inputs of each in a cycle, and that they agree on the tokens. -/
structure StreamChain {S₁ S₂ I₁ I₂ α β γ : Type*} (m₁ : StreamMachine S₁ I₁ α β)
    (m₂ : StreamMachine S₂ I₂ β γ) (I : Type*) where
  in₁ : S₁ → S₂ → I → I₁
  in₂ : S₁ → S₂ → I → I₂
  handshake : ∀ s₁ s₂ i, m₁.given s₁ (in₁ s₁ s₂ i) = m₂.taken s₂ (in₂ s₁ s₂ i)

namespace StreamChain

variable {S₁ S₂ I₁ I₂ I α β γ : Type*} {m₁ : StreamMachine S₁ I₁ α β}
  {m₂ : StreamMachine S₂ I₂ β γ}

/-- The two as one machine. -/
def machine (c : StreamChain m₁ m₂ I) : StreamMachine (S₁ × S₂) I α γ where
  step s i := (m₁.step s.1 (c.in₁ s.1 s.2 i), m₂.step s.2 (c.in₂ s.1 s.2 i))
  taken s i := m₁.taken s.1 (c.in₁ s.1 s.2 i)
  given s i := m₂.given s.2 (c.in₂ s.1 s.2 i)

/-- The two relations, with the same tokens in between. -/
def Linked (Inv₁ : S₁ → List α → List β → Prop) (Inv₂ : S₂ → List β → List γ → Prop) (s : S₁ × S₂)
    (as : List α) (cs : List γ) : Prop :=
  ∃ bs, Inv₁ s.1 as bs ∧ Inv₂ s.2 bs cs

/-- **In between nothing is lost.** -/
theorem keeps (c : StreamChain m₁ m₂ I) {Ok₁ : I₁ → Prop} {Ok₂ : I₂ → Prop} {Ok : I → Prop}
    {Good₁ : α → Prop} {Good₂ : β → Prop} {Good₃ : γ → Prop}
    {Inv₁ : S₁ → List α → List β → Prop} {Inv₂ : S₂ → List β → List γ → Prop}
    (h₁ : m₁.Keeps Ok₁ Good₁ Good₂ Inv₁) (h₂ : m₂.Keeps Ok₂ Good₂ Good₃ Inv₂)
    (hok : ∀ s₁ s₂ i, Ok i → Ok₁ (c.in₁ s₁ s₂ i) ∧ Ok₂ (c.in₂ s₁ s₂ i)) :
    c.machine.Keeps Ok Good₁ Good₃ (Linked Inv₁ Inv₂) where
  step {s as cs i} hi hgood := by
    rintro ⟨bs, hs₁, hs₂⟩
    obtain ⟨hi₁, hi₂⟩ := hok s.1 s.2 i hi
    have hbetween := h₁.given hi₁ hgood hs₁
    have hnow := h₁.step hi₁ hgood hs₁
    rw [c.handshake] at hbetween hnow
    exact ⟨_, hnow, h₂.step hi₂ hbetween hs₂⟩
  given {s as cs i} hi hgood := by
    rintro ⟨bs, hs₁, hs₂⟩
    obtain ⟨hi₁, hi₂⟩ := hok s.1 s.2 i hi
    have hbetween := h₁.given hi₁ hgood hs₁
    rw [c.handshake] at hbetween
    exact h₂.given hi₂ hbetween hs₂

/-- **A row drains.** `work` is a cycle in which nothing comes in, `work₂` one in which nothing
comes to the second. Either the first moves on, or the second is left alone; when the second is at
rest the first does move on. Induction on how far the first is from rest, and for each of these on
the way of the second. -/
theorem leads_chain {work : S₁ × S₂ → S₁ × S₂} {Inv : S₁ × S₂ → Prop} (work₂ : S₂ → S₂)
    (rank : S₁ → ℕ) (Rest₂ : S₂ → Prop) (hinv : ∀ s, Inv s → Inv (work s))
    (hsecond : ∀ s, Inv s → Leads work₂ (fun _ => True) Rest₂ s.2)
    (hfirst : ∀ s, Inv s → rank (work s).1 < rank s.1 ∨
      rank (work s).1 ≤ rank s.1 ∧ (work s).2 = work₂ s.2)
    (hready : ∀ s, Inv s → Rest₂ s.2 → rank s.1 ≠ 0 → rank (work s).1 < rank s.1) (s : S₁ × S₂)
    (hs : Inv s) : Leads work (fun _ => True) (fun s => rank s.1 = 0 ∧ Rest₂ s.2) s := by
  induction hn : rank s.1 using Nat.strongRecOn generalizing s with
  | ind n ihn =>
    -- the way of the second, until the first moves on
    have hway (t : S₂) (ht : Leads work₂ (fun _ => True) Rest₂ t) (s : S₁ × S₂) (hs : Inv s)
        (hle : rank s.1 ≤ n) (heq : s.2 = t) :
        Leads work (fun _ => True) (fun s => rank s.1 = 0 ∧ Rest₂ s.2) s := by
      induction ht generalizing s with
      | @here t hrest =>
        subst heq
        by_cases h0 : rank s.1 = 0
        · exact .here ⟨h0, hrest⟩
        · have hlt := hready s hs hrest h0
          exact .next trivial (ihn _ (Nat.lt_of_lt_of_le hlt hle) _ (hinv s hs) rfl)
      | @next t _ _ ih =>
        subst heq
        refine .next trivial ?_
        rcases hfirst s hs with hlt | ⟨hnow, hwork⟩
        · exact ihn _ (Nat.lt_of_lt_of_le hlt hle) _ (hinv s hs) rfl
        · exact ih _ (hinv s hs) (Nat.le_trans hnow hle) hwork
    exact hway s.2 (hsecond s hs) s hs (Nat.le_of_eq hn) rfl

end StreamChain

/-- Where a machine leads it is after some cycles. -/
theorem Leads.iterate {S : Type*} {work : S → S} {busy P : S → Prop} {s : S}
    (h : Leads work busy P s) : ∃ n, P (work^[n] s) := by
  induction h with
  | here h => exact ⟨0, h⟩
  | next _ _ ih =>
    obtain ⟨n, hn⟩ := ih
    exact ⟨n + 1, hn⟩

/-- Where a machine leads it stays when it keeps an invariant under which `P` lasts; with every
further cycle `Q` holds as well. -/
theorem Leads.eventually {S : Type*} {work : S → S} {busy P : S → Prop} {s : S}
    (h : Leads work busy P s) (Inv Q : S → Prop) (hs : Inv s) (hinv : ∀ s, Inv s → Inv (work s))
    (hlast : ∀ s, Inv s → P s → P (work s) ∧ Q (work s)) :
    ∃ n, ∀ k, n ≤ k → P (work^[k] s) ∧ Q (work^[k] s) := by
  have hkeeps (n : ℕ) : Inv (work^[n] s) := by
    induction n with
    | zero => exact hs
    | succ n ih =>
      rw [Function.iterate_succ_apply']
      exact hinv _ ih
  obtain ⟨n, hn⟩ := h.iterate
  have hstays (j : ℕ) : P (work^[n + 1 + j] s) ∧ Q (work^[n + 1 + j] s) := by
    induction j with
    | zero =>
      rw [Nat.add_zero, Function.iterate_succ_apply']
      exact hlast _ (hkeeps n) hn
    | succ j ih =>
      rw [← Nat.add_assoc, Function.iterate_succ_apply']
      exact hlast _ (hkeeps _) ih.1
  refine ⟨n + 1, fun k hk => ?_⟩
  obtain ⟨j, rfl⟩ := Nat.exists_eq_add_of_le hk
  exact hstays j
