import ItchOrderbook.Lib.CheckedState
import Mathlib.Data.List.Basic

/-!
# Readers that read exactly an encoding

A reader takes a value off the front of a list or fails. `Reads r ok enc` says that it succeeds
precisely on the encodings of the values with `ok`, and leaves what follows: this is soundness
and completeness in one statement, and reading in sequence is concatenating encodings.
-/

namespace ExactReader

open CheckedState

variable {β ε α γ : Type}

/-- `r` returns a value exactly when the value's encoding stands in front. -/
def Reads (r : StateT (List β) (Except ε) α) (ok : α → Prop) (enc : α → List β) : Prop :=
  ∀ p a p', r.run p = .ok (a, p') ↔ ok a ∧ p = enc a ++ p'

variable {r : StateT (List β) (Except ε) α} {ok : α → Prop} {enc : α → List β}

/-- A sequence returns when the first part's encoding stands in front and the second part
returns on what follows. -/
theorem Reads.bind_eq_ok (h : Reads r ok enc) {f : α → StateT (List β) (Except ε) γ}
    {p p' : List β} {c : γ} :
    (r >>= f).run p = .ok (c, p') ↔
      ∃ a q, (ok a ∧ p = enc a ++ q) ∧ (f a).run q = .ok (c, p') := by
  show (r.run p >>= fun x => (f x.1).run x.2) = _ ↔ _
  rw [CheckedState.bind_eq_ok]
  constructor
  · rintro ⟨⟨a, q⟩, ha, hf⟩
    exact ⟨a, q, (h p a q).1 ha, hf⟩
  · rintro ⟨a, q, ha, hf⟩
    exact ⟨(a, q), (h p a q).2 ha, hf⟩

/-- Returning a value reads nothing. -/
theorem pure_eq_ok {a b : α} {p p' : List β} :
    (pure a : StateT (List β) (Except ε) α).run p = .ok (b, p') ↔ a = b ∧ p = p' := by
  show Except.ok (a, p) = Except.ok (b, p') ↔ _
  rw [Except.ok.injEq, Prod.mk.injEq]

/-- Another view of the values that were read. -/
theorem Reads.map (h : Reads r ok enc) {g : α → γ} {g' : γ → α} (hleft : ∀ a, g' (g a) = a)
    (hright : ∀ c, g (g' c) = c) : Reads (g <$> r) (ok ∘ g') (enc ∘ g') := by
  intro p c p'
  rw [map_eq_pure_bind, h.bind_eq_ok]
  constructor
  · rintro ⟨a, q, ha, hpure⟩
    obtain ⟨rfl, rfl⟩ := pure_eq_ok.1 hpure
    rw [Function.comp_apply, Function.comp_apply, hleft]
    exact ha
  · intro hc
    exact ⟨g' c, p', hc, pure_eq_ok.2 ⟨hright c, rfl⟩⟩

/-- Reading a number of values one after the other. -/
theorem Reads.many (h : Reads r ok enc) {rs : ℕ → StateT (List β) (Except ε) (List α)}
    (hzero : rs 0 = pure [])
    (hsucc : ∀ n, rs (n + 1) = r >>= fun a => rs n >>= fun as => pure (a :: as)) (n : ℕ) :
    Reads (rs n) (fun as => as.length = n ∧ ∀ a ∈ as, ok a) fun as => as.flatMap enc := by
  have hflat : ∀ a as (q : List β),
      (a :: as).flatMap enc ++ q = enc a ++ (as.flatMap enc ++ q) := by
    intro a as q
    rw [List.flatMap_cons, List.append_assoc]
  induction n with
  | zero =>
    intro p as p'
    rw [hzero, pure_eq_ok]
    constructor
    · rintro ⟨rfl, rfl⟩
      simp
    · rintro ⟨⟨hlen, -⟩, rfl⟩
      obtain rfl := List.length_eq_zero_iff.1 hlen
      simp
  | succ n ih =>
    intro p as p'
    rw [hsucc, h.bind_eq_ok]
    constructor
    · rintro ⟨a, q, ⟨ha, rfl⟩, hrest⟩
      obtain ⟨as', q', ⟨⟨hlen, hall⟩, rfl⟩, hpure⟩ := ih.bind_eq_ok.1 hrest
      obtain ⟨rfl, rfl⟩ := pure_eq_ok.1 hpure
      refine ⟨⟨?_, List.forall_mem_cons.2 ⟨ha, hall⟩⟩, (hflat a as' q').symm⟩
      rw [List.length_cons, hlen]
    · rintro ⟨⟨hlen, hall⟩, rfl⟩
      cases as with
      | nil => simp at hlen
      | cons a as =>
        obtain ⟨ha, hall⟩ := List.forall_mem_cons.1 hall
        refine ⟨a, as.flatMap enc ++ p', ⟨ha, hflat a as p'⟩, ?_⟩
        rw [ih.bind_eq_ok]
        refine ⟨as, p', ⟨⟨?_, hall⟩, rfl⟩, pure_eq_ok.2 ⟨rfl, rfl⟩⟩
        rw [List.length_cons] at hlen
        omega

end ExactReader
