import Mathlib.Init

/-!
# Computations that may fail

Small sets of rules, for any error type.

* `Except`: what a sequence that returns has passed through (`bind_eq_ok`).
* `StateT σ (Except ε)`: weakest preconditions. `wp c s Q E` says that `c` run from `s` either
  returns with `Q` or fails with `E`; with `E` false it cannot fail, with `E` true nothing is said
  about failing. `Keeps view c` says that `c` leaves a part of the state alone, and `Extends c c'`
  that `c'` returns what `c` returns wherever `c` returns.
-/

namespace CheckedState

variable {σ ε α β : Type}

/-! ## Sequences that return -/

theorem bind_eq_ok {x : Except ε α} {f : α → Except ε β} {b : β} :
    x >>= f = .ok b ↔ ∃ a, x = .ok a ∧ f a = .ok b := by
  cases x with
  | error e => simp [bind, Except.bind]
  | ok a => simp [bind, Except.bind]

/-! ## Weakest preconditions -/

/-- From `s`, `c` returns with `Q` or fails with `E`. -/
def wp (c : StateT σ (Except ε) α) (s : σ) (Q : α → σ → Prop) (E : ε → Prop) : Prop :=
  match c.run s with
  | .ok (a, s') => Q a s'
  | .error e => E e

variable {c : StateT σ (Except ε) α} {f : α → StateT σ (Except ε) β} {s : σ}
  {Q Q' : α → σ → Prop} {R : β → σ → Prop} {E E' : ε → Prop}

/-- The rule of consequence. -/
theorem wp_mono (h : wp c s Q E) (hQ : ∀ a s', Q a s' → Q' a s') (hE : ∀ e, E e → E' e) :
    wp c s Q' E' := by
  unfold wp at h ⊢
  split at h
  · exact hQ _ _ h
  · exact hE _ h

@[simp] theorem wp_pure (a : α) : wp (pure a) s Q E ↔ Q a s := Iff.rfl

@[simp] theorem wp_throw (e : ε) : wp (throw e : StateT σ (Except ε) α) s Q E ↔ E e := Iff.rfl

@[simp] theorem wp_get {Q : σ → σ → Prop} : wp (get : StateT σ (Except ε) σ) s Q E ↔ Q s s :=
  Iff.rfl

@[simp] theorem wp_set {Q : PUnit → σ → Prop} (s' : σ) :
    wp (set s' : StateT σ (Except ε) PUnit) s Q E ↔ Q ⟨⟩ s' := Iff.rfl

@[simp] theorem wp_modify {Q : PUnit → σ → Prop} (g : σ → σ) :
    wp (modify g : StateT σ (Except ε) PUnit) s Q E ↔ Q ⟨⟩ (g s) := Iff.rfl

/-- Sequencing: the second part starts where the first one ends. -/
@[simp] theorem wp_bind :
    wp (c >>= f) s R E ↔ wp c s (fun a s' => wp (f a) s' R E) E := by
  unfold wp
  show (match (c.run s >>= fun p => (f p.1).run p.2) with | .ok (a, s') => R a s' | .error e => E e)
    ↔ _
  cases c.run s with
  | error e => rfl
  | ok p => rfl

@[simp] theorem wp_map (g : α → β) :
    wp (g <$> c) s R E ↔ wp c s (fun a s' => R (g a) s') E := by
  rw [map_eq_pure_bind, wp_bind]
  rfl

theorem wp_ite {b : Prop} [Decidable b] {c' : StateT σ (Except ε) α} :
    wp (if b then c else c') s Q E ↔ (b → wp c s Q E) ∧ (¬b → wp c' s Q E) := by
  split
  · rename_i hb
    simp [hb]
  · rename_i hb
    simp [hb]

/-- The loop rule: an invariant that every iteration passes on. -/
theorem wp_foldlM {γ : Type} {g : β → γ → StateT σ (Except ε) β} {xs : List γ}
    (I : β → σ → Prop) {b : β} (h₀ : I b s)
    (hstep : ∀ x ∈ xs, ∀ b t, I b t → wp (g b x) t I E) : wp (xs.foldlM g b) s I E := by
  induction xs generalizing b s with
  | nil => exact h₀
  | cons x xs ih =>
    rw [List.foldlM_cons, wp_bind]
    refine wp_mono (hstep x List.mem_cons_self b s h₀) (fun a s' hI => ?_) fun _ => id
    exact ih hI fun y hy => hstep y (List.mem_cons_of_mem x hy)

/-- What is known of a returned value and state. -/
theorem wp_ok {a : α} {s' : σ} (h : wp c s Q E) (hc : c.run s = .ok (a, s')) : Q a s' := by
  unfold wp at h
  rw [hc] at h
  exact h

/-- A computation that cannot fail returns. -/
theorem wp_returns (h : wp c s Q E) (hE : ∀ e, ¬E e) :
    ∃ a s', c.run s = .ok (a, s') ∧ Q a s' := by
  unfold wp at h
  split at h
  · rename_i a s' hc
    exact ⟨a, s', hc, h⟩
  · exact absurd h (hE _)

/-! ## Frames -/

/-- Wherever `c` returns, what `view` shows of the state is as it was. -/
def Keeps {ν : Type} (view : σ → ν) (c : StateT σ (Except ε) α) : Prop :=
  ∀ s, wp c s (fun _ s' => view s' = view s) fun _ => True

section Frames

variable {ν : Type} {view : σ → ν}

theorem Keeps.pure (a : α) : Keeps view (pure a : StateT σ (Except ε) α) := fun _ => rfl

theorem Keeps.throw (e : ε) : Keeps view (throw e : StateT σ (Except ε) α) := fun _ => trivial

theorem Keeps.get : Keeps view (get : StateT σ (Except ε) σ) := fun _ => rfl

theorem Keeps.bind (hc : Keeps view c) (hf : ∀ a, Keeps view (f a)) : Keeps view (c >>= f) := by
  intro s
  rw [wp_bind]
  refine wp_mono (hc s) (fun a s' h => ?_) fun _ => id
  exact wp_mono (hf a s') (fun _ _ h' => h'.trans h) fun _ => id

theorem Keeps.map (hc : Keeps view c) (g : α → β) : Keeps view (g <$> c) := by
  rw [map_eq_pure_bind]
  exact hc.bind fun a => .pure (g a)

theorem Keeps.ite {b : Prop} [Decidable b] {c' : StateT σ (Except ε) α} (hc : Keeps view c)
    (hc' : Keeps view c') : Keeps view (if b then c else c') := by
  split
  · exact hc
  · exact hc'

theorem Keeps.foldlM {γ : Type} {g : β → γ → StateT σ (Except ε) β} {xs : List γ} (b : β)
    (h : ∀ b x, Keeps view (g b x)) : Keeps view (xs.foldlM g b) := by
  intro s
  refine wp_foldlM (fun _ s' => view s' = view s) rfl fun x _ b t ht => ?_
  exact wp_mono (h b x t) (fun _ _ h' => h'.trans ht) fun _ => id

/-- A coarser view is kept as well. -/
theorem Keeps.comp {ν' : Type} (hc : Keeps view c) (g : ν → ν') :
    Keeps (fun s => g (view s)) c :=
  fun s => wp_mono (hc s) (fun _ _ h => congrArg g h) fun _ => id

theorem Keeps.ok {a : α} {s' : σ} (hc : Keeps view c) (h : c.run s = .ok (a, s')) :
    view s' = view s := by
  have hkept := wp_ok (hc s) h
  exact hkept

end Frames

/-! ## Returning at least as often -/

/-- Wherever `c` returns, `c'` returns the same. -/
def Extends (c c' : StateT σ (Except ε) α) : Prop :=
  ∀ s a s', c.run s = .ok (a, s') → c'.run s = .ok (a, s')

theorem Extends.refl (c : StateT σ (Except ε) α) : Extends c c := fun _ _ _ => id

/-- Sequencing keeps the order when the second parts are in it. -/
theorem Extends.bind {f f' : α → StateT σ (Except ε) β} (h : ∀ a, Extends (f a) (f' a)) :
    Extends (c >>= f) (c >>= f') := by
  intro s b s' hc
  have hc : c.run s >>= (fun p => (f p.1).run p.2) = .ok (b, s') := hc
  obtain ⟨p, hp, hf⟩ := bind_eq_ok.1 hc
  exact bind_eq_ok.2 ⟨p, hp, h p.1 p.2 b s' hf⟩

end CheckedState
