import ItchOrderbook.Lib.FinmapTotal
import Mathlib.Data.Finset.Card
import Mathlib.Logic.Function.Basic

/-!
# Linear probing in a ring of slots

An open-addressing table keeps entries in `n` slots arranged in a ring. A key's search starts
at its home slot and goes up slot by slot until it meets the key or an empty slot, so the
table is sound when every entry is reachable that way (`Probed.path`). The rules here are
about the slots only and fit any loop that walks them:

* `Passed` is the invariant of a search; an empty slot, or a full round, ends it.
* `Shifting` is the invariant of a backward-shift deletion: the hole at `i`, the entries
  from it up to `j` looked at. `Shifting.skip`, `.move` and `.finish` are its three steps.
* `Represents` says which finite map the slots hold.
-/

namespace LinearProbing

/-! ## The ring -/

/-- The slot after `i`. -/
def next (n i : ℕ) : ℕ := if i + 1 = n then 0 else i + 1

/-- The number of steps up from `i` to `j`. -/
def dist (n i j : ℕ) : ℕ := if i ≤ j then j - i else j + n - i

section Ring

variable {n i j k : ℕ}

theorem next_lt (hi : i < n) : next n i < n := by
  unfold next
  split <;> omega

theorem dist_lt (hi : i < n) (hj : j < n) : dist n i j < n := by
  unfold dist
  split <;> omega

@[simp] theorem dist_self : dist n i i = 0 := by
  simp [dist]

theorem dist_pos (hi : i < n) (hne : i ≠ j) : 0 < dist n i j := by
  unfold dist
  split <;> omega

theorem dist_inj (hi : i < n) (hj : j < n) (hk : k < n) (h : dist n i j = dist n i k) :
    j = k := by
  unfold dist at h
  split at h <;> split at h <;> omega

/-- One step up is one further, until the walk is back where it began. -/
theorem dist_next (hi : i < n) (h : next n j ≠ i) :
    dist n i (next n j) = dist n i j + 1 := by
  unfold next at h ⊢
  unfold dist
  split_ifs at h ⊢ <;> omega

theorem dist_of_next_eq (hj : j < n) (h : next n j = i) : dist n i j + 1 = n := by
  unfold next at h
  unfold dist
  split_ifs at h ⊢ <;> omega

theorem dist_next_left (hj : j < n) (hk : k < n) (h : j ≠ k) :
    dist n (next n j) k + 1 = dist n j k := by
  unfold next dist
  split_ifs <;> omega

/-- With `j` before `k` on the way from `i`, and `i` before `k` on the way from `h`, also `j`
is before `k` on the way from `h`. -/
theorem dist_lt_trans {h : ℕ} (hi : i < n) (hj : j < n) (hk : k < n) (hh : h < n)
    (hik : dist n h i < dist n h k) (hjk : dist n i j < dist n i k) :
    dist n h j < dist n h k := by
  unfold dist at hik hjk ⊢
  split_ifs at hik hjk ⊢ <;> omega

/-- A slot `k` lies in the gap after `i` up to `j` exactly when `i` is not on the way from
`k` to `j`. -/
theorem mem_gap_iff (hi : i < n) (hj : j < n) (hk : k < n) (hij : i ≠ j) :
    (0 < dist n i k ∧ dist n i k ≤ dist n i j) ↔ ¬dist n k i < dist n k j := by
  unfold dist
  split_ifs <;> omega

end Ring

/-! ## Entries in their slots -/

variable {K V : Type*}

/-- What the slots hold. -/
abbrev Slots (K V : Type*) := ℕ → Option (K × V)

/-- Every entry is reached from its home over occupied slots, and no key has two slots. -/
structure Probed (n : ℕ) (home : K → ℕ) (s : Slots K V) : Prop where
  path : ∀ x < n, ∀ e, s x = some e →
    ∀ y < n, dist n (home e.1) y < dist n (home e.1) x → s y ≠ none
  unique : ∀ x < n, ∀ y < n, ∀ e e', s x = some e → s y = some e' → e.1 = e'.1 → x = y

/-- A search for `k` that has come to slot `i` has seen only other keys. -/
def Passed (n : ℕ) (home : K → ℕ) (s : Slots K V) (k : K) (i : ℕ) : Prop :=
  ∀ y < n, dist n (home k) y < dist n (home k) i → ∃ e, s y = some e ∧ e.1 ≠ k

/-- Every slot holds another key. -/
def AllOthers (n : ℕ) (s : Slots K V) (k : K) : Prop := ∀ y < n, ∃ e, s y = some e ∧ e.1 ≠ k

/-- A search at slot `i` with `left` more slots to look at: it will complete the round, or has
done so already. -/
def Searching (n : ℕ) (home : K → ℕ) (s : Slots K V) (k : K) (i left : ℕ) : Prop :=
  (Passed n home s k i ∧ n ≤ dist n (home k) i + left) ∨ AllOthers n s k

section Search

variable {n : ℕ} {home : K → ℕ} {s : Slots K V} {k : K} {i left : ℕ}

theorem searching_home (h : n ≤ left) : Searching n home s k (home k) left := by
  refine Or.inl ⟨fun y _ hy => ?_, ?_⟩
  · rw [dist_self] at hy
    exact absurd hy (Nat.not_lt_zero _)
  · omega

/-- Passing a slot that holds another key. -/
theorem Searching.step {e : K × V} (h : Searching n home s k i (left + 1)) (hi : i < n)
    (hk : home k < n) (he : s i = some e) (hne : e.1 ≠ k) :
    Searching n home s k (next n i) left := by
  rcases h with ⟨hpass, hleft⟩ | hall
  · -- the slots seen so far, now with `i`
    have hseen : ∀ y < n, dist n (home k) y ≤ dist n (home k) i →
        ∃ e, s y = some e ∧ e.1 ≠ k := by
      intro y hy hle
      rcases Nat.lt_or_eq_of_le hle with hlt | heq
      · exact hpass y hy hlt
      · exact ⟨e, dist_inj hk hy hi heq ▸ he, hne⟩
    by_cases hround : next n i = home k
    · refine Or.inr fun y hy => hseen y hy ?_
      have := dist_of_next_eq hi hround
      have := dist_lt hk hy
      omega
    · have hnext := dist_next hk hround
      refine Or.inl ⟨fun y hy hlt => hseen y hy ?_, ?_⟩ <;> omega
  · exact Or.inr hall

/-- A search that has run out of slots has seen them all. -/
theorem Searching.exhausted (h : Searching n home s k i 0) (hi : i < n) (hk : home k < n) :
    AllOthers n s k := by
  rcases h with ⟨-, hleft⟩ | hall
  · have := dist_lt hk hi
    omega
  · exact hall

/-- A search that meets an empty slot has not been all the way round. -/
theorem Searching.passed (h : Searching n home s k i left) (hi : i < n) (he : s i = none) :
    Passed n home s k i := by
  rcases h with ⟨hpass, -⟩ | hall
  · exact hpass
  · obtain ⟨e, hs, -⟩ := hall i hi
    rw [he] at hs
    cases hs

theorem AllOthers.absent (h : AllOthers n s k) : ∀ x < n, ∀ v, s x ≠ some (k, v) := by
  intro x hx v hs
  obtain ⟨e, he, hne⟩ := h x hx
  rw [hs] at he
  cases he
  exact hne rfl

/-- An empty slot on its path shows that a key is nowhere: behind it the path is broken. -/
theorem Probed.absent (hp : Probed n home s) (hk : home k < n) (h : Passed n home s k i)
    (hi : i < n) (hempty : s i = none) : ∀ x < n, ∀ v, s x ≠ some (k, v) := by
  intro x hx v hs
  rcases Nat.lt_trichotomy (dist n (home k) x) (dist n (home k) i) with hlt | heq | hgt
  · obtain ⟨e, he, hne⟩ := h x hx hlt
    rw [hs] at he
    cases he
    exact hne rfl
  · rw [dist_inj hk hx hi heq, hempty] at hs
    cases hs
  · exact hp.path x hx (k, v) hs i hi hgt hempty

/-- A new entry goes into the first empty slot of its search. -/
theorem Probed.place (hp : Probed n home s) (hk : home k < n) (h : Passed n home s k i)
    (hi : i < n) (hempty : s i = none) (v : V) :
    Probed n home (Function.update s i (some (k, v))) := by
  have habsent := hp.absent hk h hi hempty
  have hocc : ∀ y < n, s y ≠ none → Function.update s i (some (k, v)) y ≠ none := by
    intro y _ hy
    rw [Function.update_apply]
    split
    · exact Option.some_ne_none _
    · exact hy
  refine ⟨fun x hx e hs y hy hlt => ?_, fun x hx y hy e e' hs hs' hkey => ?_⟩
  · rw [Function.update_apply] at hs
    split at hs
    · rename_i hxi
      cases hs
      obtain ⟨e, he, -⟩ := h y hy (hxi ▸ hlt)
      exact hocc y hy (he ▸ Option.some_ne_none e)
    · exact hocc y hy (hp.path x hx e hs y hy hlt)
  · rw [Function.update_apply] at hs hs'
    split at hs <;> split at hs'
    · rename_i hxi hyi
      rw [hxi, hyi]
    · cases hs
      obtain ⟨k', v'⟩ := e'
      cases hkey
      exact absurd hs' (habsent y hy v')
    · cases hs'
      obtain ⟨k', v'⟩ := e
      cases hkey
      exact absurd hs (habsent x hx v')
    · exact hp.unique x hx y hy e e' hs hs' hkey

/-- An entry's value can change where it stands. -/
theorem Probed.overwrite (hp : Probed n home s) {w : V} (hs : s i = some (k, w)) (v : V) :
    Probed n home (Function.update s i (some (k, v))) := by
  -- the same keys in the same slots
  have hback : ∀ x e, Function.update s i (some (k, v)) x = some e →
      ∃ e', s x = some e' ∧ e'.1 = e.1 := by
    intro x e hx
    rw [Function.update_apply] at hx
    split at hx
    · rename_i hxi
      cases hx
      exact ⟨(k, w), hxi ▸ hs, rfl⟩
    · exact ⟨e, hx, rfl⟩
  refine ⟨fun x hx e he y hy hlt => ?_, fun x hx y hy e e' he he' hkey => ?_⟩
  · obtain ⟨e', he', hkey⟩ := hback x e he
    have hne := hp.path x hx e' he' y hy (by rwa [hkey])
    rw [Function.update_apply]
    split
    · exact Option.some_ne_none _
    · exact hne
  · obtain ⟨f, hf, hfk⟩ := hback x e he
    obtain ⟨f', hf', hfk'⟩ := hback y e' he'
    exact hp.unique x hx y hy f f' hf hf' (by rw [hfk, hfk', hkey])

end Search

/-! ## Backward-shift deletion -/

/-- The loop of a backward-shift deletion: `i` is the hole, the slots after it up to `j` hold
entries whose path avoids the hole, and the empty slot `stop` is still ahead. -/
structure Shifting (n : ℕ) (home : K → ℕ) (s : Slots K V) (stop i j : ℕ) : Prop where
  hole : s i = none
  path : ∀ x < n, ∀ e, s x = some e →
    ∀ y < n, dist n (home e.1) y < dist n (home e.1) x → s y ≠ none ∨ y = i
  unique : ∀ x < n, ∀ y < n, ∀ e e', s x = some e → s y = some e' → e.1 = e'.1 → x = y
  scanned : ∀ x < n, ∀ e, s x = some e → dist n i x ≤ dist n i j →
    ¬dist n (home e.1) i < dist n (home e.1) x
  stop_lt : stop < n
  stop_empty : s stop = none
  ahead : dist n i j < dist n i stop

section Shift

variable {n : ℕ} {home : K → ℕ} {s : Slots K V} {stop i j : ℕ}

/-- Taking an entry out of a sound table that has another empty slot. -/
theorem Probed.shifting (hp : Probed n home s) (hi : i < n) (hocc : s i ≠ none)
    (hstop : stop < n) (hempty : s stop = none) :
    Shifting n home (Function.update s i none) stop i i := by
  have hold : ∀ x e, Function.update s i none x = some e → x ≠ i ∧ s x = some e := by
    intro x e hx
    rw [Function.update_apply] at hx
    split at hx
    · cases hx
    · exact ⟨‹_›, hx⟩
  have hne : stop ≠ i := fun h => hocc (h ▸ hempty)
  refine ⟨Function.update_self .., fun x hx e hs y hy hlt => ?_, fun x hx y hy e e' hs hs' => ?_,
    fun x hx e hs hle => ?_, hstop, ?_, ?_⟩
  · have hne := hp.path x hx e (hold x e hs).2 y hy hlt
    rw [Function.update_apply]
    split
    · exact Or.inr ‹_›
    · exact Or.inl hne
  · exact hp.unique x hx y hy e e' (hold x e hs).2 (hold y e' hs').2
  · have := dist_pos hi (hold x e hs).1.symm
    rw [dist_self] at hle
    omega
  · rw [Function.update_of_ne hne]
    exact hempty
  · rw [dist_self]
    exact dist_pos hi hne.symm

/-- The empty slot ahead gets nearer with every step. -/
theorem Shifting.nearer (h : Shifting n home s stop i j) (hj : j < n) :
    dist n (next n j) stop + 1 = dist n j stop := by
  refine dist_next_left hj h.stop_lt ?_
  rintro rfl
  exact absurd h.ahead (Nat.lt_irrefl _)

variable (h : Shifting n home s stop i j) (hi : i < n) (hj : j < n)

include h hi hj

/-- The scan does not come back to the hole. -/
theorem Shifting.next_ne : next n j ≠ i := by
  intro heq
  have := h.ahead
  have := dist_of_next_eq hj heq
  have := dist_lt hi h.stop_lt
  omega

theorem Shifting.dist_next : dist n i (next n j) = dist n i j + 1 :=
  LinearProbing.dist_next hi (h.next_ne hi hj)

/-- An occupied slot is not the empty one ahead. -/
theorem Shifting.ahead_next (hocc : s (next n j) ≠ none) :
    dist n i (next n j) < dist n i stop := by
  have hlt := h.ahead
  have hne : dist n i (next n j) ≠ dist n i stop := fun heq =>
    hocc (dist_inj hi (next_lt hj) h.stop_lt heq ▸ h.stop_empty)
  rw [h.dist_next hi hj] at hne ⊢
  omega

/-- An entry whose path avoids the hole stays. -/
theorem Shifting.skip {e : K × V} (hs : s (next n j) = some e)
    (hgap : ¬dist n (home e.1) i < dist n (home e.1) (next n j)) :
    Shifting n home s stop i (next n j) := by
  refine ⟨h.hole, h.path, h.unique, fun x hx e' hs' hle => ?_, h.stop_lt, h.stop_empty,
    h.ahead_next hi hj (hs ▸ Option.some_ne_none e)⟩
  by_cases heq : x = next n j
  · subst heq
    rw [hs] at hs'
    cases hs'
    exact hgap
  · have hne : dist n i x ≠ dist n i (next n j) := fun he =>
      heq (dist_inj hi hx (next_lt hj) he)
    rw [h.dist_next hi hj] at hle hne
    exact h.scanned x hx e' hs' (by omega)

/-- An entry whose path runs over the hole fills it, and leaves a hole behind. -/
theorem Shifting.move {e : K × V} (hs : s (next n j) = some e)
    (hgap : dist n (home e.1) i < dist n (home e.1) (next n j)) :
    Shifting n home (Function.update (Function.update s i (some e)) (next n j) none)
      stop (next n j) (next n j) := by
  have hj' := next_lt hj
  have hstop_ne : stop ≠ next n j := by
    rintro rfl
    have := h.stop_empty
    rw [hs] at this
    cases this
  have hstop_hole : stop ≠ i := by
    rintro rfl
    have := h.ahead
    rw [dist_self] at this
    omega
  -- what is where after the move
  have hold : ∀ x e', Function.update (Function.update s i (some e)) (next n j) none x = some e' →
      x ≠ next n j ∧ ((x = i ∧ e' = e) ∨ (x ≠ i ∧ s x = some e')) := by
    intro x e' hx
    rw [Function.update_apply, Function.update_apply] at hx
    split at hx
    · cases hx
    · split at hx
      · cases hx
        exact ⟨‹_›, Or.inl ⟨‹_›, rfl⟩⟩
      · exact ⟨‹_›, Or.inr ⟨‹_›, hx⟩⟩
  have hkeep : ∀ y, s y ≠ none ∨ y = i →
      Function.update (Function.update s i (some e)) (next n j) none y ≠ none ∨ y = next n j := by
    intro y hy
    rw [Function.update_apply, Function.update_apply]
    split
    · exact Or.inr ‹_›
    · split
      · exact Or.inl (Option.some_ne_none _)
      · exact Or.inl (hy.resolve_right ‹_›)
  refine ⟨Function.update_self .., fun x hx e' hs' y hy hlt => hkeep y ?_,
    fun x hx y hy e₁ e₂ h₁ h₂ hkey => ?_, fun x hx e' hs' hle => ?_, h.stop_lt, ?_, ?_⟩
  · rcases (hold x e' hs').2 with ⟨rfl, rfl⟩ | ⟨-, hsx⟩
    · exact h.path _ hj' e' hs y hy (hlt.trans hgap)
    · exact h.path x hx e' hsx y hy hlt
  · obtain ⟨hxj, h₁⟩ := hold x e₁ h₁
    obtain ⟨hyj, h₂⟩ := hold y e₂ h₂
    rcases h₁ with ⟨hxi, he₁⟩ | ⟨-, h₁⟩ <;> rcases h₂ with ⟨hyi, he₂⟩ | ⟨-, h₂⟩
    · rw [hxi, hyi]
    · exact absurd (h.unique y hy _ hj' e₂ e h₂ hs (by rw [← hkey, he₁])) hyj
    · exact absurd (h.unique x hx _ hj' e₁ e h₁ hs (by rw [hkey, he₂])) hxj
    · exact h.unique x hx y hy e₁ e₂ h₁ h₂ hkey
  · have := dist_pos hj' (hold x e' hs').1.symm
    rw [dist_self] at hle
    omega
  · rw [Function.update_of_ne hstop_ne, Function.update_of_ne hstop_hole]
    exact h.stop_empty
  · rw [dist_self]
    exact dist_pos hj' hstop_ne.symm

/-- An empty slot ends the shift: nothing behind it needs the hole. -/
theorem Shifting.finish (hhome : ∀ k, home k < n) (hs : s (next n j) = none) :
    Probed n home s := by
  refine ⟨fun x hx e he y hy hlt => ?_, h.unique⟩
  refine (h.path x hx e he y hy hlt).resolve_right ?_
  rintro rfl
  -- the hole is on the way to `x`, so `x` is beyond the slots scanned, and beyond the empty one
  have hj' := next_lt hj
  have hbeyond : dist n y (next n j) < dist n y x := by
    have hscan : ¬dist n y x ≤ dist n y j := fun hle => h.scanned x hx e he hle hlt
    have hne : dist n y (next n j) ≠ dist n y x := by
      intro heq
      rw [← dist_inj hy hj' hx heq, hs] at he
      cases he
    rw [h.dist_next hy hj] at hne ⊢
    omega
  have hway := dist_lt_trans hy hj' hx (hhome e.1) hlt hbeyond
  rcases h.path x hx e he (next n j) hj' hway with hocc | heq
  · exact hocc hs
  · exact h.next_ne hy hj heq

end Shift

/-! ## The map that the slots hold -/

/-- The number of occupied slots. -/
def occupied (n : ℕ) (s : Slots K V) : ℕ := ((Finset.range n).filter fun x => (s x).isSome).card

section Occupied

variable {n i : ℕ} {s : Slots K V}

theorem occupied_fill (hi : i < n) (hs : s i = none) (e : K × V) :
    occupied n (Function.update s i (some e)) = occupied n s + 1 := by
  unfold occupied
  have hset : ((Finset.range n).filter fun x => (Function.update s i (some e) x).isSome)
      = insert i ((Finset.range n).filter fun x => (s x).isSome) := by
    ext x
    by_cases hx : x = i
    · simp [hx, hi]
    · simp [hx]
  rw [hset, Finset.card_insert_of_notMem (by simp [hs])]

theorem occupied_clear {e : K × V} (hi : i < n) (hs : s i = some e) :
    occupied n (Function.update s i none) + 1 = occupied n s := by
  have hback : Function.update (Function.update s i none) i (some e) = s := by
    rw [Function.update_idem, ← hs, Function.update_eq_self]
  rw [← occupied_fill hi (Function.update_self ..) e, hback]

/-- All slots are occupied exactly when none is empty. -/
theorem occupied_eq_iff : occupied n s = n ↔ ∀ x < n, s x ≠ none := by
  conv_lhs => rhs; rw [← Finset.card_range n]
  rw [occupied, Finset.card_filter_eq_iff]
  simp only [Finset.mem_range, ne_eq, Option.isSome_iff_ne_none]

end Occupied

variable [DecidableEq K]

/-- The slots hold exactly the entries of the map. -/
structure Represents (n : ℕ) (s : Slots K V) (live : Finmap fun _ : K => V) : Prop where
  lookup_iff : ∀ k v, live.lookup k = some v ↔ ∃ x < n, s x = some (k, v)
  size_eq : live.size = occupied n s

section Represents

variable {n i j : ℕ} {s : Slots K V} {live : Finmap fun _ : K => V} {k : K}

theorem represents_empty : Represents n (fun _ => none : Slots K V) ∅ where
  lookup_iff k v := by simp
  size_eq := by simp [occupied]

/-- A key in no slot is not in the map. -/
theorem Represents.lookup_eq_none (h : Represents n s live) (hk : ∀ x < n, ∀ v, s x ≠ some (k, v)) :
    live.lookup k = none := by
  cases hl : live.lookup k with
  | none => rfl
  | some v =>
    obtain ⟨x, hx, hs⟩ := (h.lookup_iff k v).mp hl
    exact absurd hs (hk x hx v)

/-- Filling an empty slot with a fresh key. -/
theorem Represents.fill (h : Represents n s live) (hi : i < n) (hs : s i = none)
    (hk : live.lookup k = none) (v : V) :
    Represents n (Function.update s i (some (k, v))) (live.insert k v) where
  lookup_iff k' v' := by
    by_cases hkk : k' = k
    · subst hkk
      rw [Finmap.lookup_insert]
      constructor
      · rintro ⟨⟩
        exact ⟨i, hi, Function.update_self ..⟩
      · rintro ⟨x, hx, hx'⟩
        rw [Function.update_apply] at hx'
        split at hx'
        · cases hx'
          rfl
        · have := (h.lookup_iff k' v').mpr ⟨x, hx, hx'⟩
          rw [hk] at this
          cases this
    · rw [Finmap.lookup_insert_of_ne _ hkk, h.lookup_iff]
      refine exists_congr fun x => and_congr_right fun _ => ?_
      rw [Function.update_apply]
      split
      · rename_i hx
        rw [hx, hs]
        simp [Ne.symm hkk]
      · rfl
  size_eq := by
    rw [Finmap.size_insert_of_notMem v (Finmap.lookup_eq_none.mp hk), occupied_fill hi hs,
      h.size_eq]

/-- Clearing the one slot of a key. -/
theorem Represents.clear {v : V} (h : Represents n s live) (hi : i < n)
    (hs : s i = some (k, v)) (huniq : ∀ x < n, ∀ w, s x = some (k, w) → x = i) :
    Represents n (Function.update s i none) (live.erase k) where
  lookup_iff k' v' := by
    by_cases hkk : k' = k
    · subst hkk
      rw [Finmap.lookup_erase]
      refine ⟨fun hn => (Option.some_ne_none _ hn.symm).elim, ?_⟩
      rintro ⟨x, hx, hx'⟩
      rw [Function.update_apply] at hx'
      split at hx'
      · cases hx'
      · exact absurd (huniq x hx v' hx') ‹_›
    · rw [Finmap.lookup_erase_ne hkk, h.lookup_iff]
      refine exists_congr fun x => and_congr_right fun _ => ?_
      rw [Function.update_apply]
      split
      · rename_i hx
        rw [hx, hs]
        simp [Ne.symm hkk]
      · rfl
  size_eq := by
    have hl := (h.lookup_iff k v).mpr ⟨i, hi, hs⟩
    have := Finmap.size_erase hl
    have := occupied_clear hi hs
    have := h.size_eq
    omega

/-- Changing the value of a key where it stands. -/
theorem Represents.overwrite {w : V} (h : Represents n s live) (hi : i < n)
    (hs : s i = some (k, w)) (huniq : ∀ x < n, ∀ w, s x = some (k, w) → x = i) (v : V) :
    Represents n (Function.update s i (some (k, v))) (live.insert k v) := by
  have hcleared := h.clear hi hs huniq
  have hfilled := hcleared.fill hi (Function.update_self ..) (Finmap.lookup_erase ..) v
  rwa [Function.update_idem, ← Finmap.insert_eq_insert_erase] at hfilled

/-- Moving an entry to an empty slot. -/
theorem Represents.move {e : K × V} (h : Represents n s live) (hi : i < n) (hj : j < n)
    (hij : j ≠ i) (hsi : s i = none) (hsj : s j = some e) :
    Represents n (Function.update (Function.update s i (some e)) j none) live where
  lookup_iff k' v' := by
    rw [h.lookup_iff]
    constructor
    · rintro ⟨x, hx, hs⟩
      by_cases hxj : x = j
      · subst hxj
        rw [hsj] at hs
        refine ⟨i, hi, ?_⟩
        rw [Function.update_of_ne hij.symm, Function.update_self]
        exact hs
      · have hxi : x ≠ i := by
          rintro rfl
          rw [hsi] at hs
          cases hs
        refine ⟨x, hx, ?_⟩
        rw [Function.update_of_ne hxj, Function.update_of_ne hxi]
        exact hs
    · rintro ⟨x, hx, hs⟩
      rw [Function.update_apply, Function.update_apply] at hs
      split at hs
      · cases hs
      · split at hs
        · exact ⟨j, hj, hsj.trans hs⟩
        · exact ⟨x, hx, hs⟩
  size_eq := by
    have hjs : Function.update s i (some e) j = some e := by
      rw [Function.update_of_ne hij]
      exact hsj
    have := occupied_clear hj hjs
    have := occupied_fill hi hsi e
    have := h.size_eq
    omega

end Represents

end LinearProbing
