import ItchOrderbook.Lib.FinmapTotal
import Mathlib.Algebra.BigOperators.Group.Finset.Basic
import Mathlib.Data.Fintype.Basic
import Mathlib.Logic.Function.Iterate

/-!
# Open addressing with tombstones and a bounded probe count

A deleted entry leaves a tombstone, which a search passes, so no slot ever becomes empty again and
a path once free of empty slots stays so. A search looks at `left + 1` slots of its walk; an
insertion takes the first tombstone it has passed, else the empty slot it ends at.

`Probed` is the invariant of the slots, and `Represents` says which finite map they hold. Both are
kept by `fill`, `overwrite` and `bury`, the three writes of such a table.
-/

namespace TombstoneProbing

variable {I K V : Type*}

/-- A slot of the table. -/
inductive Slot (K V : Type*) where
  | empty
  | tomb
  | live (k : K) (v : V)
  deriving DecidableEq

/-- Whether an entry is in the slot. -/
def Slot.IsLive : Slot K V → Prop
  | .live _ _ => True
  | _ => False

/-- What an insertion's search ends with. -/
inductive Seek (I : Type*) where
  | found (i : I)
  | place (i : I)
  | full
  deriving DecidableEq

/-! ## Searches -/

section Search

variable [DecidableEq K] (next : I → I) (slots : I → Slot K V) (k : K)

/-- The slot of a key, over the `left + 1` slots from `i` on. -/
def find : ℕ → I → Option I
  | 0, i =>
    match slots i with
    | .live k' _ => if k' = k then some i else none
    | _ => none
  | left + 1, i =>
    match slots i with
    | .empty => none
    | .tomb => find left (next i)
    | .live k' _ => if k' = k then some i else find left (next i)

/-- The end of a search that has met neither the key nor an empty slot. -/
def giveUp : Option I → Seek I
  | some t => .place t
  | none => .full

/-- The search of an insertion that has passed the tombstone `t`. The last slot looked at does not
count as a tombstone. -/
def seek : ℕ → I → Option I → Seek I
  | 0, i, t =>
    match slots i with
    | .empty => .place (t.getD i)
    | .tomb => giveUp t
    | .live k' _ => if k' = k then .found i else giveUp t
  | left + 1, i, t =>
    match slots i with
    | .empty => .place (t.getD i)
    | .tomb => seek left (next i) (some (t.getD i))
    | .live k' _ => if k' = k then .found i else seek left (next i) t

variable {next slots k}

theorem find_zero (i : I) : find next slots k 0 i =
    match slots i with
    | .live k' _ => if k' = k then some i else none
    | _ => none := rfl

theorem find_succ (left : ℕ) (i : I) : find next slots k (left + 1) i =
    match slots i with
    | .empty => none
    | .tomb => find next slots k left (next i)
    | .live k' _ => if k' = k then some i else find next slots k left (next i) := rfl

theorem seek_zero (i : I) (t : Option I) : seek next slots k 0 i t =
    match slots i with
    | .empty => .place (t.getD i)
    | .tomb => giveUp t
    | .live k' _ => if k' = k then .found i else giveUp t := rfl

theorem seek_succ (left : ℕ) (i : I) (t : Option I) : seek next slots k (left + 1) i t =
    match slots i with
    | .empty => .place (t.getD i)
    | .tomb => seek next slots k left (next i) (some (t.getD i))
    | .live k' _ => if k' = k then .found i else seek next slots k left (next i) t := rfl

/-- A slot found holds the key. -/
theorem live_of_find {left : ℕ} {i j : I} (h : find next slots k left i = some j) :
    ∃ v, slots j = .live k v := by
  induction left generalizing i with
  | zero =>
    rw [find_zero] at h
    split at h
    · rename_i k' v hs
      split at h
      · cases h
        rename_i hk
        exact ⟨v, hk ▸ hs⟩
      · cases h
    · cases h
  | succ left ih =>
    rw [find_succ] at h
    split at h
    · cases h
    · exact ih h
    · rename_i k' v hs
      split at h
      · cases h
        rename_i hk
        exact ⟨v, hk ▸ hs⟩
      · exact ih h

/-- The key is found from any slot whose walk to it has no empty slot and no other slot of it. -/
theorem find_of_reach {left n : ℕ} {i j : I} {v : V} (hn : n ≤ left) (hj : next^[n] i = j)
    (hlive : slots j = .live k v) (hpath : ∀ m < n, slots (next^[m] i) ≠ .empty)
    (honly : ∀ x w, slots x = .live k w → x = j) : find next slots k left i = some j := by
  induction left generalizing i n with
  | zero =>
    obtain rfl := Nat.le_zero.mp hn
    cases hj
    rw [find_zero, Function.iterate_zero_apply] at *
    simp only [hlive, if_true]
  | succ left ih =>
    cases n with
    | zero =>
      cases hj
      rw [Function.iterate_zero_apply] at *
      simp only [find_succ, hlive, if_true]
    | succ n =>
      -- the walk begins at a slot that is passed, or is the key's own
      have hrest := ih (Nat.le_of_succ_le_succ hn) (i := next i)
        (by rw [← Function.iterate_succ_apply]; exact hj)
        (fun m hm => by
          rw [← Function.iterate_succ_apply]
          exact hpath (m + 1) (Nat.succ_lt_succ hm))
      have hfirst := hpath 0 (Nat.succ_pos n)
      rw [Function.iterate_zero_apply] at hfirst
      rw [find_succ]
      cases hs : slots i with
      | empty => exact absurd hs hfirst
      | tomb => exact hrest
      | live k' w =>
        dsimp only
        split
        · rename_i hk
          rw [honly i w (hk ▸ hs)]
        · exact hrest

/-- What the search of an insertion ends with, said of the walk from `i` on. -/
theorem seek_spec {left : ℕ} {i : I} {t : Option I} :
    (∀ j, seek next slots k left i t = .found j → find next slots k left i = some j)
      ∧ (∀ j, seek next slots k left i t = .place j → find next slots k left i = none
          ∧ (t = some j ∨ t = none ∧ (¬(slots j).IsLive
              ∧ ∃ n ≤ left, next^[n] i = j ∧ ∀ m < n, slots (next^[m] i) ≠ .empty)))
      ∧ (seek next slots k left i t = .full → find next slots k left i = none
          ∧ t = none ∧ ∀ n < left, (slots (next^[n] i)).IsLive) := by
  induction left generalizing i t with
  | zero =>
    rw [seek_zero, find_zero]
    cases hs : slots i with
    | empty =>
      refine ⟨fun j h => (by cases h), fun j h => ?_, fun h => (by cases h)⟩
      cases h
      cases t with
      | some t => exact ⟨rfl, Or.inl rfl⟩
      | none =>
        exact ⟨rfl, Or.inr ⟨rfl, by simp [hs, Slot.IsLive], 0, le_rfl, rfl, by simp⟩⟩
    | tomb =>
      cases t with
      | some t =>
        exact ⟨fun j h => (by cases h), fun j h => (by cases h; exact ⟨rfl, Or.inl rfl⟩),
          fun h => (by cases h)⟩
      | none =>
        exact ⟨fun j h => (by cases h), fun j h => (by cases h), fun _ => ⟨rfl, rfl, by simp⟩⟩
    | live k' w =>
      dsimp only
      split
      · exact ⟨fun j h => (by cases h; rfl), fun j h => (by cases h), fun h => (by cases h)⟩
      · cases t with
        | some t =>
          exact ⟨fun j h => (by cases h), fun j h => (by cases h; exact ⟨rfl, Or.inl rfl⟩),
            fun h => (by cases h)⟩
        | none =>
          exact ⟨fun j h => (by cases h), fun j h => (by cases h), fun _ => ⟨rfl, rfl, by simp⟩⟩
  | succ left ih =>
    rw [seek_succ, find_succ]
    cases hs : slots i with
    | empty =>
      refine ⟨fun j h => (by cases h), fun j h => ?_, fun h => (by cases h)⟩
      cases h
      cases t with
      | some t => exact ⟨rfl, Or.inl rfl⟩
      | none =>
        exact ⟨rfl, Or.inr ⟨rfl, by simp [hs, Slot.IsLive], 0, Nat.zero_le _, rfl, by simp⟩⟩
    | tomb =>
      -- from here on there is a tombstone to fall back on
      obtain ⟨hf, hp, hn⟩ := ih (i := next i) (t := some (t.getD i))
      refine ⟨hf, fun j h => ?_, fun h => ?_⟩
      · obtain ⟨hnone, hj | ⟨ht, -⟩⟩ := hp j h
        · cases hj
          cases t with
          | some t => exact ⟨hnone, Or.inl rfl⟩
          | none =>
            exact ⟨hnone, Or.inr ⟨rfl, by simp [hs, Slot.IsLive], 0, Nat.zero_le _, rfl, by simp⟩⟩
        · cases ht
      · obtain ⟨-, ht, -⟩ := hn h
        cases ht
    | live k' w =>
      dsimp only
      split
      · exact ⟨fun j h => (by cases h; rfl), fun j h => (by cases h), fun h => (by cases h)⟩
      · obtain ⟨hf, hp, hn⟩ := ih (i := next i) (t := t)
        refine ⟨hf, fun j h => ?_, fun h => ?_⟩
        · obtain ⟨hnone, hj | ⟨ht, hlive, n, hle, hj, hpath⟩⟩ := hp j h
          · exact ⟨hnone, Or.inl hj⟩
          · refine ⟨hnone, Or.inr ⟨ht, hlive, n + 1, Nat.succ_le_succ hle, hj, fun m hm => ?_⟩⟩
            cases m with
            | zero => simp [hs]
            | succ m => exact hpath m (Nat.lt_of_succ_lt_succ hm)
        · obtain ⟨hnone, ht, hall⟩ := hn h
          refine ⟨hnone, ht, fun n hlt => ?_⟩
          cases n with
          | zero => simp [hs, Slot.IsLive]
          | succ n => exact hall n (Nat.lt_of_succ_lt_succ hlt)

/-- The search of an insertion passes the slots of other keys. -/
theorem seek_pass {left n : ℕ} {i : I} {t : Option I} (hn : n ≤ left)
    (hother : ∀ m < n, ∃ k' v, slots (next^[m] i) = .live k' v ∧ k' ≠ k) :
    seek next slots k left i t = seek next slots k (left - n) (next^[n] i) t := by
  induction n generalizing left i with
  | zero => rfl
  | succ n ih =>
    obtain ⟨left, rfl⟩ : ∃ l, left = l + 1 := ⟨left - 1, by omega⟩
    obtain ⟨k', v, hs, hk⟩ := hother 0 (Nat.succ_pos n)
    rw [Function.iterate_zero_apply] at hs
    rw [seek_succ, hs]
    dsimp only
    rw [if_neg hk, ih (Nat.le_of_succ_le_succ hn) fun m hm => ?_, Nat.add_sub_add_right]
    · rfl
    · rw [← Function.iterate_succ_apply]
      exact hother (m + 1) (Nat.succ_lt_succ hm)

/-- It ends at the first empty slot. -/
theorem seek_empty {left n : ℕ} {i : I} (hn : n ≤ left)
    (hother : ∀ m < n, ∃ k' v, slots (next^[m] i) = .live k' v ∧ k' ≠ k)
    (hempty : slots (next^[n] i) = .empty) :
    seek next slots k left i none = .place (next^[n] i) := by
  rw [seek_pass hn hother]
  cases left - n with
  | zero =>
    rw [seek_zero, hempty]
    rfl
  | succ left =>
    rw [seek_succ, hempty]
    rfl

/-- It ends nowhere when every slot it looks at has another key. -/
theorem seek_full {left : ℕ} {i : I}
    (hother : ∀ m ≤ left, ∃ k' v, slots (next^[m] i) = .live k' v ∧ k' ≠ k) :
    seek next slots k left i none = .full := by
  rw [seek_pass le_rfl fun m hm => hother m (Nat.le_of_lt hm), Nat.sub_self,
    seek_zero]
  obtain ⟨k', v, hs, hk⟩ := hother left le_rfl
  rw [hs]
  dsimp only
  rw [if_neg hk]
  rfl

/-- An insertion that has passed a tombstone has a place. -/
theorem seek_some_ne_full {left : ℕ} {i t : I} : seek next slots k left i (some t) ≠ .full :=
  fun h => (by cases (seek_spec.2.2 h).2.1)

/-- The search of an insertion gives up exactly where it has passed no tombstone: every slot but the
last has another key, and the last is not empty and has not the key. Induction on the slots left. -/
theorem seek_eq_full_iff {left : ℕ} {i : I} : seek next slots k left i none = .full ↔
    (∀ m < left, ∃ k' v, slots (next^[m] i) = .live k' v ∧ k' ≠ k)
      ∧ slots (next^[left] i) ≠ .empty ∧ ∀ v, slots (next^[left] i) ≠ .live k v := by
  induction left generalizing i with
  | zero =>
    rw [Function.iterate_zero_apply, seek_zero]
    cases hs : slots i with
    | empty => exact iff_of_false (fun h => (by cases h)) fun h => h.2.1 rfl
    | tomb =>
      exact iff_of_true rfl ⟨fun m hm => (by cases hm), fun h => (by cases h), fun v h => (by cases h)⟩
    | live k' v =>
      dsimp only
      split
      · rename_i hk
        exact iff_of_false (fun h => (by cases h)) fun h => h.2.2 v (hk ▸ rfl)
      · rename_i hk
        exact iff_of_true rfl ⟨fun m hm => (by cases hm), fun h => (by cases h),
          fun w h => (by cases h; exact hk rfl)⟩
  | succ left ih =>
    rw [seek_succ]
    cases hs : slots i with
    | empty =>
      refine iff_of_false (fun h => (by cases h)) fun h => ?_
      obtain ⟨k', v, hl, -⟩ := h.1 0 (Nat.succ_pos left)
      rw [Function.iterate_zero_apply, hs] at hl
      cases hl
    | tomb =>
      refine iff_of_false seek_some_ne_full fun h => ?_
      obtain ⟨k', v, hl, -⟩ := h.1 0 (Nat.succ_pos left)
      rw [Function.iterate_zero_apply, hs] at hl
      cases hl
    | live k' v =>
      dsimp only
      split
      · rename_i hk
        refine iff_of_false (fun h => (by cases h)) fun h => ?_
        obtain ⟨k'', w, hl, hne⟩ := h.1 0 (Nat.succ_pos left)
        rw [Function.iterate_zero_apply, hs] at hl
        cases hl
        exact hne hk
      · rename_i hk
        rw [ih, Function.iterate_succ_apply]
        refine and_congr ⟨fun h m hm => ?_, fun h m hm => ?_⟩ Iff.rfl
        · cases m with
          | zero => exact ⟨k', v, hs, hk⟩
          | succ m => exact h m (Nat.lt_of_succ_lt_succ hm)
        · exact h (m + 1) (Nat.succ_lt_succ hm)

end Search

/-! ## The invariant of the slots -/

/-- Slot `i` is on the first `left + 1` slots of the walk of `k`, with no empty slot before it. -/
def Reach (next : I → I) (home : K → I) (left : ℕ) (slots : I → Slot K V) (k : K) (i : I) : Prop :=
  ∃ n ≤ left, next^[n] (home k) = i ∧ ∀ m < n, slots (next^[m] (home k)) ≠ .empty

/-- Every entry is where its key's search gets to, and no key has two slots. -/
structure Probed (next : I → I) (home : K → I) (left : ℕ) (slots : I → Slot K V) : Prop where
  reach : ∀ k v i, slots i = .live k v → Reach next home left slots k i
  unique : ∀ k v w i j, slots i = .live k v → slots j = .live k w → i = j

section Probed

variable {next : I → I} {home : K → I} {left : ℕ} {slots : I → Slot K V} {k : K} {i : I}

theorem probed_empty : Probed next home left (fun _ => .empty : I → Slot K V) where
  reach k v i h := by cases h
  unique k v w i j h := by cases h

variable [DecidableEq I]

/-- A write that leaves no slot empty keeps every path. -/
theorem Reach.update (h : Reach next home left slots k i) {j : I} {s : Slot K V} (hs : s ≠ .empty) :
    Reach next home left (Function.update slots j s) k i := by
  obtain ⟨n, hn, hi, hpath⟩ := h
  refine ⟨n, hn, hi, fun m hm => ?_⟩
  rw [Function.update_apply]
  split
  · exact hs
  · exact hpath m hm

/-- A new key may go into any slot on its walk. -/
theorem Probed.fill (h : Probed next home left slots) (hnew : ∀ j w, slots j ≠ .live k w)
    (hi : Reach next home left slots k i) (v : V) :
    Probed next home left (Function.update slots i (.live k v)) where
  reach k' v' j hj := by
    rw [Function.update_apply] at hj
    split at hj
    · cases hj
      rename_i hji
      exact (hji ▸ hi).update (fun h => (by cases h))
    · exact (h.reach k' v' j hj).update (fun h => (by cases h))
  unique k' v' w' j j' hj hj' := by
    rw [Function.update_apply] at hj hj'
    split at hj <;> split at hj'
    · rename_i hji hji'
      rw [hji, hji']
    · cases hj
      exact absurd hj' (hnew j' w')
    · cases hj'
      exact absurd hj (hnew j v')
    · exact h.unique k' v' w' j j' hj hj'

/-- An entry leaves a tombstone. -/
theorem Probed.bury (h : Probed next home left slots) (i : I) :
    Probed next home left (Function.update slots i .tomb) where
  reach k' v' j hj := by
    rw [Function.update_apply] at hj
    split at hj
    · cases hj
    · exact (h.reach k' v' j hj).update (fun h => (by cases h))
  unique k' v' w' j j' hj hj' := by
    rw [Function.update_apply] at hj hj'
    split at hj <;> split at hj'
    · cases hj
    · cases hj
    · cases hj'
    · exact h.unique k' v' w' j j' hj hj'

/-- An entry's value changes where it stands. -/
theorem Probed.overwrite (h : Probed next home left slots) {w : V} (hi : slots i = .live k w)
    (v : V) : Probed next home left (Function.update slots i (.live k v)) := by
  have hburied := h.bury i
  rw [← Function.update_idem .tomb (.live k v) slots]
  refine hburied.fill (fun j w' hj => ?_) ((h.reach k w i hi).update (fun h => (by cases h))) v
  rw [Function.update_apply] at hj
  split at hj
  · cases hj
  · rename_i hne
    exact hne (h.unique k w' w j i hj hi)

variable [DecidableEq K]

omit [DecidableEq I] in
/-- In a sound table the search for a key finds it exactly when it is there. -/
theorem Probed.find_eq_some_iff (h : Probed next home left slots) :
    find next slots k left (home k) = some i ↔ ∃ v, slots i = .live k v := by
  refine ⟨live_of_find, ?_⟩
  rintro ⟨v, hv⟩
  obtain ⟨n, hn, hi, hpath⟩ := h.reach k v i hv
  exact find_of_reach hn hi hv hpath fun x w hx => h.unique k w v x i hx hv

omit [DecidableEq I] in
theorem Probed.not_live_of_find (h : Probed next home left slots)
    (hf : find next slots k left (home k) = none) (j : I) (w : V) : slots j ≠ .live k w := by
  intro hj
  rw [h.find_eq_some_iff.mpr ⟨w, hj⟩] at hf
  cases hf

end Probed

/-! ## The map that the slots hold -/

/-- What one slot adds to a total. -/
def Slot.term (f : K → V → ℕ) : Slot K V → ℕ
  | .live k v => f k v
  | _ => 0

/-- What the entries in the slots add up to. -/
def slotTotal [Fintype I] (f : K → V → ℕ) (slots : I → Slot K V) : ℕ := ∑ i, (slots i).term f

variable [Fintype I] [DecidableEq I] {slots : I → Slot K V} {k : K} {i : I}

/-- A write changes the total by what the slot adds. -/
theorem slotTotal_update (f : K → V → ℕ) (slots : I → Slot K V) (i : I) (s : Slot K V) :
    slotTotal f (Function.update slots i s) + (slots i).term f = slotTotal f slots + s.term f := by
  have hsum (t : I → Slot K V) :
      slotTotal f t = (t i).term f + ∑ j ∈ Finset.univ.erase i, (t j).term f :=
    (Finset.add_sum_erase _ (fun j => (t j).term f) (Finset.mem_univ i)).symm
  have hrest : ∑ j ∈ Finset.univ.erase i, (Function.update slots i s j).term f
      = ∑ j ∈ Finset.univ.erase i, (slots j).term f :=
    Finset.sum_congr rfl fun j hj => by rw [Function.update_of_ne (Finset.ne_of_mem_erase hj)]
  rw [hsum, hsum slots, hrest, Function.update_self]
  omega

variable [DecidableEq K]

/-- The slots hold exactly the entries of the map. -/
structure Represents (slots : I → Slot K V) (m : Finmap fun _ : K => V) : Prop where
  lookup_iff : ∀ k v, m.lookup k = some v ↔ ∃ i, slots i = .live k v
  total_eq : ∀ f, slotTotal f slots = m.total f

omit [DecidableEq I] in
theorem represents_empty : Represents (fun _ => .empty : I → Slot K V) ∅ where
  lookup_iff k v := by simp
  total_eq f := Finset.sum_const_zero

variable {m : Finmap fun _ : K => V}

omit [DecidableEq I] in
/-- A key in no slot is not in the map. -/
theorem Represents.lookup_eq_none (h : Represents slots m) (hk : ∀ i v, slots i ≠ .live k v) :
    m.lookup k = none := by
  cases hl : m.lookup k with
  | none => rfl
  | some v =>
    obtain ⟨x, hx⟩ := (h.lookup_iff k v).mp hl
    exact absurd hx (hk x v)

/-- A new key goes into a slot that holds no entry. -/
theorem Represents.fill (h : Represents slots m) (hi : ¬(slots i).IsLive)
    (hk : m.lookup k = none) (v : V) :
    Represents (Function.update slots i (.live k v)) (m.insert k v) where
  lookup_iff k' v' := by
    by_cases hkk : k' = k
    · subst hkk
      rw [Finmap.lookup_insert, Option.some_inj]
      constructor
      · rintro rfl
        exact ⟨i, Function.update_self ..⟩
      · rintro ⟨x, hx⟩
        rw [Function.update_apply] at hx
        split at hx
        · cases hx
          rfl
        · have := (h.lookup_iff k' v').mpr ⟨x, hx⟩
          rw [hk] at this
          cases this
    · rw [Finmap.lookup_insert_of_ne _ hkk, h.lookup_iff]
      refine exists_congr fun x => ?_
      rw [Function.update_apply]
      split
      · rename_i hx
        subst hx
        refine ⟨fun hs => (hi (by rw [hs]; trivial)).elim, fun hs => ?_⟩
        cases hs
        exact (hkk rfl).elim
      · rfl
  total_eq f := by
    have hsum := slotTotal_update f slots i (.live k v)
    have hzero : (slots i).term f = 0 := by
      cases hs : slots i with
      | live k' w => exact (hi (by rw [hs]; trivial)).elim
      | empty => rfl
      | tomb => rfl
    rw [hzero, h.total_eq f] at hsum
    rw [Finmap.total_insert_of_notMem f v (Finmap.lookup_eq_none.mp hk)]
    exact hsum

/-- The one slot of a key becomes a tombstone. -/
theorem Represents.bury {v : V} (h : Represents slots m) (hi : slots i = .live k v)
    (huniq : ∀ j w, slots j = .live k w → j = i) :
    Represents (Function.update slots i .tomb) (m.erase k) where
  lookup_iff k' v' := by
    by_cases hkk : k' = k
    · subst hkk
      rw [Finmap.lookup_erase]
      refine ⟨fun hn => (by cases hn), ?_⟩
      rintro ⟨x, hx⟩
      rw [Function.update_apply] at hx
      split at hx
      · cases hx
      · exact absurd (huniq x v' hx) ‹_›
    · rw [Finmap.lookup_erase_ne hkk, h.lookup_iff]
      refine exists_congr fun x => ?_
      rw [Function.update_apply]
      split
      · rename_i hx
        subst hx
        rw [hi]
        refine ⟨fun hs => ?_, fun hs => (by cases hs)⟩
        cases hs
        exact (hkk rfl).elim
      · rfl
  total_eq f := by
    have hsum := slotTotal_update f slots i .tomb
    have hm := Finmap.total_erase f ((h.lookup_iff k v).mpr ⟨i, hi⟩)
    rw [hi, h.total_eq f] at hsum
    simp only [Slot.term] at hsum
    omega

/-- The value of a key changes where it stands. -/
theorem Represents.overwrite {w : V} (h : Represents slots m) (hi : slots i = .live k w)
    (huniq : ∀ j w, slots j = .live k w → j = i) (v : V) :
    Represents (Function.update slots i (.live k v)) (m.insert k v) := by
  have hfilled := (h.bury hi huniq).fill (i := i) (k := k)
    (by rw [Function.update_self]; exact fun h => h) (Finmap.lookup_erase ..) v
  rwa [Function.update_idem, ← Finmap.insert_eq_insert_erase] at hfilled

end TombstoneProbing
