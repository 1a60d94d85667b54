import Mathlib.Data.Finmap
import Mathlib.Algebra.BigOperators.Group.Multiset.Basic
import Mathlib.Algebra.Order.BigOperators.Group.Multiset
import Mathlib.Algebra.Order.Ring.Nat
import Mathlib.Algebra.Group.Action.Defs

/-!
# Totals over a finite map

`Finmap.total f s` adds `f key value` over the entries of a finite map. Every quantity a
keyed store keeps as a running aggregate (a number of entries, a sum of one field, a sum
over the entries that meet a predicate) is such a total, so one lemma for each map operation
says how all of them move:

* `total_insert_of_notMem` — a fresh key adds its own term;
* `total_erase` — erasing a key takes its term away;
* `total_insert_of_lookup` — overwriting a key exchanges the two terms.
-/

namespace Finmap

variable {K V : Type*} [DecidableEq K]

/-- The sum of `f key value` over the entries of `s`. -/
def total (f : K → V → ℕ) (s : Finmap fun _ : K => V) : ℕ :=
  (s.entries.map fun e => f e.1 e.2).sum

/-- The number of entries of `s`. -/
def size (s : Finmap fun _ : K => V) : ℕ := Multiset.card s.entries

/-! ## Rewriting a map as an insertion -/

/-- A map is its erasure at a bound key with that key put back. -/
theorem insert_erase_of_lookup {s : Finmap fun _ : K => V} {a : K} {b : V}
    (h : s.lookup a = some b) : (s.erase a).insert a b = s := by
  apply ext_lookup
  intro x
  by_cases hx : x = a
  · subst hx
    rw [lookup_insert, h]
  · rw [lookup_insert_of_ne _ hx, lookup_erase_ne hx]

/-- A key that is not bound stays so when another is erased. -/
theorem lookup_erase_of_none {s : Finmap fun _ : K => V} {a a' : K} (h : s.lookup a' = none) :
    (s.erase a).lookup a' = none := by
  by_cases ha : a' = a
  · rw [ha, lookup_erase]
  · rwa [lookup_erase_ne ha]

/-- Overwriting a key forgets what it was bound to. -/
theorem insert_eq_insert_erase (s : Finmap fun _ : K => V) (a : K) (b : V) :
    s.insert a b = (s.erase a).insert a b := by
  apply ext_lookup
  intro x
  by_cases hx : x = a
  · subst hx
    rw [lookup_insert, lookup_insert]
  · rw [lookup_insert_of_ne _ hx, lookup_insert_of_ne _ hx, lookup_erase_ne hx]

/-- Erasing a key forgets what it was bound to. -/
theorem erase_insert_self (s : Finmap fun _ : K => V) (a : K) (b : V) :
    (s.insert a b).erase a = s.erase a := by
  apply ext_lookup
  intro x
  by_cases hx : x = a
  · subst hx
    rw [lookup_erase, lookup_erase]
  · rw [lookup_erase_ne hx, lookup_insert_of_ne _ hx, lookup_erase_ne hx]

/-- Erasing a key that is not bound changes nothing. -/
theorem erase_of_lookup_eq_none {s : Finmap fun _ : K => V} {a : K} (h : s.lookup a = none) :
    s.erase a = s := by
  apply ext_lookup
  intro x
  by_cases hx : x = a
  · subst hx
    rw [lookup_erase, h]
  · rw [lookup_erase_ne hx]

/-! ## How the operations move a total -/

omit [DecidableEq K] in
@[simp] theorem total_empty (f : K → V → ℕ) : total f (∅ : Finmap fun _ : K => V) = 0 := rfl

theorem total_insert_of_notMem (f : K → V → ℕ) {s : Finmap fun _ : K => V} {a : K} (b : V)
    (h : a ∉ s) : total f (s.insert a b) = total f s + f a b := by
  unfold total
  rw [entries_insert_of_notMem h, Multiset.map_cons, Multiset.sum_cons, Nat.add_comm]

theorem total_erase (f : K → V → ℕ) {s : Finmap fun _ : K => V} {a : K} {b : V}
    (h : s.lookup a = some b) : total f (s.erase a) + f a b = total f s := by
  conv_rhs => rw [← insert_erase_of_lookup h]
  rw [total_insert_of_notMem f b notMem_erase_self]

theorem total_insert_of_lookup (f : K → V → ℕ) {s : Finmap fun _ : K => V} {a : K} {b : V}
    (b' : V) (h : s.lookup a = some b) :
    total f (s.insert a b') + f a b = total f s + f a b' := by
  rw [insert_eq_insert_erase, total_insert_of_notMem f b' notMem_erase_self,
    ← total_erase f h]
  omega

/-! ## Comparing a total with its terms -/

/-- Membership of an entry is a lookup. -/
theorem mem_entries_iff {s : Finmap fun _ : K => V} {a : K} {b : V} :
    (⟨a, b⟩ : Sigma fun _ : K => V) ∈ s.entries ↔ s.lookup a = some b :=
  lookup_eq_some_iff.symm

theorem total_congr {f g : K → V → ℕ} {s : Finmap fun _ : K => V}
    (h : ∀ a b, s.lookup a = some b → f a b = g a b) : total f s = total g s := by
  unfold total
  congr 1
  apply Multiset.map_congr rfl
  intro e he
  exact h e.1 e.2 (mem_entries_iff.mp he)

theorem total_le_total {f g : K → V → ℕ} {s : Finmap fun _ : K => V}
    (h : ∀ a b, s.lookup a = some b → f a b ≤ g a b) : total f s ≤ total g s := by
  unfold total
  apply Multiset.sum_map_le_sum_map
  intro e he
  exact h e.1 e.2 (mem_entries_iff.mp he)

/-- Each term is at most the total. -/
theorem le_total (f : K → V → ℕ) {s : Finmap fun _ : K => V} {a : K} {b : V}
    (h : s.lookup a = some b) : f a b ≤ total f s := by
  rw [← total_erase f h]
  omega

theorem total_eq_zero_iff {f : K → V → ℕ} {s : Finmap fun _ : K => V} :
    total f s = 0 ↔ ∀ a b, s.lookup a = some b → f a b = 0 := by
  constructor
  · intro hz a b hab
    have := le_total f hab
    omega
  · intro hz
    rw [total_congr hz]
    simp [total]

/-- Two maps that bind the same keys, to values with the same terms, have the same total. -/
theorem total_eq_total_of_map {W : Type*} {f : K → V → ℕ} {g : K → W → ℕ} {φ : V → W}
    {s : Finmap fun _ : K => V} {t : Finmap fun _ : K => W}
    (h : ∀ a, t.lookup a = (s.lookup a).map φ)
    (hfg : ∀ a b, s.lookup a = some b → g a (φ b) = f a b) : total g t = total f s := by
  have hinj : ∀ x ∈ s.entries, ∀ y ∈ s.entries,
      (⟨x.1, φ x.2⟩ : Sigma fun _ : K => W) = ⟨y.1, φ y.2⟩ → x = y := by
    rintro ⟨a, b⟩ hx ⟨a', b'⟩ hy he
    obtain ⟨rfl, -⟩ := Sigma.mk.inj_iff.mp he
    have hb := (mem_entries_iff.mp hx).symm.trans (mem_entries_iff.mp hy)
    rw [Option.some_inj] at hb
    rw [hb]
  have hentries : t.entries = s.entries.map fun e => ⟨e.1, φ e.2⟩ := by
    refine (Multiset.Nodup.ext t.nodupKeys.nodup
      (Multiset.Nodup.map_on hinj s.nodupKeys.nodup)).mpr ?_
    rintro ⟨a, c⟩
    rw [mem_entries_iff, h a, Option.map_eq_some_iff, Multiset.mem_map]
    constructor
    · rintro ⟨b, hb, rfl⟩
      exact ⟨⟨a, b⟩, mem_entries_iff.mpr hb, rfl⟩
    · rintro ⟨⟨a', b⟩, hb, he⟩
      obtain ⟨rfl, hc⟩ := Sigma.mk.inj_iff.mp he
      exact ⟨b, mem_entries_iff.mp hb, eq_of_heq hc⟩
  unfold total
  rw [hentries, Multiset.map_map]
  exact congrArg _ (Multiset.map_congr rfl fun e he => hfg e.1 e.2 (mem_entries_iff.mp he))

/-- A map that binds less has no larger total. -/
theorem total_le_of_lookup (f : K → V → ℕ) {s t : Finmap fun _ : K => V}
    (h : ∀ a b, s.lookup a = some b → t.lookup a = some b) : total f s ≤ total f t := by
  have hle : s.entries ≤ t.entries := by
    refine (Multiset.le_iff_subset s.nodupKeys.nodup).mpr ?_
    rintro ⟨a, b⟩ he
    exact mem_entries_iff.mpr (h a b (mem_entries_iff.mp he))
  obtain ⟨extra, hextra⟩ := Multiset.le_iff_exists_add.mp hle
  unfold total
  rw [hextra, Multiset.map_add, Multiset.sum_add]
  exact Nat.le_add_right _ _

/-! ## Totals at a place

The entries sit at places (`place`) and weigh something (`weight`); the total at a place is the
weight of the entries there. -/

section Placed

variable {P : Type*} [DecidableEq P] (place : V → P) (weight : V → ℕ)

/-- The weight of the entries at a place. -/
def totalAt (s : Finmap fun _ : K => V) (p : P) : ℕ :=
  total (fun _ v => if place v = p then weight v else 0) s

variable {place weight} {s : Finmap fun _ : K => V} {a : K} {b : V}

omit [DecidableEq K] in
@[simp] theorem totalAt_empty (p : P) :
    totalAt place weight (∅ : Finmap fun _ : K => V) p = 0 := rfl

theorem totalAt_insert_of_notMem (h : a ∉ s) (p : P) :
    totalAt place weight (s.insert a b) p
      = totalAt place weight s p + if place b = p then weight b else 0 :=
  total_insert_of_notMem _ b h

theorem totalAt_erase (h : s.lookup a = some b) (p : P) :
    totalAt place weight (s.erase a) p + (if place b = p then weight b else 0)
      = totalAt place weight s p :=
  total_erase _ h

/-- An entry overwritten in its place. -/
theorem totalAt_insert_of_lookup (place : V → P) (weight : V → ℕ) (b' : V)
    (h : s.lookup a = some b) (hb : place b' = place b) (p : P) :
    totalAt place weight (s.insert a b') p + (if place b = p then weight b else 0)
      = totalAt place weight s p + if place b = p then weight b' else 0 := by
  have := total_insert_of_lookup (fun _ v => if place v = p then weight v else 0) b' h
  rwa [hb] at this

/-- An entry weighs at most what its place does. -/
theorem le_totalAt (place : V → P) (weight : V → ℕ) (h : s.lookup a = some b) :
    weight b ≤ totalAt place weight s (place b) := by
  have := le_total (fun _ v => if place v = place b then weight v else 0) h
  rwa [if_pos rfl] at this

/-- When every entry weighs something, a place without weight has no entries. -/
theorem totalAt_eq_zero_iff (h : ∀ a b, s.lookup a = some b → weight b ≠ 0) (p : P) :
    totalAt place weight s p = 0 ↔ totalAt place (fun _ => 1) s p = 0 := by
  rw [totalAt, totalAt, total_eq_zero_iff, total_eq_zero_iff]
  refine forall₂_congr fun a b => imp_congr_right fun hb => ?_
  have := h a b hb
  split
  · simp [this]
  · simp

/-- When every entry weighs something, a place has no more entries than weight. -/
theorem count_le_totalAt (h : ∀ a b, s.lookup a = some b → weight b ≠ 0) (p : P) :
    totalAt place (fun _ => 1) s p ≤ totalAt place weight s p := by
  refine total_le_total fun a b hb => ?_
  split
  · exact Nat.one_le_iff_ne_zero.mpr (h a b hb)
  · exact le_rfl

end Placed

/-! ## The number of entries -/

omit [DecidableEq K] in
theorem size_eq_total (s : Finmap fun _ : K => V) : size s = total (fun _ _ => 1) s := by
  simp [size, total]

omit [DecidableEq K] in
theorem total_const (s : Finmap fun _ : K => V) (c : ℕ) : total (fun _ _ => c) s = c * size s := by
  rw [total, size, Multiset.map_const', Multiset.sum_replicate, smul_eq_mul, Nat.mul_comm]

theorem size_le_of_lookup {s t : Finmap fun _ : K => V}
    (h : ∀ a b, s.lookup a = some b → t.lookup a = some b) : size s ≤ size t := by
  rw [size_eq_total, size_eq_total]
  exact total_le_of_lookup _ h

omit [DecidableEq K] in
@[simp] theorem size_empty : size (∅ : Finmap fun _ : K => V) = 0 := rfl

theorem size_insert_of_notMem {s : Finmap fun _ : K => V} {a : K} (b : V) (h : a ∉ s) :
    size (s.insert a b) = size s + 1 := by
  rw [size_eq_total, size_eq_total, total_insert_of_notMem _ b h]

theorem size_erase {s : Finmap fun _ : K => V} {a : K} {b : V} (h : s.lookup a = some b) :
    size (s.erase a) + 1 = size s := by
  rw [size_eq_total, size_eq_total, total_erase (fun _ _ => 1) h]

theorem size_insert_of_lookup {s : Finmap fun _ : K => V} {a : K} {b : V} (b' : V)
    (h : s.lookup a = some b) : size (s.insert a b') = size s := by
  have := total_insert_of_lookup (fun _ _ => 1) b' h
  rw [size_eq_total, size_eq_total]
  omega

omit [DecidableEq K] in
theorem size_eq_card_keys (s : Finmap fun _ : K => V) : size s = s.keys.card := by
  simp [size, keys, Multiset.keys]

/-- Maps that bind the same keys have the same size. -/
theorem size_congr {W : Type*} {s : Finmap fun _ : K => V} {t : Finmap fun _ : K => W}
    (h : ∀ a, (s.lookup a).isSome = (t.lookup a).isSome) : size s = size t := by
  rw [size_eq_card_keys, size_eq_card_keys]
  congr 1
  ext a
  rw [mem_keys, mem_keys, ← lookup_isSome, ← lookup_isSome, h a]

theorem size_erase_le (s : Finmap fun _ : K => V) (a : K) : size (s.erase a) ≤ size s := by
  cases h : s.lookup a with
  | some b => rw [← size_erase h]; omega
  | none => rw [erase_of_lookup_eq_none h]

end Finmap
