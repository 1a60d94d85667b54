import Std.Data.ExtTreeMap
import Std.Data.ExtTreeMap.Lemmas

/-!
# The two ends of an ordered map

The entry at an end of an ordered map is the key there with the value the map gives it
(`maxEntry?_of_maxKey?`, `minEntry?_of_minKey?`). The tree under the map is searched the same way
for the entry as for the key, along its rightmost or leftmost branch.
-/

namespace Std.DTreeMap.Internal.Impl

variable {α β : Type}

theorem map_fst_maxEntry? (l : Impl α fun _ => β) :
    (Const.maxEntry? l).map Prod.fst = l.maxKey? := by
  induction l using Const.maxEntry?.induct_unfolding with
  | case1 => simp only [maxKey?, Option.map_none]
  | case2 => simp only [maxKey?, Option.map_some]
  | case3 _ _ _ _ _ _ _ _ _ ih =>
    simp only [maxKey?]
    exact ih

theorem map_fst_minEntry? (l : Impl α fun _ => β) :
    (Const.minEntry? l).map Prod.fst = l.minKey? := by
  induction l using Const.minEntry?.induct_unfolding with
  | case1 => simp only [minKey?, Option.map_none]
  | case2 => simp only [minKey?, Option.map_some]
  | case3 _ _ _ _ _ _ _ _ _ ih =>
    simp only [minKey?]
    exact ih

theorem mem_of_maxEntry? (l : Impl α fun _ => β) {e : α × β} (h : Const.maxEntry? l = some e) :
    ⟨e.1, e.2⟩ ∈ l.toListModel := by
  induction l using Const.maxEntry?.induct_unfolding with
  | case1 => cases h
  | case2 =>
    cases h
    simp
  | case3 _ _ _ _ _ _ _ _ _ ih =>
    rw [toListModel_inner]
    exact List.mem_append_right _ (List.mem_cons_of_mem _ (ih h))

theorem mem_of_minEntry? (l : Impl α fun _ => β) {e : α × β} (h : Const.minEntry? l = some e) :
    ⟨e.1, e.2⟩ ∈ l.toListModel := by
  induction l using Const.minEntry?.induct_unfolding with
  | case1 => cases h
  | case2 =>
    cases h
    simp
  | case3 _ _ _ _ _ _ _ _ _ ih =>
    rw [toListModel_inner]
    exact List.mem_append_left _ (ih h)

end Std.DTreeMap.Internal.Impl

namespace Std.ExtTreeMap

open DTreeMap.Internal

variable {α β : Type} {cmp : α → α → Ordering} [TransCmp cmp] {t : ExtTreeMap α β cmp} {k : α}
  {v : β}

theorem maxEntry?_map_fst (t : ExtTreeMap α β cmp) : t.maxEntry?.map Prod.fst = t.maxKey? := by
  obtain ⟨⟨q⟩⟩ := t
  induction q using Quotient.inductionOn with
  | h m => exact Impl.map_fst_maxEntry? m.inner

theorem minEntry?_map_fst (t : ExtTreeMap α β cmp) : t.minEntry?.map Prod.fst = t.minKey? := by
  obtain ⟨⟨q⟩⟩ := t
  induction q using Quotient.inductionOn with
  | h m => exact Impl.map_fst_minEntry? m.inner

section Lawful

variable [LawfulEqCmp cmp]

theorem getElem?_of_maxEntry? {e : α × β} (h : t.maxEntry? = some e) : t[e.1]? = some e.2 := by
  rw [← mem_toList_iff_getElem?_eq_some]
  obtain ⟨⟨q⟩⟩ := t
  induction q using Quotient.inductionOn with
  | h m =>
    show (e.1, e.2) ∈ Impl.Const.toList m.inner
    rw [Impl.Const.toList_eq_toListModel_map]
    exact List.mem_map.mpr ⟨_, Impl.mem_of_maxEntry? m.inner h, rfl⟩

theorem getElem?_of_minEntry? {e : α × β} (h : t.minEntry? = some e) : t[e.1]? = some e.2 := by
  rw [← mem_toList_iff_getElem?_eq_some]
  obtain ⟨⟨q⟩⟩ := t
  induction q using Quotient.inductionOn with
  | h m =>
    show (e.1, e.2) ∈ Impl.Const.toList m.inner
    rw [Impl.Const.toList_eq_toListModel_map]
    exact List.mem_map.mpr ⟨_, Impl.mem_of_minEntry? m.inner h, rfl⟩

/-- The last entry is the last key with its value. -/
theorem maxEntry?_of_maxKey? (hk : t.maxKey? = some k) (hv : t[k]? = some v) :
    t.maxEntry? = some (k, v) := by
  have hfst := t.maxEntry?_map_fst
  cases he : t.maxEntry? with
  | none =>
    rw [he, hk] at hfst
    cases hfst
  | some e =>
    rw [he, hk, Option.map_some, Option.some_inj] at hfst
    have hget := getElem?_of_maxEntry? he
    rw [hfst, hv, Option.some_inj] at hget
    rw [hget, ← hfst]

/-- The first entry is the first key with its value. -/
theorem minEntry?_of_minKey? (hk : t.minKey? = some k) (hv : t[k]? = some v) :
    t.minEntry? = some (k, v) := by
  have hfst := t.minEntry?_map_fst
  cases he : t.minEntry? with
  | none =>
    rw [he, hk] at hfst
    cases hfst
  | some e =>
    rw [he, hk, Option.map_some, Option.some_inj] at hfst
    have hget := getElem?_of_minEntry? he
    rw [hfst, hv, Option.some_inj] at hget
    rw [hget, ← hfst]

end Lawful

/-- A map without a last key has no last entry. -/
theorem maxEntry?_of_maxKey?_eq_none (h : t.maxKey? = none) : t.maxEntry? = none := by
  rwa [← maxEntry?_map_fst, Option.map_eq_none_iff] at h

/-- A map without a first key has no first entry. -/
theorem minEntry?_of_minKey?_eq_none (h : t.minKey? = none) : t.minEntry? = none := by
  rwa [← minEntry?_map_fst, Option.map_eq_none_iff] at h

end Std.ExtTreeMap
