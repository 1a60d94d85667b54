import ItchOrderbook.Rtl.OrderRefTableSpec
import Mathlib

/-!
# The orders that the table holds

`TableCore.Stores t live`: the slots are sound for the searches of the table, and hold the entries
of `live`. Each command has a lemma that says what it answers and what the table holds after it.
-/

namespace ItchOrderbook.Rtl

open TombstoneProbing

/-- The slots of a table can be counted over. -/
instance fintypeBitVec {w : ℕ} : Fintype (BitVec w) := Fintype.ofEquiv _ BitVec.equivFin.toEquiv.symm

/-- The live orders, by reference. -/
abbrev LiveEntries := Finmap fun _ : UInt64 => OrderEntry

namespace TableCore

variable {c : Build} {t : TableCore c} {live : LiveEntries} {ref : UInt64} {e : OrderEntry}
  {q : TblCmd}

/-- What the table holds. -/
structure Stores (t : TableCore c) (live : LiveEntries) : Prop where
  probed : Probed (· + 1) (hashRef c) probeLeft t.slots
  represents : Represents t.slots live

theorem stores_empty : ({} : TableCore c).Stores ∅ := ⟨probed_empty, represents_empty⟩

/-- The registers of the answer are no part of what is stored. -/
theorem Stores.congr (h : t.Stores live) {t' : TableCore c} (ht : t'.slots = t.slots) :
    t'.Stores live := ⟨ht ▸ h.probed, ht ▸ h.represents⟩

/-- The slot of a live reference, found by every search for it. -/
theorem Stores.find_of_lookup (h : t.Stores live) (hl : live.lookup ref = some e) :
    ∃ i, t.find ref = some i ∧ t.slots i = .live ref e := by
  obtain ⟨i, hi⟩ := (h.represents.lookup_iff ref e).mp hl
  exact ⟨i, h.probed.find_eq_some_iff.mpr ⟨e, hi⟩, hi⟩

theorem Stores.find_of_none (h : t.Stores live) (hl : live.lookup ref = none) :
    t.find ref = none := by
  cases hf : t.find ref with
  | none => rfl
  | some i =>
    obtain ⟨e, he⟩ := live_of_find hf
    rw [(h.represents.lookup_iff ref e).mpr ⟨i, he⟩] at hl
    cases hl

theorem Stores.unique (h : t.Stores live) {i j : BitVec c.hashW} {v w : OrderEntry}
    (hi : t.slots i = .live ref v) (hj : t.slots j = .live ref w) : j = i :=
  h.probed.unique ref w v j i hj hi

/-- The search of an INSERT ends at a live reference where any search does. -/
theorem Stores.seek_of_lookup (h : t.Stores live) (hl : live.lookup ref = some e) :
    ∃ i, t.seek ref = .found i ∧ t.slots i = .live ref e := by
  obtain ⟨i, hf, hi⟩ := h.find_of_lookup hl
  obtain ⟨hfound, hplace, hfull⟩ := @seek_spec _ _ _ _ (· + 1) t.slots ref probeLeft
    (hashRef c ref) none
  cases hs : t.seek ref with
  | found j =>
    have hj : t.find ref = some j := hfound j hs
    rw [hf, Option.some_inj] at hj
    exact ⟨j, rfl, hj ▸ hi⟩
  | place j =>
    have hn : t.find ref = none := (hplace j hs).1
    rw [hf] at hn
    cases hn
  | full =>
    have hn : t.find ref = none := (hfull hs).1
    rw [hf] at hn
    cases hn

/-- For a reference that is not live it ends at a slot that it may use, or nowhere. -/
theorem Stores.seek_of_none (h : t.Stores live) (hl : live.lookup ref = none) :
    (∃ i, t.seek ref = .place i ∧ ¬(t.slots i).IsLive
        ∧ Reach (· + 1) (hashRef c) probeLeft t.slots ref i)
      ∨ t.seek ref = .full := by
  have hf := h.find_of_none hl
  obtain ⟨hfound, hplace, -⟩ := @seek_spec _ _ _ _ (· + 1) t.slots ref probeLeft
    (hashRef c ref) none
  cases hs : t.seek ref with
  | found j =>
    have hj : t.find ref = some j := hfound j hs
    rw [hf] at hj
    cases hj
  | place j =>
    obtain ⟨-, ht | ⟨-, hlive, hreach⟩⟩ := hplace j hs
    · cases ht
    · exact Or.inl ⟨j, rfl, hlive, hreach⟩
  | full => exact Or.inr rfl

/-! ## The commands -/

/-- A LOOKUP answers with the entry. -/
theorem Stores.lookup_some (h : t.Stores live) (hl : live.lookup ref = some e) :
    t.exec { op := .lookup, ref } = { t with
      resFound := true, resPrice := e.price, resShares := e.shares, resIsBid := e.isBid
      resLocate := e.locate } := by
  obtain ⟨i, hf, hi⟩ := h.find_of_lookup hl
  have hat : t.entryAt i = e := by rw [entryAt, hi]
  show t.endFind .lookup (t.find ref) = _
  rw [hf, ← hat]
  rfl

theorem Stores.lookup_none (h : t.Stores live) (hl : live.lookup ref = none) :
    t.exec { op := .lookup, ref } = { t with resFound := false } := by
  show t.endFind .lookup (t.find ref) = _
  rw [h.find_of_none hl]
  rfl

/-- A DELETE leaves the other orders. -/
theorem Stores.delete (h : t.Stores live) (hl : live.lookup ref = some e) :
    (t.exec { op := .delete, ref }).Stores (live.erase ref)
      ∧ (t.exec { op := .delete, ref }).resFound = true
      ∧ (t.exec { op := .delete, ref }).insFailCount = t.insFailCount := by
  obtain ⟨i, hf, hi⟩ := h.find_of_lookup hl
  have hexec : t.exec { op := .delete, ref } = t.endFind .delete (some i) := by
    show t.endFind .delete (t.find ref) = _
    rw [hf]
  rw [hexec]
  refine ⟨⟨h.probed.bury i, ?_⟩, rfl, rfl⟩
  exact h.represents.bury hi fun j w hj => h.unique hi hj

/-- An INSERT that may overwrite puts a live order in place of what it was. -/
theorem Stores.update (h : t.Stores live) (hl : live.lookup q.ref = some e) (hop : q.op = .insert)
    (hu : q.unique = false) :
    (t.exec q).Stores (live.insert q.ref q.insEntry) ∧ (t.exec q).resFound = true
      ∧ (t.exec q).insFailCount = t.insFailCount := by
  obtain ⟨i, hs, hi⟩ := h.seek_of_lookup hl
  have hexec : t.exec q = { t.write i q.insEntry.slot with resFound := true } := by
    unfold exec
    rw [hop]
    dsimp only
    rw [hs, endInsert, hu]
    rfl
  rw [hexec]
  refine ⟨⟨h.probed.overwrite hi _, ?_⟩, rfl, rfl⟩
  exact h.represents.overwrite hi (fun j w hj => h.unique hi hj) _

/-- The INSERT of an Add, for a reference that is live. -/
theorem Stores.insert_duplicate (h : t.Stores live) (hl : live.lookup q.ref = some e)
    (hop : q.op = .insert) (hu : q.unique = true) : t.exec q = { t with resFound := false } := by
  obtain ⟨i, hs, -⟩ := h.seek_of_lookup hl
  unfold exec
  rw [hop]
  dsimp only
  rw [hs, endInsert, hu]
  rfl

/-- The INSERT of a new order: it is stored, or its probes run out. -/
theorem Stores.insert_new (h : t.Stores live) (hl : live.lookup q.ref = none)
    (hop : q.op = .insert) :
    t.seek q.ref ≠ .full ∧ (t.exec q).Stores (live.insert q.ref q.insEntry)
        ∧ (t.exec q).resFound = true ∧ (t.exec q).insFailCount = t.insFailCount
      ∨ t.seek q.ref = .full ∧ t.exec q = { t with insFailCount := t.insFailCount + 1 } := by
  rcases h.seek_of_none hl with ⟨i, hs, hlive, hreach⟩ | hs
  · have hexec : t.exec q = { t.write i q.insEntry.slot with resFound := true } := by
      unfold exec
      rw [hop]
      dsimp only
      rw [hs, endInsert]
    have hnew : ∀ j w, t.slots j ≠ .live q.ref w :=
      h.probed.not_live_of_find (h.find_of_none hl)
    rw [hexec, hs]
    exact Or.inl ⟨fun h => (by cases h), ⟨h.probed.fill hnew hreach _,
      h.represents.fill hlive hl _⟩, rfl, rfl⟩
  · refine Or.inr ⟨hs, ?_⟩
    unfold exec
    rw [hop]
    dsimp only
    rw [hs, endInsert]

end TableCore

end ItchOrderbook.Rtl
