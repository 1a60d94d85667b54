import ItchOrderbook.Book.OrderRefTable
import ItchOrderbook.Lib.LinearProbing

/-!
# The order-reference table refines the finite map

`Refines t m` says that the slots of the table are probed soundly and hold exactly the live
references of the map. Each operation keeps it and answers as the map does; erasing does so
while some slot is empty, since the backward shift stops at an empty slot only.
-/

namespace ItchOrderbook

open LinearProbing (Slots Probed Passed AllOthers Searching Shifting Represents dist occupied)

namespace OrderRefTable

/-- The number of slots. -/
def slotCount (t : OrderRefTable) : ℕ := t.cap.toNat

/-- `capacity`. -/
abbrev capacity := slotCount

/-- What the slots hold. -/
def slots (t : OrderRefTable) : Slots UInt64 Value := fun x =>
  if x < t.slotCount ∧ t.keys (UInt32.ofNat x) ≠ 0
  then some (t.keys (UInt32.ofNat x), t.vals (UInt32.ofNat x)) else none

/-- The home slot of a reference. -/
def homeSlot (t : OrderRefTable) (ref : UInt64) : ℕ := (t.home ref).toNat

/-- The capacity is a power of two and the mask cuts an index down to it. -/
structure Sized (t : OrderRefTable) : Prop where
  pow : ∃ k < 32, t.cap.toNat = 2 ^ k
  mask_eq : t.mask = t.cap - 1

/-- The table `t` stands for the map `m`. -/
structure Refines (t : OrderRefTable) (m : RefMap) : Prop where
  sized : t.Sized
  capacity : m.capacity = t.slotCount
  probed : Probed t.slotCount t.homeSlot t.slots
  represents : Represents t.slotCount t.slots m.live
  size_eq : t.size = m.live.size

theorem Sized.congr {t t' : OrderRefTable} (h : t.Sized) (hcap : t'.cap = t.cap)
    (hmask : t'.mask = t.mask) : t'.Sized :=
  ⟨hcap ▸ h.pow, by rw [hmask, hcap, h.mask_eq]⟩

/-! ## Indices -/

section Indices

variable {t : OrderRefTable} (h : t.Sized)

include h

theorem Sized.pos : 0 < t.slotCount := by
  obtain ⟨k, -, hk⟩ := h.pow
  rw [slotCount, hk]
  exact Nat.two_pow_pos k

theorem Sized.toNat_and_mask (x : UInt32) : (x &&& t.mask).toNat = x.toNat % t.slotCount := by
  obtain ⟨k, hk32, hk⟩ := h.pow
  have hpos := Nat.two_pow_pos k
  have hmask : t.mask.toNat = 2 ^ k - 1 := by
    rw [h.mask_eq, UInt32.toNat_sub_of_le _ _ ?_, hk, UInt32.toNat_one]
    rw [UInt32.le_iff_toNat_le, hk, UInt32.toNat_one]
    exact hpos
  rw [UInt32.toNat_and, hmask, Nat.and_two_pow_sub_one_eq_mod, slotCount, hk]

theorem Sized.and_mask_lt (x : UInt32) : (x &&& t.mask).toNat < t.slotCount := by
  rw [h.toNat_and_mask]
  exact Nat.mod_lt _ h.pos

theorem Sized.home_lt (ref : UInt64) : t.homeSlot ref < t.slotCount := h.and_mask_lt _

/-- `(i + 1) & mask_` is the slot after `i`. -/
theorem Sized.toNat_next {i : UInt32} (hi : i.toNat < t.slotCount) :
    ((i + 1) &&& t.mask).toNat = LinearProbing.next t.slotCount i.toNat := by
  have hlt : t.slotCount < 2 ^ 32 := t.cap.toNat_lt
  have hadd : (i.toNat + 1) % 2 ^ 32 = i.toNat + 1 := Nat.mod_eq_of_lt (by omega)
  rw [h.toNat_and_mask, UInt32.toNat_add, UInt32.toNat_one, hadd, LinearProbing.next]
  split
  · rename_i heq
    rw [heq, Nat.mod_self]
  · exact Nat.mod_eq_of_lt (by omega)

end Indices

/-- The gap test, in terms of distances. -/
theorem inGap_iff {n : ℕ} {i j k : UInt32} (hi : i.toNat < n) (hj : j.toNat < n)
    (hk : k.toNat < n) (hij : i ≠ j) :
    inGap i j k = true ↔ ¬dist n k.toNat i.toNat < dist n k.toNat j.toNat := by
  have hne : i.toNat ≠ j.toNat := fun e => hij (UInt32.toNat_inj.mp e)
  rw [← LinearProbing.mem_gap_iff hi hj hk hne, inGap]
  simp only [UInt32.le_iff_toNat_le, UInt32.lt_iff_toNat_lt, LinearProbing.dist]
  split_ifs <;> simp only [decide_eq_true_eq] <;> omega

/-! ## Reading and writing a slot -/

section Slots

variable {t : OrderRefTable} {i : UInt32}

theorem slots_toNat (hi : i.toNat < t.slotCount) :
    t.slots i.toNat = if t.keys i = 0 then none else some (t.keys i, t.vals i) := by
  unfold slots
  rw [UInt32.ofNat_toNat]
  by_cases h0 : t.keys i = 0
  · rw [if_neg (fun h => h.2 h0), if_pos h0]
  · rw [if_pos ⟨hi, h0⟩, if_neg h0]

theorem slots_eq_none (hi : i.toNat < t.slotCount) (h0 : t.keys i = 0) :
    t.slots i.toNat = none := by
  rw [slots_toNat hi, if_pos h0]

theorem slots_eq_some (hi : i.toNat < t.slotCount) (h0 : t.keys i ≠ 0) :
    t.slots i.toNat = some (t.keys i, t.vals i) := by
  rw [slots_toNat hi, if_neg h0]

/-- Every slot below the capacity is the slot of its own index. -/
theorem exists_index (t : OrderRefTable) {x : ℕ} (hx : x < t.slotCount) :
    ∃ i : UInt32, i.toNat = x :=
  ⟨UInt32.ofNat x, UInt32.toNat_ofNat_of_lt' (hx.trans t.cap.toNat_lt)⟩

/-- Writing a slot shows in that slot only; writing key 0 empties it. -/
theorem slots_write (hi : i.toNat < t.slotCount) (key : UInt64) (v : Value) :
    (t.write i key v).slots
      = Function.update t.slots i.toNat (if key = 0 then none else some (key, v)) := by
  funext x
  by_cases hx : x < t.slotCount
  · obtain ⟨j, rfl⟩ := t.exists_index hx
    rw [slots_toNat (show j.toNat < (t.write i key v).slotCount from hx)]
    by_cases hij : j = i
    · subst hij
      simp only [write, Function.update_self]
    · rw [Function.update_of_ne (fun e => hij (UInt32.toNat_inj.mp e)), slots_toNat hx]
      simp only [write, Function.update_of_ne hij]
  · have hxi : x ≠ i.toNat := fun e => hx (e ▸ hi)
    rw [Function.update_of_ne hxi, slots, slots, if_neg (fun h => hx h.1),
      if_neg (fun h => hx h.1)]

theorem slots_fill (hi : i.toNat < t.slotCount) {key : UInt64} (h0 : key ≠ 0) (v : Value) :
    (t.write i key v).slots = Function.update t.slots i.toNat (some (key, v)) := by
  rw [slots_write hi, if_neg h0]

theorem slots_wipe (hi : i.toNat < t.slotCount) (v : Value) :
    (t.write i 0 v).slots = Function.update t.slots i.toNat none := by
  rw [slots_write hi, if_pos rfl]

end Slots

/-! ## Searching -/

section Searches

variable {t : OrderRefTable} {ref : UInt64} {i : UInt32} {left : ℕ}

/-- The search goes on past a slot that holds another reference. -/
theorem searching_next (h : t.Sized)
    (hs : Searching t.slotCount t.homeSlot t.slots ref i.toNat (left + 1))
    (hi : i.toNat < t.slotCount) (h0 : t.keys i ≠ 0) (hne : t.keys i ≠ ref) :
    Searching t.slotCount t.homeSlot t.slots ref ((i + 1) &&& t.mask).toNat left := by
  rw [h.toNat_next hi]
  exact hs.step hi (h.home_lt ref) (slots_eq_some hi h0) hne

/-- How the search of `insert` can end. Induction on the slots left to look at. -/
theorem insertLoop_spec (h : t.Sized)
    (hs : Searching t.slotCount t.homeSlot t.slots ref i.toNat left) (hi : i.toNat < t.slotCount)
    (probes : UInt32) :
    match t.insertLoop ref left i probes with
    | .empty i' _ => i'.toNat < t.slotCount ∧ t.keys i' = 0
        ∧ Passed t.slotCount t.homeSlot t.slots ref i'.toNat
    | .present i' => i'.toNat < t.slotCount ∧ t.keys i' = ref ∧ t.keys i' ≠ 0
    | .full => AllOthers t.slotCount t.slots ref := by
  induction left generalizing i probes with
  | zero => exact hs.exhausted hi (h.home_lt ref)
  | succ left ih =>
    unfold insertLoop
    by_cases h0 : t.keys i = 0
    · rw [if_pos h0]
      exact ⟨hi, h0, hs.passed hi (slots_eq_none hi h0)⟩
    · rw [if_neg h0]
      by_cases hr : t.keys i = ref
      · rw [if_pos hr]
        exact ⟨hi, hr, h0⟩
      · rw [if_neg hr]
        exact ih (searching_next h hs hi h0 hr) (h.and_mask_lt _) _

/-- What the probe answers: a slot of the reference, or that there is none. -/
theorem probeScalar_spec (h : t.Sized) (hp : Probed t.slotCount t.homeSlot t.slots)
    (hs : Searching t.slotCount t.homeSlot t.slots ref i.toNat left) (hi : i.toNat < t.slotCount) :
    match t.probeScalar ref left i with
    | some i' => i'.toNat < t.slotCount ∧ t.keys i' = ref
    | none => ∀ x < t.slotCount, ∀ v, t.slots x ≠ some (ref, v) := by
  induction left generalizing i with
  | zero => exact (hs.exhausted hi (h.home_lt ref)).absent
  | succ left ih =>
    unfold probeScalar
    by_cases hr : t.keys i = ref
    · rw [if_pos hr]
      exact ⟨hi, hr⟩
    · rw [if_neg hr]
      by_cases h0 : t.keys i = 0
      · rw [if_pos h0]
        have hempty := slots_eq_none hi h0
        exact hp.absent (h.home_lt ref) (hs.passed hi hempty) hi hempty
      · rw [if_neg h0]
        exact ih (searching_next h hs hi h0 hr) (h.and_mask_lt _)

end Searches

section Operations

variable {t : OrderRefTable} {m : RefMap} (h : t.Refines m)

include h

/-- A slot that holds a reference binds it in the map. -/
theorem Refines.lookup_of_keys {i : UInt32} (hi : i.toNat < t.slotCount) (h0 : t.keys i ≠ 0) :
    m.live.lookup (t.keys i) = some (t.vals i) :=
  (h.represents.lookup_iff _ _).mpr ⟨i.toNat, hi, slots_eq_some hi h0⟩

/-- A reference has one slot. -/
theorem Refines.slot_unique {i : UInt32} (hi : i.toNat < t.slotCount) (h0 : t.keys i ≠ 0) :
    ∀ x < t.slotCount, ∀ w, t.slots x = some (t.keys i, w) → x = i.toNat := fun x hx _ hs =>
  h.probed.unique x hx i.toNat hi _ _ hs (slots_eq_some hi h0) rfl

/-- `find_index` finds the slot of a live reference, and no slot of any other. -/
theorem Refines.findIndex_spec (ref : UInt64) :
    match t.findIndex ref with
    | some i => i.toNat < t.slotCount ∧ t.keys i = ref ∧ ref ≠ 0
    | none => m.live.lookup ref = none := by
  unfold findIndex
  by_cases h0 : ref = 0
  · rw [if_pos h0, h0]
    exact m.find_zero
  · rw [if_neg h0]
    have hspec := probeScalar_spec h.sized h.probed
      (LinearProbing.searching_home (Nat.le_succ t.slotCount)) (h.sized.home_lt ref)
    cases hr : t.probeScalar ref (t.cap.toNat + 1) (t.home ref) with
    | some i =>
      rw [show t.probeScalar ref (t.slotCount + 1) (t.home ref) = some i from hr] at hspec
      exact ⟨hspec.1, hspec.2, h0⟩
    | none =>
      rw [show t.probeScalar ref (t.slotCount + 1) (t.home ref) = none from hr] at hspec
      exact h.represents.lookup_eq_none hspec

theorem Refines.find_eq (ref : UInt64) : t.find ref = m.find ref := by
  have hspec := h.findIndex_spec ref
  unfold find RefMap.find
  cases hf : t.findIndex ref with
  | none =>
    rw [hf] at hspec
    rw [Option.map_none]
    exact hspec.symm
  | some i =>
    rw [hf] at hspec
    obtain ⟨hi, hkey, h0⟩ := hspec
    rw [Option.map_some, ← hkey]
    exact (h.lookup_of_keys hi (hkey ▸ h0)).symm

/-- A map with room is stood for by a table with an empty slot. -/
theorem Refines.exists_empty (hroom : m.live.size < m.capacity) :
    ∃ x < t.slotCount, t.slots x = none := by
  by_contra hfull
  have hocc : occupied t.slotCount t.slots = t.slotCount :=
    LinearProbing.occupied_eq_iff.mpr fun x hx he => hfull ⟨x, hx, he⟩
  rw [h.represents.size_eq, h.capacity, hocc] at hroom
  exact absurd hroom (Nat.lt_irrefl _)

/-- **Insertion** answers and acts as on the map; a refused one leaves the table itself. -/
theorem Refines.insert (ref : UInt64) (v : Value) :
    (t.insert ref v).1 = (m.insert ref v).1 ∧ (t.insert ref v).2.Refines (m.insert ref v).2
      ∧ ((t.insert ref v).1 = false → (t.insert ref v).2 = t) := by
  unfold OrderRefTable.insert
  by_cases h0 : ref = 0
  · rw [if_pos h0, h0, RefMap.insert_zero]
    exact ⟨rfl, h, fun _ => rfl⟩
  rw [if_neg h0]
  have hspec := insertLoop_spec h.sized (LinearProbing.searching_home (le_refl t.slotCount))
    (h.sized.home_lt ref) 1
  cases hl : t.insertLoop ref t.cap.toNat (t.home ref) 1 with
  | full =>
    rw [show t.insertLoop ref t.slotCount (t.home ref) 1 = .full from hl] at hspec
    have hnew := h.represents.lookup_eq_none hspec.absent
    have hfull : m.live.size = m.capacity := by
      rw [h.represents.size_eq, h.capacity, LinearProbing.occupied_eq_iff]
      intro x hx he
      obtain ⟨e, hs, -⟩ := hspec x hx
      rw [he] at hs
      cases hs
    rw [RefMap.insert_of_full (Finmap.lookup_eq_none.mp hnew) hfull]
    exact ⟨rfl, h, fun _ => rfl⟩
  | present i =>
    rw [show t.insertLoop ref t.slotCount (t.home ref) 1 = .present i from hl] at hspec
    obtain ⟨hi, hkey, hne⟩ := hspec
    have hold := slots_eq_some hi hne
    have huniq := h.slot_unique hi hne
    have hlook := h.lookup_of_keys hi hne
    rw [hkey] at hold huniq hlook
    rw [RefMap.insert_of_mem (Finmap.mem_iff.mpr ⟨_, hlook⟩)]
    -- the key is there already, so only the value changes
    have hwrite : { t with vals := Function.update t.vals i v } = t.write i ref v := by
      rw [write, ← hkey, Function.update_eq_self]
    refine ⟨rfl, ?_, fun e => by cases e⟩
    show Refines { t with vals := Function.update t.vals i v } _
    rw [hwrite]
    refine ⟨h.sized.congr rfl rfl, h.capacity, ?_, ?_, ?_⟩
    · rw [slots_fill hi h0]
      exact h.probed.overwrite hold v
    · rw [slots_fill hi h0]
      exact h.represents.overwrite hi hold huniq v
    · exact h.size_eq.trans (Finmap.size_insert_of_lookup v hlook).symm
  | empty i probes =>
    rw [show t.insertLoop ref t.slotCount (t.home ref) 1 = .empty i probes from hl] at hspec
    obtain ⟨hi, hkey, hpass⟩ := hspec
    have hempty := slots_eq_none hi hkey
    have hnew := h.represents.lookup_eq_none
      (h.probed.absent (h.sized.home_lt ref) hpass hi hempty)
    have hroom : m.live.size < m.capacity := by
      refine lt_of_le_of_ne m.size_le fun heq => ?_
      rw [h.represents.size_eq, h.capacity, LinearProbing.occupied_eq_iff] at heq
      exact heq i.toNat hi hempty
    have hmem := Finmap.lookup_eq_none.mp hnew
    rw [RefMap.insert_of_room h0 hmem hroom]
    have hslots := slots_fill hi h0 v
    refine ⟨rfl, ⟨h.sized.congr rfl rfl, h.capacity, ?_, ?_, ?_⟩, fun e => by cases e⟩
    · show Probed t.slotCount t.homeSlot (t.write i ref v).slots
      rw [hslots]
      exact h.probed.place (h.sized.home_lt ref) hpass hi hempty v
    · show Represents t.slotCount (t.write i ref v).slots (m.live.insert ref v)
      rw [hslots]
      exact h.represents.fill hi hempty hnew v
    · show t.size + 1 = (m.live.insert ref v).size
      rw [Finmap.size_insert_of_notMem v hmem, h.size_eq]

end Operations

/-! ## Erasing -/

/-- The backward shift comes to the empty slot ahead, and what it leaves outside its last hole
is sound and holds what it held. Induction on the fuel; the empty slot is nearer each time. -/
theorem shiftLoop_spec {live : LiveOrders} {stop : ℕ} (fuel : ℕ) {t : OrderRefTable}
    {i j : UInt32} (h : t.Sized) (hi : i.toNat < t.slotCount) (hj : j.toNat < t.slotCount)
    (hs : Shifting t.slotCount t.homeSlot (Function.update t.slots i.toNat none) stop
      i.toNat j.toNat)
    (hrep : Represents t.slotCount (Function.update t.slots i.toNat none) live)
    (hfuel : dist t.slotCount j.toNat stop ≤ fuel) :
    ∃ t' i', shiftLoop fuel t i j = some (t', i') ∧ t'.cap = t.cap ∧ t'.mask = t.mask
      ∧ t'.size = t.size ∧ i'.toNat < t.slotCount
      ∧ Probed t.slotCount t.homeSlot (Function.update t'.slots i'.toNat none)
      ∧ Represents t.slotCount (Function.update t'.slots i'.toNat none) live := by
  induction fuel generalizing t i j with
  | zero =>
    have := hs.nearer hj
    omega
  | succ fuel ih =>
    have hnearer := hs.nearer hj
    have hnext := hs.next_ne hi hj
    rw [← h.toNat_next hj] at hnearer hnext
    have hj' := h.and_mask_lt (j + 1)
    have hat : Function.update t.slots i.toNat none ((j + 1) &&& t.mask).toNat
        = t.slots ((j + 1) &&& t.mask).toNat := Function.update_of_ne hnext ..
    unfold shiftLoop
    by_cases h0 : t.keys ((j + 1) &&& t.mask) = 0
    · rw [if_pos h0]
      rw [slots_eq_none hj' h0, h.toNat_next hj] at hat
      exact ⟨t, i, rfl, rfl, rfl, rfl, hi, hs.finish hi hj h.home_lt hat, hrep⟩
    · simp only [if_neg h0]
      rw [slots_eq_some hj' h0] at hat
      have hgap := inGap_iff hi hj' (h.home_lt (t.keys ((j + 1) &&& t.mask)))
        (fun e => hnext (congrArg UInt32.toNat e).symm)
      by_cases hin : inGap i ((j + 1) &&& t.mask) (t.home (t.keys ((j + 1) &&& t.mask))) = true
      · rw [if_pos hin]
        have hskip := hs.skip hi hj (h.toNat_next hj ▸ hat) (h.toNat_next hj ▸ hgap.mp hin)
        rw [← h.toNat_next hj] at hskip
        exact ih h hi hj' hskip hrep (by omega)
      · rw [if_neg hin]
        have hover := not_not.mp (fun hn => hin (hgap.mpr hn))
        have hmove := hs.move hi hj (h.toNat_next hj ▸ hat) (h.toNat_next hj ▸ hover)
        have hrep' := hrep.move hi hj' hnext (Function.update_self ..) hat
        rw [← h.toNat_next hj, Function.update_idem] at hmove
        rw [Function.update_idem] at hrep'
        rw [← slots_fill hi h0] at hmove hrep'
        have hless : dist t.slotCount ((j + 1) &&& t.mask).toNat stop ≤ fuel := by omega
        exact ih (h.congr rfl rfl) hj' hj' hmove hrep' hless

section Operations

variable {t : OrderRefTable} {m : RefMap} (h : t.Refines m)

include h

/-- **Erasing**, with an empty slot somewhere, returns, and answers and acts as on the map. -/
theorem Refines.erase (hroom : m.live.size < m.capacity) (ref : UInt64) :
    ∃ t', t.erase ref = some ((m.erase ref).1, t') ∧ t'.Refines (m.erase ref).2 := by
  have hspec := h.findIndex_spec ref
  unfold OrderRefTable.erase
  cases hf : t.findIndex ref with
  | none =>
    rw [hf] at hspec
    rw [RefMap.erase_of_notMem (Finmap.lookup_eq_none.mp hspec)]
    exact ⟨t, rfl, h⟩
  | some i =>
    rw [hf] at hspec
    obtain ⟨hi, hkey, h0⟩ := hspec
    rw [← hkey] at h0
    have hold := slots_eq_some hi h0
    have hlook := h.lookup_of_keys hi h0
    have hrep := h.represents.clear hi hold (h.slot_unique hi h0)
    rw [hkey] at hlook hrep
    obtain ⟨stop, hstop, hempty⟩ := h.exists_empty hroom
    have hshift := h.probed.shifting hi (hold ▸ Option.some_ne_none _) hstop hempty
    obtain ⟨t', i', hloop, hcap, hmask, hsize, hi', hprobed, hrep'⟩ :=
      shiftLoop_spec t.slotCount h.sized hi hi hshift hrep
        (le_of_lt (LinearProbing.dist_lt hi hstop))
    have hcount : t'.slotCount = t.slotCount := congrArg UInt32.toNat hcap
    have hhome : t'.homeSlot = t.homeSlot := by
      funext r
      rw [homeSlot, homeSlot, home, home, hmask]
    have hslots := slots_wipe (hcount ▸ hi') {}
    simp only [show t.cap.toNat = t.slotCount from rfl, hloop]
    refine ⟨{ t'.write i' 0 {} with size := t'.size - 1 }, ?_,
      ⟨h.sized.congr hcap hmask, h.capacity.trans hcount.symm, ?_, ?_, ?_⟩⟩
    · rw [RefMap.erase, decide_eq_true (Finmap.mem_iff.mpr ⟨_, hlook⟩)]
    · show Probed t'.slotCount t'.homeSlot (t'.write i' 0 {}).slots
      rw [hslots, hcount, hhome]
      exact hprobed
    · show Represents t'.slotCount (t'.write i' 0 {}).slots (m.live.erase ref)
      rw [hslots, hcount]
      exact hrep'
    · show t'.size - 1 = (m.live.erase ref).size
      have := Finmap.size_erase hlook
      have := h.size_eq
      omega

end Operations

/-! ## Sequences of calls -/

open RefTable (Call Reply call calls)

/-- No erase of the sequence is made while the table is full. -/
def neverErasesFull : OrderRefTable → List Call → Bool
  | _, [] => true
  | t, c :: cs =>
    (!c.isErase || t.size != t.capacity)
    && match call t c with
      | none => true
      | some (_, t) => neverErasesFull t cs

/-- One call answers as on the map. -/
theorem Refines.call {t : OrderRefTable} {m : RefMap} (h : t.Refines m) (c : Call)
    (hroom : ∀ ref, c = .erase ref → m.live.size < m.capacity) :
    ∃ t', RefTable.call t c = some ((RefTable.call m c : Id (Reply × RefMap)).1, t')
      ∧ t'.Refines (RefTable.call m c : Id (Reply × RefMap)).2 := by
  cases c with
  | insert ref v =>
    obtain ⟨hok, href, -⟩ := h.insert ref v
    refine ⟨(t.insert ref v).2, ?_, href⟩
    show some (Reply.inserted (t.insert ref v).1, _) = some (Reply.inserted (m.insert ref v).1, _)
    rw [hok]
    rfl
  | find ref =>
    refine ⟨t, ?_, h⟩
    show some (Reply.found (t.find ref), t) = some (Reply.found (m.find ref), t)
    rw [h.find_eq]
  | erase ref =>
    obtain ⟨t', herase, href⟩ := h.erase (hroom ref rfl) ref
    refine ⟨t', ?_, href⟩
    show (t.erase ref).bind _ = _
    rw [herase]
    rfl

/-- A sequence of calls answers as on the map. Induction on the calls. -/
theorem Refines.calls {t : OrderRefTable} {m : RefMap} (h : t.Refines m) (cs : List Call)
    (hroom : t.neverErasesFull cs = true) :
    ∃ t', RefTable.calls t cs = some ((RefTable.calls m cs : Id (List Reply × RefMap)).1, t')
      ∧ t'.Refines (RefTable.calls m cs : Id (List Reply × RefMap)).2 := by
  induction cs generalizing t m with
  | nil => exact ⟨t, rfl, h⟩
  | cons c cs ih =>
    rw [neverErasesFull, Bool.and_eq_true] at hroom
    obtain ⟨hfirst, hrest⟩ := hroom
    obtain ⟨t₁, hcall, h₁⟩ := h.call c (by
      rintro ref rfl
      rw [Call.isErase, Bool.not_true, Bool.false_or, bne_iff_ne, h.size_eq,
        show t.capacity = t.slotCount from rfl, ← h.capacity] at hfirst
      exact lt_of_le_of_ne m.size_le hfirst)
    rw [hcall] at hrest
    obtain ⟨t₂, hcalls, h₂⟩ := ih h₁ hrest
    refine ⟨t₂, ?_, h₂⟩
    show (RefTable.call t c).bind _ = _
    rw [hcall]
    show (RefTable.calls t₁ cs).bind _ = _
    rw [hcalls]
    rfl

/-! ## From a fresh table -/

/-- Rounding a power of two up leaves it. -/
theorem new_eq {capacityPow2 : UInt32} {k : ℕ} (h : capacityPow2.toNat = 2 ^ k) :
    new capacityPow2 = some (empty capacityPow2) := by
  have hk : k < 32 := by
    have := capacityPow2.toNat_lt
    rw [h] at this
    exact (Nat.pow_lt_pow_iff_right (by decide)).mp this
  have hcap : capacityPow2 = UInt32.ofNat (2 ^ k) := by rw [← h, UInt32.ofNat_toNat]
  have hround : ∀ j < 32, roundUp (UInt32.ofNat (2 ^ j)) 33 1 = some (UInt32.ofNat (2 ^ j)) := by
    decide
  rw [new, hcap, hround k hk]
  rfl

theorem slots_empty (cap : UInt32) : (empty cap).slots = fun _ => none := by
  funext x
  exact if_neg fun hx => hx.2 rfl

theorem refines_empty {capacityPow2 : UInt32} {k : ℕ} (h : capacityPow2.toNat = 2 ^ k) :
    (empty capacityPow2).Refines (RefMap.new (2 ^ k)) where
  sized := ⟨⟨k, (Nat.pow_lt_pow_iff_right (by decide)).mp (h ▸ capacityPow2.toNat_lt), h⟩, rfl⟩
  capacity := h.symm
  probed := by
    rw [slots_empty]
    exact ⟨fun _ _ _ hs => (Option.some_ne_none _ hs.symm).elim,
      fun _ _ _ _ _ _ hs => (Option.some_ne_none _ hs.symm).elim⟩
  represents := by
    rw [slots_empty]
    exact LinearProbing.represents_empty
  size_eq := rfl

/-- A live reference occupies exactly one slot. -/
theorem Refines.existsUnique_slot {t : OrderRefTable} {m : RefMap} (h : t.Refines m)
    {ref : UInt64} {v : Value} (hv : m.find ref = some v) :
    ∃! i : UInt32, i < t.cap ∧ t.keys i = ref := by
  obtain ⟨x, hx, hs⟩ := (h.represents.lookup_iff ref v).mp hv
  obtain ⟨i, rfl⟩ := t.exists_index hx
  have h0 : ref ≠ 0 := by
    rintro rfl
    rw [m.find_zero] at hv
    cases hv
  have hkey : t.keys i = ref := by
    rw [slots_toNat hx] at hs
    split at hs
    · cases hs
    · exact congrArg Prod.fst (Option.some.inj hs)
  refine ⟨i, ⟨hx, hkey⟩, fun j ⟨hj, hjkey⟩ => UInt32.toNat_inj.mp ?_⟩
  have hjs := slots_eq_some (show j.toNat < t.slotCount from hj) (hjkey ▸ h0)
  exact h.probed.unique _ hj _ hx _ _ hjs hs hjkey

/-- **The table refines the finite map.** From an empty table of any power-of-two capacity,
any calls, none of them an erase from a full table: all return, all answer as the finite map of
that capacity does, and the table reached holds what the map holds, each live reference in
exactly one slot. A refused insertion leaves the table as it is. -/
theorem calls_refine_map {capacityPow2 : UInt32} {k : ℕ} (hpow : capacityPow2.toNat = 2 ^ k)
    {t₀ : OrderRefTable} (hnew : new capacityPow2 = some t₀) (cs : List Call)
    (hroom : t₀.neverErasesFull cs = true) :
    let replies := (calls (RefMap.new (2 ^ k)) cs : Id (List Reply × RefMap)).1
    let m := (calls (RefMap.new (2 ^ k)) cs : Id (List Reply × RefMap)).2
    t₀.capacity = 2 ^ k
      ∧ ∃ t, calls t₀ cs = some (replies, t)
        ∧ (∀ ref, t.find ref = m.find ref)
        ∧ t.size = m.size
        ∧ (∀ ref v, m.find ref = some v → ∃! i, i < t.cap ∧ t.keys i = ref)
        ∧ (∀ ref v, (t.insert ref v).1 = false
            ↔ ref = 0 ∨ (m.find ref = none ∧ m.size = 2 ^ k))
        ∧ (∀ ref v, (t.insert ref v).1 = false → (t.insert ref v).2 = t) := by
  intro replies m
  rw [new_eq hpow, Option.some_inj] at hnew
  subst hnew
  have h₀ := refines_empty hpow
  obtain ⟨t, hcalls, h⟩ := h₀.calls cs hroom
  refine ⟨hpow, t, hcalls, h.find_eq, h.size_eq, fun ref v hv => h.existsUnique_slot hv, ?_,
    fun ref v => (h.insert ref v).2.2⟩
  intro ref v
  rw [(h.insert ref v).1, m.insert_eq_false_iff, RefMap.capacity_calls]
  rfl

/-- Four slots: three references come, the first goes, and the others are still found. -/
theorem calls_refine_map_four :
    let v : Value := { price := 10, shares := 100, locate := 1, side := 'B'.toUInt8 }
    let cs : List Call :=
      [.insert 7 v, .insert 8 v, .insert 9 v, .erase 7, .find 7, .find 9, .insert 0 v]
    ∃ t, calls (empty 4) cs = some ([.inserted true, .inserted true, .inserted true,
        .erased true, .found none, .found (some v), .inserted false], t) ∧ t.size = 2 := by
  intro v cs
  have hroom : (empty 4).neverErasesFull cs = true := by decide +kernel
  obtain ⟨-, t, hcalls, -, hsize, -⟩ :=
    calls_refine_map (k := 2) (show (4 : UInt32).toNat = 2 ^ 2 from rfl)
      (show new 4 = some (empty 4) from rfl) cs hroom
  exact ⟨t, hcalls, hsize⟩

end OrderRefTable

end ItchOrderbook
