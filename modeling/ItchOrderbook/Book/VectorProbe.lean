import ItchOrderbook.Book.EraseTermination

/-!
# The vector probes of the order-reference table

`probe_avx2` and `probe_avx512` look at 4 and 8 slots at a time while a whole block is left before
the end of the array, and at one slot at a time after that. A block steps on by `i += 4` without the
mask, so a block that ends with the array leaves `i` at `cap_`, and the next read is past the end
(`EndsInBlock`). In every other case the vector probe answers as the scalar one.
-/

namespace ItchOrderbook

namespace OrderRefTable

/-! ## The probes -/

/-- The keys in `w` slots from `i` on; `none` when they are not all in the array. -/
def load (t : OrderRefTable) (i : UInt32) (w : ℕ) : Option (List UInt64) :=
  if i.toNat + w ≤ t.cap.toNat then some ((List.range w).map fun l => t.keys (i + .ofNat l))
  else none

/-- A vector probe of `w` lanes: the slot, or `none` for -1. The outer `none` is a read that is not
in the array. A comparison mask is the list of its lanes, and `__builtin_ctz` its first set one. -/
def probeVector (t : OrderRefTable) (ref : UInt64) (w : ℕ) (hw : 0 < w) (i : UInt32)
    (scanned : ℕ) : Option (Option UInt32) :=
  if scanned ≤ t.cap.toNat then
    if i + .ofNat w ≤ t.cap then
      match t.load i w with
      | none => none
      | some lanes =>
        match lanes.findIdx? (· == ref) with
        | some hit => some (some (i + .ofNat hit))
        | none =>
          if lanes.any (· == 0) then some none
          else probeVector t ref w hw (i + .ofNat w) (scanned + w)
    else
      match t.load i 1 with
      | none => none
      | some _ =>
        if t.keys i = ref then some (some i)
        else if t.keys i = 0 then some none
        else probeVector t ref w hw ((i + 1) &&& t.mask) (scanned + 1)
  else some none
  termination_by t.cap.toNat + 1 - scanned

/-- `probe_avx2`. -/
def probeAvx2 (t : OrderRefTable) (ref : UInt64) (start : UInt32) : Option (Option UInt32) :=
  t.probeVector ref 4 (by decide) start 0

/-- `probe_avx512`. -/
def probeAvx512 (t : OrderRefTable) (ref : UInt64) (start : UInt32) : Option (Option UInt32) :=
  t.probeVector ref 8 (by decide) start 0

/-- The slots from `start` to the end of the array are whole blocks, all of other references. -/
def EndsInBlock (t : OrderRefTable) (ref : UInt64) (w : ℕ) (start : UInt32) : Prop :=
  w ∣ t.cap.toNat - start.toNat
    ∧ ∀ x < t.cap, start ≤ x → t.keys x ≠ ref ∧ t.keys x ≠ 0

/-! ## The walk of a search -/

/-- A number of 32 bits as an index. -/
theorem toNat_index {x : ℕ} (h : x < 2 ^ 32) : (UInt32.ofNat x).toNat = x :=
  UInt32.toNat_ofNat_of_lt' h

section Walk

variable {t : OrderRefTable} {ref : UInt64} {s : ℕ}

/-- The slot `d` steps after slot `s`. -/
def slotAt (t : OrderRefTable) (s d : ℕ) : UInt32 := .ofNat ((s + d) % t.cap.toNat)

/-- A slot that holds another reference. -/
def Other (t : OrderRefTable) (ref : UInt64) (i : UInt32) : Prop := t.keys i ≠ ref ∧ t.keys i ≠ 0

/-- What the scalar probe that starts at `s` still finds after `d` steps. -/
def scalarFrom (t : OrderRefTable) (ref : UInt64) (s d : ℕ) : Option UInt32 :=
  t.probeScalar ref (t.cap.toNat + 1 - d) (t.slotAt s d)

theorem toNat_slotAt (h : t.Sized) (s d : ℕ) : (t.slotAt s d).toNat = (s + d) % t.cap.toNat :=
  UInt32.toNat_ofNat_of_lt' ((Nat.mod_lt _ h.pos).trans t.cap.toNat_lt)

theorem slotAt_lt (h : t.Sized) (s d : ℕ) : (t.slotAt s d).toNat < t.cap.toNat := by
  rw [toNat_slotAt h]
  exact Nat.mod_lt _ h.pos

/-- The step of the scalar loops. -/
theorem slotAt_succ (h : t.Sized) (s d : ℕ) : (t.slotAt s d + 1) &&& t.mask = t.slotAt s (d + 1) := by
  refine UInt32.toNat_inj.mp ?_
  have hlt := slotAt_lt h s d
  have hcap := t.cap.toNat_lt
  rw [h.toNat_and_mask, UInt32.toNat_add, UInt32.toNat_one, toNat_slotAt h, toNat_slotAt h,
    Nat.mod_eq_of_lt (a := (s + d) % t.cap.toNat + 1) (by rw [toNat_slotAt h] at hlt; omega)]
  show ((s + d) % t.cap.toNat + 1) % t.cap.toNat = _
  rw [Nat.mod_add_mod]
  rfl

/-- A round later the walk is at the same slots. -/
theorem slotAt_add_cap (t : OrderRefTable) (s d : ℕ) : t.slotAt s (d + t.cap.toNat) = t.slotAt s d := by
  unfold slotAt
  rw [← Nat.add_assoc, Nat.add_mod_right]

theorem scalarFrom_pass (h : t.Sized) {d : ℕ} (ho : t.Other ref (t.slotAt s d)) :
    t.scalarFrom ref s d = t.scalarFrom ref s (d + 1) := by
  unfold scalarFrom
  by_cases hd : d ≤ t.cap.toNat
  · rw [show t.cap.toNat + 1 - d = (t.cap.toNat + 1 - (d + 1)) + 1 by omega, probeScalar,
      if_neg ho.1, if_neg ho.2, slotAt_succ h]
  · rw [show t.cap.toNat + 1 - d = 0 by omega, show t.cap.toNat + 1 - (d + 1) = 0 by omega]
    rfl

/-- The scalar probe passes a block of other references. -/
theorem scalarFrom_pass_many (h : t.Sized) {d n : ℕ}
    (ho : ∀ e < n, t.Other ref (t.slotAt s (d + e))) :
    t.scalarFrom ref s d = t.scalarFrom ref s (d + n) := by
  induction n with
  | zero => rfl
  | succ n ih =>
    rw [ih fun e he => ho e (Nat.lt_succ_of_lt he), scalarFrom_pass h (ho n (Nat.lt_succ_self n))]
    rfl

theorem scalarFrom_found {d : ℕ} (hd : d ≤ t.cap.toNat) (hk : t.keys (t.slotAt s d) = ref) :
    t.scalarFrom ref s d = some (t.slotAt s d) := by
  unfold scalarFrom
  rw [show t.cap.toNat + 1 - d = (t.cap.toNat - d) + 1 by omega, probeScalar, if_pos hk]

theorem scalarFrom_empty {d : ℕ} (hr : t.keys (t.slotAt s d) ≠ ref)
    (hk : t.keys (t.slotAt s d) = 0) : t.scalarFrom ref s d = none := by
  unfold scalarFrom
  cases t.cap.toNat + 1 - d with
  | zero => rfl
  | succ left => rw [probeScalar, if_neg hr, if_pos hk]

theorem scalarFrom_end {d : ℕ} (hd : t.cap.toNat < d) : t.scalarFrom ref s d = none := by
  unfold scalarFrom
  rw [show t.cap.toNat + 1 - d = 0 by omega]
  rfl

end Walk

/-! ## The walk of a vector probe -/

section Vector

variable {t : OrderRefTable} {ref : UInt64} {s w : ℕ}

/-- No empty slot stands before the reference on the walk from `s`. -/
def Reached (t : OrderRefTable) (ref : UInt64) (s : ℕ) : Prop :=
  ∀ a b, a < b → b < t.cap.toNat → t.keys (t.slotAt s a) = 0 → t.keys (t.slotAt s b) = ref → ref = 0

/-- A vector probe after `d` slots of its walk, at index `i`: in its first round, where only a whole
block can end with the array, or after the wrap. -/
inductive At (t : OrderRefTable) (s w d : ℕ) (i : UInt32) : Prop where
  | before (hi : i.toNat = s + d) (hle : i.toNat ≤ t.cap.toNat)
      (hblock : w ∣ d ∨ t.cap.toNat < i.toNat + w ∧ i.toNat < t.cap.toNat)
  | after (hd : t.cap.toNat ≤ s + d) (hi : i.toNat + t.cap.toNat = s + d)
  | done (hd : t.cap.toNat < d)

/-- The index of a vector probe is that of the walk, unless it is past the end. -/
theorem At.slotAt {d l : ℕ} {i : UInt32} (h : At t s w d i)
    (hd : d ≤ t.cap.toNat) (hl : i.toNat + l < t.cap.toNat) :
    i + .ofNat l = t.slotAt s (d + l) := by
  have hcap := t.cap.toNat_lt
  have hadd : (i + UInt32.ofNat l).toNat = i.toNat + l := by
    rw [UInt32.toNat_add, toNat_index (by omega), Nat.mod_eq_of_lt (by omega)]
  have hmod : (s + (d + l)) % t.cap.toNat = i.toNat + l := by
    cases h with
    | before hi => rw [← Nat.add_assoc, ← hi, Nat.mod_eq_of_lt hl]
    | after _ hi =>
      rw [← Nat.add_assoc, ← hi, Nat.add_right_comm, Nat.add_mod_right, Nat.mod_eq_of_lt hl]
    | done hd' => omega
  refine UInt32.toNat_inj.mp ?_
  rw [hadd, OrderRefTable.slotAt, hmod, toNat_index (by omega)]

/-- A probe in the array, or one that has run past its end. -/
theorem At.lt (hs : s < t.cap.toNat) {d : ℕ} {i : UInt32} (h : At t s w d i)
    (hd : d ≤ t.cap.toNat) (hend : ¬(w ∣ t.cap.toNat - s ∧ d = t.cap.toNat - s)) :
    i.toNat < t.cap.toNat := by
  cases h with
  | before hi hle hblock =>
    refine lt_of_le_of_ne hle fun heq => hend ?_
    have hd' : d = t.cap.toNat - s := by omega
    rcases hblock with hw | ⟨-, hlt⟩
    · exact ⟨hd' ▸ hw, hd'⟩
    · exact absurd heq hlt.ne
  | after _ hi => omega
  | done hd' => omega

/-- A block steps over `w` slots. -/
theorem At.block {d : ℕ} {i : UInt32} (h : At t s w d i) (hd : d ≤ t.cap.toNat)
    (hw : i.toNat + w ≤ t.cap.toNat) : At t s w (d + w) (i + .ofNat w) := by
  have hcap := t.cap.toNat_lt
  have hadd : (i + UInt32.ofNat w).toNat = i.toNat + w := by
    rw [UInt32.toNat_add, toNat_index (by omega), Nat.mod_eq_of_lt (by omega)]
  cases h with
  | before hi hle hblock =>
    refine .before (by omega) (by omega) (Or.inl ?_)
    rcases hblock with hw' | ⟨hgt, -⟩
    · exact Nat.dvd_add hw' (dvd_refl w)
    · omega
  | after hd' hi => exact .after (by omega) (by omega)
  | done hd' => omega

/-- Near the end of the array the probe steps over one slot, with the mask. -/
theorem At.tail (h : t.Sized) (hs : s < t.cap.toNat) {d : ℕ} {i : UInt32} (hat : At t s w d i)
    (hd : d ≤ t.cap.toNat) (hi : i.toNat < t.cap.toNat) (hw : t.cap.toNat < i.toNat + w) :
    At t s w (d + 1) ((i + 1) &&& t.mask) := by
  have hnext : ((i + 1) &&& t.mask).toNat = LinearProbing.next t.cap.toNat i.toNat :=
    h.toNat_next hi
  unfold LinearProbing.next at hnext
  cases hat with
  | before hi' hle hblock =>
    split at hnext
    · exact .after (by omega) (by omega)
    · exact .before (by omega) (by omega) (Or.inr ⟨by omega, by omega⟩)
  | after hd' hi' =>
    split at hnext
    · exact .done (by omega)
    · exact .after (by omega) (by omega)
  | done hd' => omega

theorem load_eq {i : UInt32} {n : ℕ} (h : i.toNat + n ≤ t.cap.toNat) :
    t.load i n = some ((List.range n).map fun l => t.keys (i + .ofNat l)) := if_pos h

/-- The guard of the block, without overflow. -/
theorem block_guard {i : UInt32} (hw : w < 2 ^ 16) (hpow : ∃ k < 32, t.cap.toNat = 2 ^ k)
    (hi : i.toNat ≤ t.cap.toNat) : i + .ofNat w ≤ t.cap ↔ i.toNat + w ≤ t.cap.toNat := by
  obtain ⟨k, hk, hcap⟩ := hpow
  have hle : 2 ^ k ≤ 2 ^ 31 := Nat.pow_le_pow_right (by decide) (Nat.le_of_lt_succ hk)
  rw [UInt32.le_iff_toNat_le, UInt32.toNat_add, toNat_index (by omega),
    Nat.mod_eq_of_lt (by omega)]

/-- The lanes of a block are the slots of the walk. -/
theorem At.lanes {d : ℕ} {i : UInt32} (hat : At t s w d i) (hd : d ≤ t.cap.toNat)
    (hb : i.toNat + w ≤ t.cap.toNat) :
    (List.range w).map (fun l => t.keys (i + .ofNat l))
      = (List.range w).map fun l => t.keys (t.slotAt s (d + l)) := by
  refine List.map_congr_left fun l hl => ?_
  have hlt := List.mem_range.mp hl
  rw [hat.slotAt hd (by omega)]

/-- A slot that a whole round has passed holds another reference. -/
theorem lt_cap_of_not_other {d e : ℕ} (he : e < t.cap.toNat)
    (hseen : ∀ x < d, t.Other ref (t.slotAt s x)) (hno : ¬t.Other ref (t.slotAt s (d + e))) :
    d + e < t.cap.toNat := by
  by_contra hge
  refine hno ?_
  rw [show d + e = (d + e - t.cap.toNat) + t.cap.toNat by omega, slotAt_add_cap]
  exact hseen _ (by omega)

/-- The slots of the walk up to a hit of a block hold other references. -/
theorem other_before_hit (hr : t.Reached ref s) {d hit : ℕ}
    (hk : t.keys (t.slotAt s (d + hit)) = ref) (hlt : d + hit < t.cap.toNat)
    (hfirst : ∀ e < hit, t.keys (t.slotAt s (d + e)) ≠ ref) :
    ∀ e < hit, t.Other ref (t.slotAt s (d + e)) := by
  intro e he
  refine ⟨hfirst e he, fun h0 => ?_⟩
  -- an empty slot before the reference: only the reference 0 has one
  have hzero := hr (d + e) (d + hit) (by omega) hlt h0 hk
  exact hfirst e he (h0.trans hzero.symm)

/-- The scalar probe finds the first empty slot of a block without a hit. -/
theorem scalarFrom_of_zero (h : t.Sized) {d n : ℕ}
    (hno : ∀ e < n, t.keys (t.slotAt s (d + e)) ≠ ref)
    (hz : ∃ e < n, t.keys (t.slotAt s (d + e)) = 0) : t.scalarFrom ref s d = none := by
  classical
  obtain ⟨hlt, h0⟩ := Nat.find_spec hz
  have hmin (e : ℕ) (he : e < Nat.find hz) : t.Other ref (t.slotAt s (d + e)) :=
    ⟨hno e (by omega), fun hk => Nat.find_min hz he ⟨by omega, hk⟩⟩
  rw [scalarFrom_pass_many h hmin]
  exact scalarFrom_empty (hno _ hlt) h0

/-- **The vector probe** answers as the scalar one, unless its blocks end with the array. Induction
on the slots left. -/
theorem probeVector_eq (h : t.Sized) (hw : 0 < w) (hw' : w < 2 ^ 16) (hs : s < t.cap.toNat)
    (hr : t.Reached ref s)
    (hend : ¬(w ∣ t.cap.toNat - s ∧ ∀ x < t.cap.toNat - s, t.Other ref (t.slotAt s x)))
    (left : ℕ) {d : ℕ} {i : UInt32} (hleft : t.cap.toNat + 1 - d ≤ left) (hat : At t s w d i)
    (hseen : ∀ x < d, t.Other ref (t.slotAt s x)) :
    t.probeVector ref w hw i d = some (t.scalarFrom ref s d) := by
  induction left generalizing d i with
  | zero =>
    have hd : t.cap.toNat < d := by omega
    rw [probeVector, if_neg (by omega), scalarFrom_end hd]
  | succ left ih =>
    rw [probeVector]
    by_cases hd : d ≤ t.cap.toNat
    · rw [if_pos hd]
      have hi : i.toNat < t.cap.toNat := by
        refine hat.lt hs hd fun ⟨hdvd, heq⟩ => hend ⟨hdvd, ?_⟩
        rw [← heq]
        exact hseen
      have hzero : i = t.slotAt s d := by
        have := hat.slotAt (l := 0) hd (by omega)
        rwa [show UInt32.ofNat 0 = 0 from rfl, UInt32.add_zero, Nat.add_zero] at this
      by_cases hb : i.toNat + w ≤ t.cap.toNat
      · -- a block
        rw [if_pos ((block_guard hw' h.pow hi.le).mpr hb), load_eq hb]
        dsimp only
        rw [hat.lanes hd hb]
        cases hf : ((List.range w).map fun l => t.keys (t.slotAt s (d + l))).findIdx? (· == ref) with
        | some hit =>
          rw [List.findIdx?_eq_some_iff_getElem] at hf
          obtain ⟨hlen, hk, hfirst⟩ := hf
          rw [List.length_map, List.length_range] at hlen
          rw [List.getElem_map, List.getElem_range, beq_iff_eq] at hk
          have hno (e : ℕ) (he : e < hit) : t.keys (t.slotAt s (d + e)) ≠ ref := by
            have := hfirst e he
            rwa [List.getElem_map, List.getElem_range, Bool.not_eq_true, beq_eq_false_iff_ne]
              at this
          have hlt := lt_cap_of_not_other (by omega) hseen fun ho => ho.1 hk
          have hpass := scalarFrom_pass_many h (other_before_hit hr hk hlt hno)
          have hindex := hat.slotAt (l := hit) hd (by omega)
          dsimp only
          rw [hindex, hpass, scalarFrom_found hlt.le hk]
        | none =>
          have hno (e : ℕ) (he : e < w) : t.keys (t.slotAt s (d + e)) ≠ ref := by
            rw [List.findIdx?_eq_none_iff] at hf
            have := hf _ (List.mem_map.mpr ⟨e, List.mem_range.mpr he, rfl⟩)
            rwa [beq_eq_false_iff_ne] at this
          dsimp only
          by_cases hz : ∃ e < w, t.keys (t.slotAt s (d + e)) = 0
          · rw [if_pos ?_, scalarFrom_of_zero h hno hz]
            obtain ⟨e, he, h0⟩ := hz
            exact List.any_eq_true.mpr
              ⟨_, List.mem_map.mpr ⟨e, List.mem_range.mpr he, rfl⟩, beq_iff_eq.mpr h0⟩
          · have hother (e : ℕ) (he : e < w) : t.Other ref (t.slotAt s (d + e)) :=
              ⟨hno e he, fun h0 => hz ⟨e, he, h0⟩⟩
            rw [if_neg ?_]
            · rw [scalarFrom_pass_many h hother]
              refine ih (by omega) (hat.block hd hb) fun x hx => ?_
              rcases Nat.lt_or_ge x d with hlt | hge
              · exact hseen x hlt
              · have := hother (x - d) (by omega)
                rwa [Nat.add_sub_cancel' hge] at this
            · rw [List.any_eq_true]
              rintro ⟨k, hk, h0⟩
              obtain ⟨e, he, rfl⟩ := List.mem_map.mp hk
              exact hz ⟨e, List.mem_range.mp he, beq_iff_eq.mp h0⟩
      · -- one slot
        rw [if_neg fun hg => hb ((block_guard hw' h.pow hi.le).mp hg), load_eq (by omega)]
        dsimp only
        rw [hzero]
        by_cases hk : t.keys (t.slotAt s d) = ref
        · rw [if_pos hk, scalarFrom_found hd hk]
        · rw [if_neg hk]
          by_cases h0 : t.keys (t.slotAt s d) = 0
          · rw [if_pos h0, scalarFrom_empty hk h0]
          · rw [if_neg h0, scalarFrom_pass h ⟨hk, h0⟩]
            have hnext := hat.tail h hs hd hi (by omega)
            rw [hzero] at hnext
            refine ih (by omega) hnext fun x hx => ?_
            rcases Nat.lt_or_eq_of_le (Nat.le_of_lt_succ hx) with hlt | rfl
            · exact hseen x hlt
            · exact ⟨hk, h0⟩
    · rw [if_neg hd, scalarFrom_end (by omega)]

/-- Blocks that end with the array run past its end. Induction on the slots before it. -/
theorem probeVector_past_end (h : t.Sized) (hw : 0 < w) (hw' : w < 2 ^ 16) (hs : s < t.cap.toNat)
    (hdvd : w ∣ t.cap.toNat - s) (hall : ∀ x < t.cap.toNat - s, t.Other ref (t.slotAt s x))
    (left : ℕ) {d : ℕ} {i : UInt32} (hleft : t.cap.toNat - s - d ≤ left) (hi : i.toNat = s + d)
    (hle : i.toNat ≤ t.cap.toNat) (hd : w ∣ d) : t.probeVector ref w hw i d = none := by
  induction left generalizing d i with
  | zero =>
    -- the end
    have heq : i.toNat = t.cap.toNat := by omega
    rw [probeVector, if_pos (by omega), if_neg ?_]
    · rw [load, if_neg (by omega)]
    · rw [block_guard hw' h.pow hle]
      omega
  | succ left ih =>
    rw [probeVector, if_pos (by omega)]
    by_cases heq : i.toNat = t.cap.toNat
    · rw [if_neg ?_, load, if_neg (by omega)]
      rw [block_guard hw' h.pow hle]
      omega
    · -- a block more, as both ends are whole numbers of blocks
      have hb : i.toNat + w ≤ t.cap.toNat := by
        obtain ⟨q, hq⟩ := hdvd
        obtain ⟨p, hp⟩ := hd
        have hpq : p < q := by
          by_contra hge
          have := Nat.mul_le_mul_left w (Nat.not_lt.mp hge)
          omega
        have := Nat.mul_le_mul_left w (Nat.succ_le_of_lt hpq)
        rw [Nat.mul_succ] at this
        omega
      have hat : At t s w d i := .before hi hle (Or.inl hd)
      have hother (e : ℕ) (he : e < w) : t.Other ref (t.slotAt s (d + e)) := hall _ (by omega)
      rw [if_pos ((block_guard hw' h.pow hle).mpr hb), load_eq hb]
      dsimp only
      rw [hat.lanes (by omega) hb]
      have hf : ((List.range w).map fun l => t.keys (t.slotAt s (d + l))).findIdx? (· == ref)
          = none := by
        rw [List.findIdx?_eq_none_iff]
        intro k hk
        obtain ⟨e, he, rfl⟩ := List.mem_map.mp hk
        exact beq_eq_false_iff_ne.mpr (hother e (List.mem_range.mp he)).1
      have hz : ((List.range w).map fun l => t.keys (t.slotAt s (d + l))).any (· == 0) = false := by
        rw [List.any_eq_false]
        intro k hk
        obtain ⟨e, he, rfl⟩ := List.mem_map.mp hk
        exact fun h0 => (hother e (List.mem_range.mp he)).2 (beq_iff_eq.mp h0)
      rw [hf]
      dsimp only
      rw [hz, if_neg Bool.false_ne_true]
      have hstep : (i + UInt32.ofNat w).toNat = i.toNat + w := by
        have := t.cap.toNat_lt
        rw [UInt32.toNat_add, toNat_index (by omega), Nat.mod_eq_of_lt (by omega)]
      exact ih (by omega) (by omega) (by omega) (Nat.dvd_add hd (dvd_refl w))

end Vector

/-! ## The probes of a reachable table -/

section Probes

variable {t : OrderRefTable} {m : RefMap} {ref : UInt64} {w : ℕ}

theorem endsInBlock_iff (h : t.Sized) (start : UInt32) (hs : start.toNat < t.cap.toNat) :
    t.EndsInBlock ref w start ↔ w ∣ t.cap.toNat - start.toNat
      ∧ ∀ x < t.cap.toNat - start.toNat, t.Other ref (t.slotAt start.toNat x) := by
  refine and_congr_right fun _ => ⟨fun hall x hx => ?_, fun hall i hi hle => ?_⟩
  · have hslot : (t.slotAt start.toNat x).toNat = start.toNat + x := by
      rw [toNat_slotAt h, Nat.mod_eq_of_lt (by omega)]
    refine hall _ ?_ ?_
    · rw [UInt32.lt_iff_toNat_lt, hslot]
      omega
    · rw [UInt32.le_iff_toNat_le, hslot]
      omega
  · rw [UInt32.lt_iff_toNat_lt] at hi
    rw [UInt32.le_iff_toNat_le] at hle
    have hslot : t.slotAt start.toNat (i.toNat - start.toNat) = i := by
      refine UInt32.toNat_inj.mp ?_
      rw [toNat_slotAt h, Nat.add_sub_cancel' hle, Nat.mod_eq_of_lt hi]
    have := hall (i.toNat - start.toNat) (by omega)
    rwa [hslot] at this

/-- In a sound table no empty slot stands before a reference on the walk from its home. -/
theorem Refines.reached (h : t.Refines m) (ref : UInt64) : t.Reached ref (t.home ref).toNat := by
  intro a b hab hb h0 hk
  by_contra hne
  have hs : (t.home ref).toNat < t.cap.toNat := h.sized.home_lt ref
  have hdist (d : ℕ) (hd : d < t.cap.toNat) :
      LinearProbing.dist t.cap.toNat (t.home ref).toNat (t.slotAt (t.home ref).toNat d).toNat
        = d := by
    rw [toNat_slotAt h.sized]
    generalize (t.home ref).toNat = s at hs
    unfold LinearProbing.dist
    rcases Nat.lt_or_ge (s + d) t.cap.toNat with hlt | hge
    · rw [Nat.mod_eq_of_lt hlt, if_pos (by omega)]
      omega
    · rw [Nat.mod_eq_sub_mod hge, Nat.mod_eq_of_lt (by omega), if_neg (by omega)]
      omega
  have hbk : t.keys (t.slotAt (t.home ref).toNat b) ≠ 0 := by rw [hk]; exact hne
  have hbs := slots_eq_some (slotAt_lt h.sized _ b) hbk
  have hpath := h.probed.path _ (slotAt_lt h.sized _ b) _ hbs _
    (slotAt_lt h.sized (t.home ref).toNat a)
  rw [hk] at hpath
  have hlt : LinearProbing.dist t.slotCount (t.homeSlot ref) (t.slotAt (t.home ref).toNat a).toNat
      < LinearProbing.dist t.slotCount (t.homeSlot ref) (t.slotAt (t.home ref).toNat b).toNat := by
    show LinearProbing.dist t.cap.toNat (t.home ref).toNat _
      < LinearProbing.dist t.cap.toNat (t.home ref).toNat _
    rw [hdist a (by omega), hdist b hb]
    exact hab
  exact hpath hlt (slots_eq_none (slotAt_lt h.sized _ a) h0)

/-- A vector probe from the home of a reference. -/
theorem Refines.probeVector_iff (h : t.Refines m) (ref : UInt64) (hw : 0 < w) (hw' : w < 2 ^ 16) :
    t.probeVector ref w hw (t.home ref) 0
        = some (t.probeScalar ref (t.cap.toNat + 1) (t.home ref))
      ↔ ¬t.EndsInBlock ref w (t.home ref) := by
  have hs : (t.home ref).toNat < t.cap.toNat := h.sized.home_lt ref
  rw [endsInBlock_iff h.sized _ hs]
  constructor
  · rintro heq ⟨hdvd, hall⟩
    rw [probeVector_past_end h.sized hw hw' hs hdvd hall _ le_rfl rfl hs.le (dvd_zero w)] at heq
    cases heq
  · intro hend
    rw [probeVector_eq h.sized hw hw' hs (h.reached ref) hend _ le_rfl
      (.before rfl hs.le (Or.inl (dvd_zero w))) fun x hx => (by omega)]
    have hzero : t.slotAt (t.home ref).toNat 0 = t.home ref := by
      refine UInt32.toNat_inj.mp ?_
      rw [toNat_slotAt h.sized, Nat.add_zero, Nat.mod_eq_of_lt hs]
    unfold scalarFrom
    rw [hzero]
    rfl

/-- **The vector probes.** In any reachable table, for any reference, a vector probe from its home
reads slots of the array only, and answers as the scalar probe, exactly when the slots from the home
to the end of the array are not whole blocks of other references. -/
theorem vector_probes_agree_iff {capacity : UInt32} {t₀ : OrderRefTable}
    (hnew : new capacity = some t₀) {cs : List RefTable.Call}
    {rs : List RefTable.Reply} {t : OrderRefTable} (hcs : RefTable.calls t₀ cs = some (rs, t))
    (ref : UInt64) :
    (t.probeAvx2 ref (t.home ref) = some (t.probeScalar ref (t.cap.toNat + 1) (t.home ref))
        ↔ ¬t.EndsInBlock ref 4 (t.home ref))
      ∧ (t.probeAvx512 ref (t.home ref)
          = some (t.probeScalar ref (t.cap.toNat + 1) (t.home ref))
        ↔ ¬t.EndsInBlock ref 8 (t.home ref)) := by
  obtain ⟨k, h₀⟩ := refines_new hnew
  obtain ⟨m, h⟩ := h₀.calls_some hcs
  exact ⟨h.probeVector_iff ref _ (by decide), h.probeVector_iff ref _ (by decide)⟩

/-- Eight slots, one reference. -/
theorem vector_probes_agree_one :
    let t := (insert (empty 8) 2 {}).2
    t.probeAvx2 2 (t.home 2) = some (some 4) ∧ t.probeAvx512 2 (t.home 2) = some (some 4) := by
  intro t
  have hnew : new 8 = some (empty 8) := rfl
  have hcs : RefTable.calls (empty 8) [.insert 2 {}] = some ([.inserted true], t) := rfl
  have hscalar : t.probeScalar 2 (t.cap.toNat + 1) (t.home 2) = some 4 := by decide
  obtain ⟨h4, h8⟩ := vector_probes_agree_iff hnew hcs 2
  rw [hscalar] at h4 h8
  have hfound : t.keys 4 = 2 := by decide
  exact ⟨h4.mpr fun hend => (hend.2 4 (by decide) (by decide)).1 hfound,
    h8.mpr fun hend => (hend.2 4 (by decide) (by decide)).1 hfound⟩

/-- A table after a list of insertions. -/
def filled (capacity : UInt32) (refs : List UInt64) : OrderRefTable :=
  refs.foldl (fun t ref => (t.insert ref {}).2) (empty capacity)

/-- Two tables whose last reference has wrapped to slot 0: the vector probes for it read past the
end. In the first, the four references before it fill the block of its home, slots 4 to 7; in the
second, the eight before it fill slots 8 to 15. -/
theorem vector_probes_past_end :
    let t₈ := filled 8 [2, 11, 17, 25, 45]
    let t₁₆ := filled 16 [12, 46, 71, 73, 90, 104, 155, 181, 206]
    (t₈.probeScalar 45 9 (t₈.home 45) = some 0 ∧ t₈.probeAvx2 45 (t₈.home 45) = none)
      ∧ t₁₆.probeScalar 206 17 (t₁₆.home 206) = some 0
      ∧ t₁₆.probeAvx512 206 (t₁₆.home 206) = none := by
  intro t₈ t₁₆
  have h₈ : t₈.Sized := ⟨⟨3, by decide, by decide +kernel⟩, by decide +kernel⟩
  have h₁₆ : t₁₆.Sized := ⟨⟨4, by decide, by decide +kernel⟩, by decide +kernel⟩
  have hcap₈ : t₈.cap.toNat = 8 := by decide +kernel
  have hcap₁₆ : t₁₆.cap.toNat = 16 := by decide +kernel
  have hs₈ : (t₈.home 45).toNat = 4 := by decide +kernel
  have hs₁₆ : (t₁₆.home 206).toNat = 8 := by decide +kernel
  have hall₈ : ∀ x < 4, t₈.keys (t₈.slotAt 4 x) ≠ 45 ∧ t₈.keys (t₈.slotAt 4 x) ≠ 0 := by
    decide +kernel
  have hall₁₆ : ∀ x < 8, t₁₆.keys (t₁₆.slotAt 8 x) ≠ 206 ∧ t₁₆.keys (t₁₆.slotAt 8 x) ≠ 0 := by
    decide +kernel
  refine ⟨⟨by decide +kernel, ?_⟩, by decide +kernel, ?_⟩
  · clear_value t₈ t₁₆
    refine probeVector_past_end h₈ (s := 4) _ (by decide) ?_ ?_ ?_ _ le_rfl hs₈ ?_ (dvd_zero 4)
    all_goals rw [hcap₈]
    · decide
    · exact hall₈
    · rw [hs₈]
      decide
  · clear_value t₈ t₁₆
    refine probeVector_past_end h₁₆ (s := 8) _ (by decide) ?_ ?_ ?_ _ le_rfl hs₁₆ ?_ (dvd_zero 8)
    all_goals rw [hcap₁₆]
    · decide
    · exact hall₁₆
    · rw [hs₁₆]
      decide

end Probes

end OrderRefTable

end ItchOrderbook
