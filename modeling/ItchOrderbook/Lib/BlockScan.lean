import Mathlib.Data.List.Basic
import Mathlib.Tactic.Push

/-!
# Scans in blocks

`first full d n` is the first of the `n` offsets from `d` on that is full. `scan` looks at them in
blocks of `w`: a block must be readable, and in a block only what is `seen` counts; the offsets
that fill no block are looked at one by one. `scan_eq_iff` says exactly when the two agree.
-/

namespace BlockScan

variable (w : ℕ) (readable seen full : ℕ → Bool)

/-- The first full offset. -/
def first (d : ℕ) : ℕ → Option ℕ
  | 0 => none
  | n + 1 => if full d then some d else first (d + 1) n

/-- The scan in blocks; the outer `none` is a block that cannot be read. -/
def scan (d n : ℕ) : Option (Option ℕ) :=
  if _h : 0 < w ∧ w ≤ n then
    if ∀ e < w, readable (d + e) then
      match first seen d w with
      | some e => some (some e)
      | none => scan (d + w) (n - w)
    else none
  else some (first full d n)
termination_by n
decreasing_by omega

variable {w readable seen full}

/-! ## The first full offset -/

theorem first_eq_some_iff {d n e : ℕ} : first full d n = some e ↔
    d ≤ e ∧ e < d + n ∧ full e = true ∧ ∀ x, d ≤ x → x < e → full x = false := by
  induction n generalizing d with
  | zero =>
    refine iff_of_false (fun h => (by cases h)) fun h => ?_
    omega
  | succ n ih =>
    rw [first]
    split
    · rename_i hd
      constructor
      · rintro h
        cases h
        exact ⟨Nat.le_refl _, by omega, hd, fun x hx hlt => by omega⟩
      · rintro ⟨hle, -, -, hbefore⟩
        rcases Nat.lt_or_ge d e with hlt | hge
        · rw [hbefore d (Nat.le_refl _) hlt] at hd
          cases hd
        · rw [Nat.le_antisymm hge hle]
    · rename_i hd
      rw [ih]
      constructor
      · rintro ⟨hle, hlt, hfull, hbefore⟩
        refine ⟨by omega, by omega, hfull, fun x hx hxe => ?_⟩
        rcases Nat.lt_or_ge d x with hdx | hdx
        · exact hbefore x hdx hxe
        · obtain rfl : x = d := Nat.le_antisymm hdx hx
          exact Bool.eq_false_iff.2 hd
      · rintro ⟨hle, hlt, hfull, hbefore⟩
        have hne : d ≠ e := fun h => hd (h ▸ hfull)
        exact ⟨by omega, by omega, hfull, fun x hx hxe => hbefore x (by omega) hxe⟩

theorem first_eq_none_iff {d n : ℕ} : first full d n = none ↔
    ∀ x, d ≤ x → x < d + n → full x = false := by
  induction n generalizing d with
  | zero => exact iff_of_true rfl fun x hx hlt => by omega
  | succ n ih =>
    rw [first]
    split
    · rename_i hd
      refine iff_of_false (fun h => (by cases h)) fun h => ?_
      rw [h d (Nat.le_refl _) (by omega)] at hd
      cases hd
    · rename_i hd
      rw [ih]
      constructor
      · intro h x hx hlt
        rcases Nat.lt_or_ge d x with hdx | hdx
        · exact h x hdx (by omega)
        · obtain rfl : x = d := Nat.le_antisymm hdx hx
          exact Bool.eq_false_iff.2 hd
      · exact fun h x hx hlt => h x (by omega) (by omega)

/-- Offsets that are not full are passed. -/
theorem first_add {d m n : ℕ} (h : ∀ x, d ≤ x → x < d + m → full x = false) :
    first full d (m + n) = first full (d + m) n := by
  induction m generalizing d with
  | zero => rw [Nat.zero_add, Nat.add_zero]
  | succ m ih =>
    have hd : full d = false := h d (Nat.le_refl _) (by omega)
    rw [show m + 1 + n = m + n + 1 by omega, first, hd, if_neg Bool.false_ne_true,
      ih fun x hx hlt => h x (by omega) (by omega), show d + 1 + m = d + (m + 1) by omega]

/-- A search through a list of `w` values is the search from an offset on. -/
theorem first_eq_findIdx (d m : ℕ) :
    first full d m = ((List.range m).findIdx? fun l => full (d + l)).map (d + ·) := by
  induction m generalizing d with
  | zero => rfl
  | succ m ih =>
    have hshift : (List.range m).findIdx? ((fun l => full (d + l)) ∘ Nat.succ) =
        (List.range m).findIdx? fun l => full (d + 1 + l) :=
      congrArg (List.findIdx? · _) (funext fun l => congrArg full (by
        show d + (l + 1) = d + 1 + l
        omega))
    rw [first, List.range_succ_eq_map, List.findIdx?_cons, List.findIdx?_map, hshift, ih]
    show (if full d = true then some d else _) = Option.map _ (if full d = true then _ else _)
    split
    · rfl
    · rw [Option.map_map]
      exact congrArg (Option.map · _) (funext fun l => by
        show d + 1 + l = d + (l + 1)
        omega)

/-- What a scan finds is one of its offsets. -/
theorem mem_of_scan {d n e : ℕ} (h : scan w readable seen full d n = some (some e)) :
    d ≤ e ∧ e < d + n := by
  rw [scan] at h
  split at h
  case isFalse =>
    obtain ⟨hle, hlt, -⟩ := first_eq_some_iff.1 (Option.some.inj h)
    exact ⟨hle, hlt⟩
  case isTrue hn =>
    split at h
    case isFalse => cases h
    case isTrue =>
      split at h
      case h_1 e' hfirst =>
        cases h
        obtain ⟨hle, hlt, -⟩ := first_eq_some_iff.1 hfirst
        exact ⟨hle, by omega⟩
      case h_2 =>
        have hmem := mem_of_scan h
        omega
termination_by n
decreasing_by omega

/-! ## Agreement -/

/-- The part of the scan that is done in blocks. -/
def Blocked (w d n e : ℕ) : Prop := d ≤ e ∧ e < d + (n - n % w)

/-- What the blocks do not see comes behind something they do, and a block that cannot be read
comes behind a block with something seen. -/
structure Harmless (w : ℕ) (readable seen full : ℕ → Bool) (d n : ℕ) : Prop where
  seenBefore : ∀ e, Blocked w d n e → full e = true → seen e = false →
    ∃ x, d ≤ x ∧ x < e ∧ seen x = true
  readBefore : ∀ e, Blocked w d n e → readable e = false →
    ∃ x, d ≤ x ∧ x < e - (e - d) % w ∧ seen x = true

/-- One block on. -/
theorem harmless_succ (hw : 0 < w) {d n : ℕ} (hn : w ≤ n)
    (hread : ∀ e < w, readable (d + e) = true)
    (hnone : ∀ x, d ≤ x → x < d + w → seen x = false)
    (hempty : ∀ x, d ≤ x → x < d + w → full x = false) :
    Harmless w readable seen full d n ↔ Harmless w readable seen full (d + w) (n - w) := by
  have hmod : n % w = (n - w) % w := Nat.mod_eq_sub_mod hn
  have hle : (n - w) % w ≤ n - w := Nat.mod_le _ _
  -- what is seen from `d` on is seen from `d + w` on
  have hfrom (b : ℕ) : (∃ x, d ≤ x ∧ x < b ∧ seen x = true) ↔
      ∃ x, d + w ≤ x ∧ x < b ∧ seen x = true := by
    constructor
    · rintro ⟨x, hx, hlt, hs⟩
      refine ⟨x, ?_, hlt, hs⟩
      by_contra hlt'
      rw [hnone x hx (by omega)] at hs
      cases hs
    · rintro ⟨x, hx, hlt, hs⟩
      exact ⟨x, by omega, hlt, hs⟩
  have hblocked (e : ℕ) : Blocked w d n e ↔ d ≤ e ∧ e < d + w ∨ Blocked w (d + w) (n - w) e := by
    unfold Blocked
    rw [hmod]
    omega
  have hstart (e : ℕ) (he : Blocked w (d + w) (n - w) e) : (e - d) % w = (e - (d + w)) % w := by
    have hsub : e - d = e - (d + w) + w := by
      have := he.1
      omega
    rw [hsub, Nat.add_mod_right]
  constructor
  · rintro ⟨hseen, hread'⟩
    refine ⟨fun e he hf hs => (hfrom _).1 (hseen e ((hblocked e).2 (.inr he)) hf hs),
      fun e he hr => ?_⟩
    have h := (hfrom _).1 (hread' e ((hblocked e).2 (.inr he)) hr)
    rwa [hstart e he] at h
  · rintro ⟨hseen, hread'⟩
    refine ⟨fun e he hf hs => ?_, fun e he hr => ?_⟩
    · rcases (hblocked e).1 he with hin | hlater
      · rw [hempty e hin.1 hin.2] at hf
        cases hf
      · exact (hfrom _).2 (hseen e hlater hf hs)
    · rcases (hblocked e).1 he with hin | hlater
      · have hr' := hread (e - d) (by omega)
        rw [Nat.add_sub_cancel' hin.1, hr] at hr'
        cases hr'
      · rw [hstart e hlater]
        exact (hfrom _).2 (hread' e hlater hr)

/-- The block scan agrees with the scalar one exactly if what it does not see or cannot read is
harmless. Induction on the blocks. -/
theorem scan_eq_iff (hw : 0 < w) (hsub : ∀ e, seen e = true → full e = true) (d n : ℕ) :
    scan w readable seen full d n = some (first full d n) ↔
      Harmless w readable seen full d n := by
  rw [scan]
  split
  case isFalse hn =>
    have hlt : n < w := by omega
    have hnone (e : ℕ) : ¬ Blocked w d n e := by
      unfold Blocked
      rw [Nat.mod_eq_of_lt hlt]
      omega
    exact iff_of_true rfl ⟨fun e he => (hnone e he).elim, fun e he => (hnone e he).elim⟩
  case isTrue hn =>
    have hblock (e : ℕ) (hlo : d ≤ e) (hhi : e < d + w) : Blocked w d n e := by
      have hmod : n % w = (n - w) % w := Nat.mod_eq_sub_mod hn.2
      have hle : (n - w) % w ≤ n - w := Nat.mod_le _ _
      exact ⟨hlo, by omega⟩
    split
    case isFalse hread =>
      -- a block that cannot be read, with nothing before it
      refine iff_of_false (fun h => (by cases h)) fun h => hread fun e he => ?_
      by_contra hr
      obtain ⟨x, hx, hlt, -⟩ := h.readBefore (d + e) (hblock _ (by omega) (by omega))
        (Bool.eq_false_iff.2 hr)
      have hmod : (d + e - d) % w = e := by
        rw [Nat.add_sub_cancel_left, Nat.mod_eq_of_lt he]
      omega
    case isTrue hread =>
      cases hfirst : first seen d w with
      | some e =>
        obtain ⟨hlo, hhi, hseen, hbefore⟩ := first_eq_some_iff.1 hfirst
        show some (some e) = _ ↔ _
        rw [Option.some.injEq, eq_comm, first_eq_some_iff]
        constructor
        · rintro ⟨-, -, -, hempty⟩
          refine ⟨fun x hx hf hs => ?_, fun x hx hr => ?_⟩
          · rcases Nat.lt_or_ge x e with hlt | hge
            · rw [hempty x hx.1 hlt] at hf
              cases hf
            · have hne : x ≠ e := by
                rintro rfl
                rw [hseen] at hs
                cases hs
              exact ⟨e, hlo, by omega, hseen⟩
          · have hout : d + w ≤ x := by
              by_contra hin
              have hr' := hread (x - d) (by have := hx.1; omega)
              rw [Nat.add_sub_cancel' hx.1, hr] at hr'
              cases hr'
            have hstart : d + w ≤ x - (x - d) % w := by
              have hdiv : (x - d) % w = x - d - w * ((x - d) / w) := by
                have := Nat.mod_add_div (x - d) w
                omega
              have hone : w * 1 ≤ w * ((x - d) / w) :=
                Nat.mul_le_mul_left w (Nat.div_pos (by omega) hw)
              have hle := Nat.mul_div_le (x - d) w
              omega
            exact ⟨e, hlo, by omega, hseen⟩
        · intro h
          refine ⟨hlo, by omega, hsub e hseen, fun x hx hlt => ?_⟩
          cases hf : full x with
          | false => rfl
          | true =>
            obtain ⟨y, hy, hyx, hs⟩ := h.seenBefore x (hblock x hx (by omega)) hf
              (hbefore x hx hlt)
            rw [hbefore y hy (by omega)] at hs
            cases hs
      | none =>
        have hnone := first_eq_none_iff.1 hfirst
        show scan w readable seen full (d + w) (n - w) = _ ↔ _
        by_cases hempty : ∀ x, d ≤ x → x < d + w → full x = false
        case pos =>
          have hpass : first full d n = first full (d + w) (n - w) := by
            rw [← first_add hempty, Nat.add_sub_cancel' hn.2]
          rw [hpass, scan_eq_iff hw hsub, harmless_succ hw hn.2 hread hnone hempty]
        case neg =>
          -- the block passes over a full offset
          push Not at hempty
          obtain ⟨x, hx, hlt, hf⟩ := hempty
          have hfull : full x = true := Bool.not_eq_false _ ▸ hf
          refine iff_of_false (fun h => ?_) fun h => ?_
          · cases he : first full d n with
            | none =>
              rw [first_eq_none_iff.1 he x hx (by omega)] at hfull
              cases hfull
            | some e =>
              rw [he] at h
              have hge := (mem_of_scan h).1
              have hbefore := (first_eq_some_iff.1 he).2.2.2
              rw [hbefore x hx (by omega)] at hfull
              cases hfull
          · obtain ⟨y, hy, hyx, hs⟩ := h.seenBefore x (hblock x hx hlt) hfull (hnone x hx hlt)
            rw [hnone y hy (by omega)] at hs
            cases hs
termination_by n
decreasing_by omega

end BlockScan
