import ItchOrderbook.Book.OrderBookSpec
import ItchOrderbook.Lib.BlockScan

/-!
# The vector scans of the order book

With AVX2 or AVX-512 `scan_down` and `scan_up` gather the totals of eight levels at a time and
compare them with zero as signed lanes; what is left at the end is scanned level by level. A total
of 2^31 shares or more is a negative lane, and an index of 2^31 or more a negative one
(`scans_agree_iff`).
-/

namespace ItchOrderbook

namespace OrderBook

/-! ## The scans -/

/-- `_mm256_i32gather_epi32` of the totals: the indices are signed 32-bit integers, and `none` is a
read that is not in the array. -/
def gather (levels : UInt32 → PriceLevel) (maxPrice : UInt32) (ps : List ℕ) :
    Option (List UInt32) :=
  if ∀ p ∈ ps, 0 ≤ (BitVec.ofNat 32 p).toInt ∧ (BitVec.ofNat 32 p).toInt ≤ maxPrice.toNat then
    some (ps.map fun p => (levels (UInt32.ofNat p)).totalShares)
  else none

/-- `_mm256_cmpgt_epi32(v, zero)` on a lane. -/
def positive (x : UInt32) : Bool := decide (0 < x.toBitVec.toInt)

/-- The loop of `scan_down` at `p`, the lane of the highest price first. `__builtin_ctz` of the
movemask is the first lane that is set. -/
def scanDownBlocks (levels : UInt32 → PriceLevel) (maxPrice : UInt32) (p : ℕ) :
    Option (UInt32 × ℕ) :=
  if _h : 8 ≤ p then
    match gather levels maxPrice ((List.range 8).map (p - ·)) with
    | none => none
    | some v =>
      match v.findIdx? positive with
      | some l => some (UInt32.ofNat p - UInt32.ofNat l, 8)
      | none => (scanDownBlocks levels maxPrice (p - 8)).map fun r => (r.1, r.2 + 8)
  else some (scanDownFrom levels p)

/-- The loop of `scan_up` at `p`, the lane of the lowest price first. -/
def scanUpBlocks (levels : UInt32 → PriceLevel) (maxPrice : UInt32) (p : ℕ) :
    Option (UInt32 × ℕ) :=
  if _h : p + 8 ≤ maxPrice.toNat + 1 then
    match gather levels maxPrice ((List.range 8).map (p + ·)) with
    | none => none
    | some v =>
      match v.findIdx? positive with
      | some l => some (UInt32.ofNat p + UInt32.ofNat l, 8)
      | none => (scanUpBlocks levels maxPrice (p + 8)).map fun r => (r.1, r.2 + 8)
  else some (scanUpFrom levels p (maxPrice.toNat + 1 - p))
termination_by maxPrice.toNat + 1 - p

/-- Where `scan_down` begins. -/
def downStart (b : OrderBook) (start : UInt32) : UInt32 :=
  if start = 0 ∨ start > b.maxPrice
    then (if start > b.maxPrice then b.maxPrice else 0) else start

/-- Where `scan_up` begins. -/
def upStart (start : UInt32) : UInt32 := if start = 0 then 1 else start

/-- `scan_down` with vectors. -/
def scanDownVector (b : OrderBook) (start : UInt32) : Option (UInt32 × OrderBook) :=
  (scanDownBlocks b.bid b.maxPrice (b.downStart start).toNat).map fun r =>
    (r.1, { b with
      scanCount := b.scanCount + 1
      scanSteps := b.scanSteps + UInt64.ofNat r.2 })

/-- `scan_up` with vectors. -/
def scanUpVector (b : OrderBook) (start : UInt32) : Option (UInt32 × OrderBook) :=
  (scanUpBlocks b.ask b.maxPrice (upStart start).toNat).map fun r =>
    (r.1, { b with
      scanCount := b.scanCount + 1
      scanSteps := b.scanSteps + UInt64.ofNat r.2 })

/-! ## Offsets from the start -/

open BlockScan

/-- A level with shares. -/
def full (levels : UInt32 → PriceLevel) (p : ℕ) : Bool :=
  decide ((levels (UInt32.ofNat p)).totalShares ≠ 0)

/-- A level that a signed lane shows as nonempty. -/
def seen (levels : UInt32 → PriceLevel) (p : ℕ) : Bool :=
  positive (levels (UInt32.ofNat p)).totalShares

theorem positive_iff {x : UInt32} : positive x = true ↔ x ≠ 0 ∧ x.toNat < 2 ^ 31 := by
  have hne : x ≠ 0 ↔ x.toNat ≠ 0 := by
    rw [Ne, ← UInt32.toNat_inj]
    rfl
  rw [positive, decide_eq_true_iff, BitVec.toInt_eq_toNat_cond, hne]
  have hx : x.toBitVec.toNat = x.toNat := rfl
  have hlt := x.toNat_lt
  rw [hx]
  split <;> omega

theorem full_iff {levels : UInt32 → PriceLevel} {p : ℕ} :
    full levels p = true ↔ (levels (UInt32.ofNat p)).totalShares ≠ 0 := decide_eq_true_iff

theorem full_of_seen {levels : UInt32 → PriceLevel} {p : ℕ} (h : seen levels p = true) :
    full levels p = true := full_iff.2 (positive_iff.1 h).1

theorem positive_eq_false {levels : UInt32 → PriceLevel} {p : ℕ} :
    full levels p = true ∧ seen levels p = false ↔
      2 ^ 31 ≤ (levels (UInt32.ofNat p)).totalShares.toNat := by
  have hne : (levels (UInt32.ofNat p)).totalShares ≠ 0 ↔
      (levels (UInt32.ofNat p)).totalShares.toNat ≠ 0 := by
    rw [Ne, ← UInt32.toNat_inj]
    rfl
  rw [← Bool.not_eq_true, seen, positive_iff, full_iff, hne]
  omega

/-- A gather of levels that exist reads them all, or has a negative index. -/
theorem gather_eq {levels : UInt32 → PriceLevel} {maxPrice : UInt32} {ps : List ℕ}
    (h : ∀ p ∈ ps, p ≤ maxPrice.toNat) :
    gather levels maxPrice ps = if ∀ p ∈ ps, p < 2 ^ 31 then
      some (ps.map fun p => (levels (UInt32.ofNat p)).totalShares) else none := by
  refine if_congr (forall₂_congr fun p hp => ?_) rfl rfl
  have hle := h p hp
  have hlt := maxPrice.toNat_lt
  have hmod : p % 2 ^ 32 = p := Nat.mod_eq_of_lt (by omega)
  rw [BitVec.toInt_eq_toNat_cond, BitVec.toNat_ofNat, hmod]
  split <;> omega

/-- The price at an offset, 0 for none. -/
def priceAt (price : ℕ → ℕ) : Option ℕ → UInt32
  | none => 0
  | some e => UInt32.ofNat (price e)

/-- Two results are one price only if they are one offset. -/
theorem priceAt_inj {price : ℕ → ℕ} {n : ℕ} (hpos : ∀ e < n, 0 < price e ∧ price e < 2 ^ 32)
    (hinj : ∀ e < n, ∀ x < n, price e = price x → e = x) {r r' : Option ℕ}
    (hr : ∀ e, r = some e → e < n) (hr' : ∀ e, r' = some e → e < n) :
    priceAt price r = priceAt price r' ↔ r = r' := by
  have hto {e : ℕ} (he : e < n) : (UInt32.ofNat (price e)).toNat = price e :=
    UInt32.toNat_ofNat_of_lt' (hpos e he).2
  refine ⟨fun h => ?_, fun h => h ▸ rfl⟩
  have hnat : (priceAt price r).toNat = (priceAt price r').toNat := congrArg UInt32.toNat h
  cases r with
  | none =>
    cases r' with
    | none => rfl
    | some x =>
      have hx := hpos x (hr' x rfl)
      rw [priceAt, priceAt, hto (hr' x rfl)] at hnat
      exact absurd hnat.symm hx.1.ne'
  | some e =>
    have he := hpos e (hr e rfl)
    cases r' with
    | none =>
      rw [priceAt, priceAt, hto (hr e rfl)] at hnat
      exact absurd hnat he.1.ne'
    | some x =>
      rw [priceAt, priceAt, hto (hr e rfl), hto (hr' x rfl)] at hnat
      rw [hinj e (hr e rfl) x (hr' x rfl) hnat]

/-! ## The scans as scans of offsets -/

theorem scanDownFrom_fst (levels : UInt32 → PriceLevel) {s d : ℕ} (hd : d ≤ s) :
    (scanDownFrom levels (s - d)).1 =
      priceAt (s - ·) (first (fun e => full levels (s - e)) d (s - d)) := by
  generalize hn : s - d = n
  induction n generalizing d with
  | zero => rfl
  | succ n ih =>
    rw [scanDownFrom, first, ← hn]
    by_cases hfull : (levels (UInt32.ofNat (s - d))).totalShares ≠ 0
    · rw [if_pos hfull, if_pos (full_iff.2 hfull)]
      rfl
    · rw [if_neg hfull, if_neg (mt full_iff.1 hfull)]
      exact ih (by omega) (by omega)

theorem scanUpFrom_fst (levels : UInt32 → PriceLevel) (p d n : ℕ) :
    (scanUpFrom levels (p + d) n).1 =
      priceAt (p + ·) (first (fun e => full levels (p + e)) d n) := by
  induction n generalizing d with
  | zero => rfl
  | succ n ih =>
    rw [scanUpFrom, first]
    by_cases hfull : (levels (UInt32.ofNat (p + d))).totalShares ≠ 0
    · rw [if_pos hfull, if_pos (full_iff.2 hfull)]
      rfl
    · rw [if_neg hfull, if_neg (mt full_iff.1 hfull)]
      exact ih (d + 1)

/-- The blocks of `scan_down` from an offset on. Induction on what is left. -/
theorem scanDownBlocks_fst {levels : UInt32 → PriceLevel} {maxPrice : UInt32} {s : ℕ}
    (hs : s ≤ maxPrice.toNat) {d : ℕ} (hd : d ≤ s) :
    (scanDownBlocks levels maxPrice (s - d)).map Prod.fst =
      (scan 8 (fun e => decide (s - e < 2 ^ 31)) (fun e => seen levels (s - e))
        (fun e => full levels (s - e)) d (s - d)).map (priceAt (s - ·)) := by
  rw [scanDownBlocks, scan]
  by_cases h8 : 8 ≤ s - d
  case neg =>
    rw [dif_neg h8, dif_neg (by omega)]
    exact congrArg some (scanDownFrom_fst levels hd)
  case pos =>
    have hle : ∀ q ∈ (List.range 8).map (s - d - ·), q ≤ maxPrice.toNat := by
      rintro q hq
      obtain ⟨l, -, rfl⟩ := List.mem_map.1 hq
      omega
    rw [dif_pos h8, dif_pos ⟨by decide, h8⟩, gather_eq hle]
    have hread : (∀ q ∈ (List.range 8).map (s - d - ·), q < 2 ^ 31) ↔
        ∀ e < 8, decide (s - (d + e) < 2 ^ 31) = true := by
      simp only [List.forall_mem_map, List.mem_range, decide_eq_true_iff, Nat.sub_sub]
    by_cases hin : ∀ e < 8, decide (s - (d + e) < 2 ^ 31) = true
    case neg => rw [if_neg (mt hread.1 hin), if_neg hin]; rfl
    case pos =>
      rw [if_pos (hread.2 hin), if_pos hin, first_eq_findIdx]
      have hlanes : (((List.range 8).map (s - d - ·)).map fun q =>
            (levels (UInt32.ofNat q)).totalShares).findIdx? positive =
          (List.range 8).findIdx? fun l => seen levels (s - (d + l)) := by
        rw [List.map_map, List.findIdx?_map]
        refine congrArg (List.findIdx? · _) (funext fun l => ?_)
        show positive (levels (UInt32.ofNat (s - d - l))).totalShares = _
        rw [Nat.sub_sub]
        rfl
      dsimp only
      rw [hlanes]
      cases hl : (List.range 8).findIdx? fun l => seen levels (s - (d + l)) with
      | some l =>
        have hlt : l < 8 := by
          have := (List.findIdx?_eq_some_iff_getElem.1 hl).1
          rwa [List.length_range] at this
        show some (UInt32.ofNat (s - d) - UInt32.ofNat l) = some (UInt32.ofNat (s - (d + l)))
        rw [← Nat.sub_sub, UInt32.ofNat_sub (show l ≤ s - d by omega)]
      | none =>
        show Option.map Prod.fst (Option.map _ (scanDownBlocks levels maxPrice (s - d - 8))) =
          Option.map _ (scan 8 _ _ _ (d + 8) (s - d - 8))
        rw [Option.map_map, Nat.sub_sub]
        exact scanDownBlocks_fst hs (by omega)
termination_by s - d
decreasing_by omega

/-- The blocks of `scan_up` from an offset on. -/
theorem scanUpBlocks_fst {levels : UInt32 → PriceLevel} {maxPrice : UInt32} (p d : ℕ) :
    (scanUpBlocks levels maxPrice (p + d)).map Prod.fst =
      (scan 8 (fun e => decide (p + e < 2 ^ 31)) (fun e => seen levels (p + e))
        (fun e => full levels (p + e)) d (maxPrice.toNat + 1 - (p + d))).map (priceAt (p + ·)) := by
  rw [scanUpBlocks, scan]
  by_cases h8 : p + d + 8 ≤ maxPrice.toNat + 1
  case neg =>
    rw [dif_neg h8, dif_neg (by omega)]
    exact congrArg some (scanUpFrom_fst levels p d _)
  case pos =>
    have hle : ∀ q ∈ (List.range 8).map (p + d + ·), q ≤ maxPrice.toNat := by
      rintro q hq
      obtain ⟨l, hl, rfl⟩ := List.mem_map.1 hq
      have := List.mem_range.1 hl
      omega
    rw [dif_pos h8, dif_pos ⟨by decide, by omega⟩, gather_eq hle]
    have hread : (∀ q ∈ (List.range 8).map (p + d + ·), q < 2 ^ 31) ↔
        ∀ e < 8, decide (p + (d + e) < 2 ^ 31) = true := by
      simp only [List.forall_mem_map, List.mem_range, decide_eq_true_iff, Nat.add_assoc]
    by_cases hin : ∀ e < 8, decide (p + (d + e) < 2 ^ 31) = true
    case neg => rw [if_neg (mt hread.1 hin), if_neg hin]; rfl
    case pos =>
      rw [if_pos (hread.2 hin), if_pos hin, first_eq_findIdx]
      have hlanes : (((List.range 8).map (p + d + ·)).map fun q =>
            (levels (UInt32.ofNat q)).totalShares).findIdx? positive =
          (List.range 8).findIdx? fun l => seen levels (p + (d + l)) := by
        rw [List.map_map, List.findIdx?_map]
        refine congrArg (List.findIdx? · _) (funext fun l => ?_)
        show positive (levels (UInt32.ofNat (p + d + l))).totalShares = _
        rw [Nat.add_assoc]
        rfl
      dsimp only
      rw [hlanes]
      cases hl : (List.range 8).findIdx? fun l => seen levels (p + (d + l)) with
      | some l =>
        show some (UInt32.ofNat (p + d) + UInt32.ofNat l) = some (UInt32.ofNat (p + (d + l)))
        rw [← Nat.add_assoc, UInt32.ofNat_add (p + d)]
      | none =>
        show Option.map Prod.fst (Option.map _ (scanUpBlocks levels maxPrice (p + d + 8))) =
          Option.map _ (scan 8 _ _ _ (d + 8) (maxPrice.toNat + 1 - (p + d) - 8))
        rw [Option.map_map, Nat.sub_sub, Nat.add_assoc p d 8]
        exact scanUpBlocks_fst p (d + 8)
termination_by maxPrice.toNat + 1 - (p + d)
decreasing_by omega

/-- The two scans agree if they stop at one offset. -/
theorem agree_iff {price : ℕ → ℕ} {n : ℕ} (hpos : ∀ e < n, 0 < price e ∧ price e < 2 ^ 32)
    (hinj : ∀ e < n, ∀ x < n, price e = price x → e = x) (levels : UInt32 → PriceLevel) :
    (scan 8 (fun e => decide (price e < 2 ^ 31)) (fun e => seen levels (price e))
        (fun e => full levels (price e)) 0 n).map (priceAt price) =
      some (priceAt price (first (fun e => full levels (price e)) 0 n)) ↔
    Harmless 8 (fun e => decide (price e < 2 ^ 31)) (fun e => seen levels (price e))
        (fun e => full levels (price e)) 0 n := by
  rw [← scan_eq_iff (by decide) (fun e => full_of_seen) 0 n]
  constructor
  · intro h
    obtain ⟨r, hr, hprice⟩ := Option.map_eq_some_iff.1 h
    have hscan (e : ℕ) (he : r = some e) : e < n := by
      have hmem := mem_of_scan (he ▸ hr)
      omega
    have hfirst (e : ℕ) (he : first (fun e => full levels (price e)) 0 n = some e) : e < n := by
      have hmem := first_eq_some_iff.1 he
      omega
    rw [hr, (priceAt_inj hpos hinj hscan hfirst).1 hprice]
  · intro h
    rw [h]
    rfl

/-! ## When the vector scans agree -/

/-- A total that is a positive lane. -/
def Seen (levels : UInt32 → PriceLevel) (q : ℕ) : Prop :=
  (levels (UInt32.ofNat q)).totalShares ≠ 0 ∧
    (levels (UInt32.ofNat q)).totalShares.toNat < 2 ^ 31

/-- A total that is a negative lane. -/
def Hidden (levels : UInt32 → PriceLevel) (q : ℕ) : Prop :=
  2 ^ 31 ≤ (levels (UInt32.ofNat q)).totalShares.toNat

/-- From `s` down the indices are nonnegative, and a hidden level among the blocks is below one that
is seen. -/
structure DownAgrees (levels : UInt32 → PriceLevel) (s : ℕ) : Prop where
  index : s < 2 ^ 31
  hidden : ∀ q, s % 8 < q → q ≤ s → Hidden levels q → ∃ q', q < q' ∧ q' ≤ s ∧ Seen levels q'

/-- From `p` up to `hi` a hidden level among the blocks is above one that is seen, and a block with
negative indices above a block with one that is seen. -/
structure UpAgrees (levels : UInt32 → PriceLevel) (p hi : ℕ) : Prop where
  index : ∀ q, p ≤ q → q < p + (hi + 1 - p - (hi + 1 - p) % 8) → 2 ^ 31 ≤ q →
    ∃ q', p ≤ q' ∧ q' < q - (q - p) % 8 ∧ Seen levels q'
  hidden : ∀ q, p ≤ q → q < p + (hi + 1 - p - (hi + 1 - p) % 8) → Hidden levels q →
    ∃ q', p ≤ q' ∧ q' < q ∧ Seen levels q'

theorem harmless_down_iff {levels : UInt32 → PriceLevel} {s : ℕ} :
    Harmless 8 (fun e => decide (s - e < 2 ^ 31)) (fun e => seen levels (s - e))
      (fun e => full levels (s - e)) 0 s ↔ DownAgrees levels s := by
  constructor
  · rintro ⟨hseen, hread⟩
    refine ⟨?_, fun q hlo hhi hq => ?_⟩
    · by_contra hs
      obtain ⟨x, -, hx, -⟩ := hread 0 ⟨Nat.le_refl _, by omega⟩ (decide_eq_false hs)
      omega
    · have hq' : full levels (s - (s - q)) = true ∧ seen levels (s - (s - q)) = false := by
        rw [Nat.sub_sub_self hhi]
        exact positive_eq_false.2 hq
      obtain ⟨x, -, hx, hs⟩ := hseen (s - q) ⟨Nat.zero_le _, by omega⟩ hq'.1 hq'.2
      exact ⟨s - x, by omega, Nat.sub_le _ _, positive_iff.1 hs⟩
  · rintro ⟨hindex, hhidden⟩
    refine ⟨fun e he hf hs => ?_, fun e he hr => ?_⟩
    · have he' := he.2
      obtain ⟨q, hlo, hhi, hq⟩ :=
        hhidden (s - e) (by omega) (Nat.sub_le _ _) (positive_eq_false.1 ⟨hf, hs⟩)
      refine ⟨s - q, Nat.zero_le _, by omega, ?_⟩
      show seen levels (s - (s - q)) = true
      rw [Nat.sub_sub_self hhi]
      exact positive_iff.2 hq
    · exact absurd (lt_of_le_of_lt (Nat.sub_le s e) hindex) (of_decide_eq_false hr)

theorem harmless_up_iff {levels : UInt32 → PriceLevel} {p hi : ℕ} :
    Harmless 8 (fun e => decide (p + e < 2 ^ 31)) (fun e => seen levels (p + e))
      (fun e => full levels (p + e)) 0 (hi + 1 - p) ↔ UpAgrees levels p hi := by
  constructor
  · rintro ⟨hseen, hread⟩
    constructor
    · intro q hlo hhi hq
      obtain ⟨x, -, hx, hs⟩ := hread (q - p) ⟨Nat.zero_le _, by omega⟩ (by
        rw [Nat.add_sub_cancel' hlo]
        exact decide_eq_false (by omega))
      exact ⟨p + x, Nat.le_add_right _ _, by omega, positive_iff.1 hs⟩
    · intro q hlo hhi hq
      have hq' : full levels (p + (q - p)) = true ∧ seen levels (p + (q - p)) = false := by
        rw [Nat.add_sub_cancel' hlo]
        exact positive_eq_false.2 hq
      obtain ⟨x, -, hx, hs⟩ := hseen (q - p) ⟨Nat.zero_le _, by omega⟩ hq'.1 hq'.2
      exact ⟨p + x, Nat.le_add_right _ _, by omega, positive_iff.1 hs⟩
  · rintro ⟨hindex, hhidden⟩
    have hback {q : ℕ} (hlo : p ≤ q) (hq : Seen levels q) : seen levels (p + (q - p)) = true := by
      rw [Nat.add_sub_cancel' hlo]
      exact positive_iff.2 hq
    refine ⟨fun e he hf hs => ?_, fun e he hr => ?_⟩
    · have he' := he.2
      obtain ⟨q, hlo, hhi, hq⟩ := hhidden (p + e) (Nat.le_add_right _ _) (by omega)
        (positive_eq_false.1 ⟨hf, hs⟩)
      exact ⟨q - p, Nat.zero_le _, by omega, hback hlo hq⟩
    · have he' := he.2
      have hr' := of_decide_eq_false hr
      obtain ⟨q, hlo, hhi, hq⟩ := hindex (p + e) (Nat.le_add_right _ _) (by omega) (by omega)
      rw [Nat.add_sub_cancel_left] at hhi
      exact ⟨q - p, Nat.zero_le _, by omega, hback hlo hq⟩

theorem downStart_le (b : OrderBook) (start : UInt32) : b.downStart start ≤ b.maxPrice := by
  rw [downStart]
  split
  · split
    · exact UInt32.le_refl _
    · exact UInt32.zero_le
  · rename_i h
    exact UInt32.not_lt.1 fun hlt => h (.inr hlt)

theorem le_downStart {b : OrderBook} {start p : UInt32} (hp : p ≤ start) (hmax : p ≤ b.maxPrice) :
    p ≤ b.downStart start := by
  rw [downStart]
  split
  · rename_i h
    split
    · exact hmax
    · exact h.resolve_right ‹_› ▸ hp
  · exact hp

theorem downStart_le_start (b : OrderBook) (start : UInt32) : b.downStart start ≤ start := by
  rw [downStart]
  split
  · split
    · exact UInt32.le_of_lt ‹_›
    · exact UInt32.zero_le
  · exact UInt32.le_refl _

theorem scanDownVector_agrees_iff (b : OrderBook) (start : UInt32) :
    (b.scanDownVector start).map Prod.fst = some (b.scanDown start).1 ↔
      DownAgrees b.bid (b.downStart start).toNat := by
  have hle := UInt32.le_iff_toNat_le.1 (b.downStart_le start)
  have hlt := b.maxPrice.toNat_lt
  have hvector := @scanDownBlocks_fst b.bid b.maxPrice _ hle 0 (Nat.zero_le _)
  have hscalar := scanDownFrom_fst b.bid (Nat.zero_le (b.downStart start).toNat)
  rw [← harmless_down_iff, ← agree_iff (fun e he => by omega) fun e he x hx h => by omega]
  rw [scanDownVector, Option.map_map]
  exact iff_of_eq (congrArg₂ (· = ·) hvector (congrArg some hscalar))

theorem le_upStart (start : UInt32) : start ≤ upStart start := by
  rw [upStart]
  split
  · rename_i h
    exact h ▸ UInt32.zero_le
  · exact UInt32.le_refl _

theorem upStart_pos (start : UInt32) : 0 < (upStart start).toNat := by
  rw [upStart]
  split
  · decide
  · rename_i h
    exact Nat.pos_of_ne_zero fun h0 => h (UInt32.toNat_inj.1 h0)

theorem upStart_le {start p : UInt32} (h0 : p ≠ 0) (hp : start ≤ p) : upStart start ≤ p := by
  rw [upStart]
  split
  · exact UInt32.le_iff_toNat_le.2 (Nat.pos_of_ne_zero fun h => h0 (UInt32.toNat_inj.1 h))
  · exact hp

theorem scanUpVector_agrees_iff (b : OrderBook) (start : UInt32) :
    (b.scanUpVector start).map Prod.fst = some (b.scanUp start).1 ↔
      UpAgrees b.ask (upStart start).toNat b.maxPrice.toNat := by
  have hpos : 0 < (upStart start).toNat := upStart_pos start
  have hlt := b.maxPrice.toNat_lt
  have hvector := @scanUpBlocks_fst b.ask b.maxPrice (upStart start).toNat 0
  have hscalar := scanUpFrom_fst b.ask (upStart start).toNat 0
    (b.maxPrice.toNat + 1 - (upStart start).toNat)
  rw [← harmless_up_iff, ← agree_iff (fun e he => by omega) fun e he x hx h => by omega]
  rw [scanUpVector, Option.map_map]
  exact iff_of_eq (congrArg₂ (· = ·) hvector (congrArg some hscalar))

/-! ## What the scalar scans find -/

/-- `best` is the highest price from `start` down that has shares, 0 when there is none. -/
structure HighestFrom (b : OrderBook) (start best : UInt32) : Prop where
  upper : ∀ p, p ≠ 0 → p ≤ start → p ≤ b.maxPrice → (b.bid p).totalShares ≠ 0 → p ≤ best
  attained : best ≠ 0 → (b.bid best).totalShares ≠ 0 ∧ best ≤ start ∧ best ≤ b.maxPrice

/-- `best` is the lowest price from `start` up that has shares, 0 when there is none. -/
structure LowestFrom (b : OrderBook) (start best : UInt32) : Prop where
  lower : ∀ p, p ≠ 0 → start ≤ p → p ≤ b.maxPrice → (b.ask p).totalShares ≠ 0 →
    best ≠ 0 ∧ best ≤ p
  attained : best ≠ 0 → (b.ask best).totalShares ≠ 0 ∧ start ≤ best ∧ best ≤ b.maxPrice

theorem scanDown_highest (b : OrderBook) (start : UInt32) :
    b.HighestFrom start (b.scanDown start).1 := by
  obtain ⟨hupper, hattained⟩ := scanDownFrom_spec b.bid (b.downStart start).toNat_lt
  refine ⟨fun p h0 hp hmax hne => ?_, fun h => ?_⟩
  · exact hupper p h0 (UInt32.le_iff_toNat_le.1 (le_downStart hp hmax)) hne
  · obtain ⟨hne, hle⟩ := hattained h
    have hle' := UInt32.le_iff_toNat_le.2 hle
    exact ⟨hne, UInt32.le_trans hle' (b.downStart_le_start start),
      UInt32.le_trans hle' (b.downStart_le start)⟩

theorem scanUp_lowest (b : OrderBook) (start : UInt32) :
    b.LowestFrom start (b.scanUp start).1 := by
  have hlt := b.maxPrice.toNat_lt
  have hpos := upStart_pos start
  have hstartlt := (upStart start).toNat_lt
  refine ⟨fun p h0 hp hmax hne => ?_, fun h => ?_⟩
  · have hle := UInt32.le_iff_toNat_le.1 (upStart_le h0 hp)
    have hmax' := UInt32.le_iff_toNat_le.1 hmax
    have hlower := (scanUpFrom_spec b.ask hpos
      (n := b.maxPrice.toNat + 1 - (upStart start).toNat) (by omega)).1
    exact hlower p hle (by omega) hne
  · have hfound := scanUpFrom_fst b.ask (upStart start).toNat 0
      (b.maxPrice.toNat + 1 - (upStart start).toNat)
    change (b.scanUp start).1 = _ at hfound
    cases hfirst : first (fun e => full b.ask ((upStart start).toNat + e)) 0
        (b.maxPrice.toNat + 1 - (upStart start).toNat) with
    | none =>
      rw [hfirst] at hfound
      exact absurd hfound h
    | some e =>
      rw [hfirst] at hfound
      obtain ⟨-, he, hfull, -⟩ := first_eq_some_iff.1 hfirst
      have hto : (b.scanUp start).1.toNat = (upStart start).toNat + e :=
        hfound ▸ UInt32.toNat_ofNat_of_lt' (by
          show (upStart start).toNat + e < 2 ^ 32
          omega)
      have hstart := UInt32.le_iff_toNat_le.1 (le_upStart start)
      refine ⟨hfound ▸ full_iff.1 hfull, UInt32.le_iff_toNat_le.2 (by omega),
        UInt32.le_iff_toNat_le.2 (by omega)⟩

/-! ## Agreement of the builds -/

/-- The vector scans return what the scalar ones do, the highest price from the start down and the
lowest from the start up, exactly if no hidden level and no negative index comes first. -/
theorem scans_agree_iff (b : OrderBook) (start : UInt32) :
    (((b.scanDownVector start).map Prod.fst = some (b.scanDown start).1 ∧
        b.HighestFrom start (b.scanDown start).1) ↔
      DownAgrees b.bid (b.downStart start).toNat) ∧
    (((b.scanUpVector start).map Prod.fst = some (b.scanUp start).1 ∧
        b.LowestFrom start (b.scanUp start).1) ↔
      UpAgrees b.ask (upStart start).toNat b.maxPrice.toNat) := by
  constructor
  · rw [and_iff_left (b.scanDown_highest start)]
    exact b.scanDownVector_agrees_iff start
  · rw [and_iff_left (b.scanUp_lowest start)]
    exact b.scanUpVector_agrees_iff start

/-- A book with one bid of 2^31 shares, after a better one was removed. -/
def hiddenBid : OrderBook :=
  (((((new 1000000).add sideBuy 9 2147483648).2).add sideBuy 20 1).2.remove sideBuy 20 1 true).2

/-- The vector scan of a book that was added to and removed from passes over the only bid. -/
theorem scan_passes_hidden_bid :
    ((new 1000000).add sideBuy 9 2147483648).1 = true ∧
      (((new 1000000).add sideBuy 9 2147483648).2.add sideBuy 20 1).1 = true ∧
      (hiddenBid.scanDown 19).1 = 9 ∧
      (hiddenBid.scanDownVector 19).map Prod.fst = some 0 := by
  decide +kernel

end OrderBook

end ItchOrderbook
