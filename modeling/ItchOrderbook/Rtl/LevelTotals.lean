import ItchOrderbook.Rtl.BookCore
import ItchOrderbook.Rtl.TableContents

/-!
# The levels as totals over the table

`BookCore.Backed k live`: the table holds the orders `live`, and every level, counter and volume is
the total over them, modulo the width of its register. A message keeps this (`Backed.apply`) unless
an INSERT runs out of probes while `res_found` still holds an earlier answer (`Blocked`): then depth
is added for an order that was not stored.
-/

namespace ItchOrderbook.Rtl

open Finmap (totalAt)

variable {c : Build}

/-- The shares of an entry. -/
def OrderEntry.weight (e : OrderEntry) : ℕ := e.shares.toNat

/-- The side and the level of an entry. -/
def OrderEntry.place (c : Build) (base : UInt32) (e : OrderEntry) : Bool × BitVec c.levelAw :=
  (e.isBid, levelAddr c (e.price - base))

/-- What is left of an entry that loses `amt` shares, as the table is given it. -/
def OrderEntry.left (e : OrderEntry) (ref : UInt64) (amt : UInt32) : OrderEntry where
  valid := true
  isBid := e.isBid
  locate := e.locate
  shares := e.shares - amt
  price := e.price
  oref := ref

/-- The live orders after one of them has lost `amt` shares. -/
def LiveEntries.reduce (live : LiveEntries) (ref : UInt64) (e : OrderEntry) (amt : UInt32) :
    LiveEntries :=
  if e.shares - amt = 0 then live.erase ref else live.insert ref (e.left ref amt)

/-- The orders after a reduction: the one that has lost shares, if some are left, and the others. -/
theorem LiveEntries.lookup_reduce {live : LiveEntries} {ref r : UInt64} {e v : OrderEntry}
    {amt : UInt32} (hv : (live.reduce ref e amt).lookup r = some v) :
    r = ref ∧ e.shares - amt ≠ 0 ∧ v = e.left ref amt ∨ r ≠ ref ∧ live.lookup r = some v := by
  unfold LiveEntries.reduce at hv
  by_cases hr : r = ref
  · subst hr
    split at hv
    · rw [Finmap.lookup_erase] at hv
      cases hv
    · rw [Finmap.lookup_insert, Option.some_inj] at hv
      exact Or.inl ⟨rfl, ‹_›, hv.symm⟩
  · refine Or.inr ⟨hr, ?_⟩
    split at hv
    · rwa [Finmap.lookup_erase_ne hr] at hv
    · rwa [Finmap.lookup_insert_of_ne _ hr] at hv

/-! ## One side -/

/-- The registers of one side are totals over the live orders. -/
structure SideCore.Totals (d : SideCore c) (isBid : Bool) (base : UInt32) (live : LiveEntries) :
    Prop where
  shares : ∀ a, d.sharesMem a
    = UInt32.ofNat (totalAt (OrderEntry.place c base) OrderEntry.weight live (isBid, a))
  count : ∀ a, d.countMem a
    = UInt32.ofNat (totalAt (OrderEntry.place c base) (fun _ => 1) live (isBid, a))
  cnt : d.cnt = UInt32.ofNat (totalAt OrderEntry.isBid (fun _ => 1) live isBid)
  totVol : d.totVol = UInt64.ofNat (totalAt OrderEntry.isBid OrderEntry.weight live isBid)

section Totals

variable {d : SideCore c} {isBid : Bool} {base : UInt32} {live : LiveEntries} {ref : UInt64}
  {e : OrderEntry}

theorem totals_empty (isBid : Bool) (base : UInt32) : ({} : SideCore c).Totals isBid base ∅ :=
  ⟨fun _ => rfl, fun _ => rfl, rfl, rfl⟩

/-- The best level is no part of the totals. -/
theorem SideCore.Totals.congr_best (h : d.Totals isBid base live)
    (best : Option (BitVec c.levelAw)) : ({ d with best } : SideCore c).Totals isBid base live :=
  ⟨h.shares, h.count, h.cnt, h.totVol⟩

theorem SideCore.Totals.settle (h : d.Totals isBid base live) (isBid' : Bool)
    (a : BitVec c.levelAw) : (d.settle isBid' a).Totals isBid base live := by
  unfold SideCore.settle SideCore.vacate
  split
  · split
    · exact h.congr_best _
    · exact h
  · exact h

/-- A memory of totals after one of its words has grown with the orders at it. -/
theorem update_total {w : ℕ} {mem : BitVec w → UInt32} {f f' : BitVec w → ℕ} {a : BitVec w} {n : ℕ}
    (h : ∀ x, mem x = UInt32.ofNat (f x)) (hf : ∀ x, f' x = f x + if a = x then n else 0)
    {m : UInt32} (hm : m = UInt32.ofNat n) (x : BitVec w) :
    Function.update mem a (mem a + m) x = UInt32.ofNat (f' x) := by
  subst hm
  rw [Function.update_apply, hf]
  by_cases hx : x = a
  · rw [if_pos hx, if_pos hx.symm, h, hx, UInt32.ofNat_add]
  · rw [if_neg hx, if_neg (Ne.symm hx), h, Nat.add_zero]

/-- The same for a word that has shrunk with them. -/
theorem update_total_sub {w : ℕ} {mem : BitVec w → UInt32} {f f' : BitVec w → ℕ} {a : BitVec w}
    {n : ℕ} (h : ∀ x, mem x = UInt32.ofNat (f x)) (hf : ∀ x, f' x + (if a = x then n else 0) = f x)
    {m : UInt32} (hm : m = UInt32.ofNat n) (x : BitVec w) :
    Function.update mem a (mem a - m) x = UInt32.ofNat (f' x) := by
  subst hm
  have hfx := hf x
  rw [Function.update_apply]
  by_cases hx : x = a
  · rw [if_pos hx.symm] at hfx
    rw [if_pos hx, h, ← hx, ← hfx, UInt32.ofNat_add, UInt32.add_sub_cancel]
  · rw [if_neg (Ne.symm hx), Nat.add_zero] at hfx
    rw [if_neg hx, h, hfx]

/-- An order that arrives on a side. -/
theorem SideCore.Totals.add (h : d.Totals isBid base live) (hnew : live.lookup ref = none)
    (he : e.isBid = isBid) :
    (d.add isBid (levelAddr c (e.price - base)) e.shares).Totals isBid base (live.insert ref e) := by
  have hmem : ref ∉ live := Finmap.lookup_eq_none.mp hnew
  have hplace (a : BitVec c.levelAw) (n : ℕ) : (if e.place c base = (isBid, a) then n else 0)
      = if levelAddr c (e.price - base) = a then n else 0 := by
    unfold OrderEntry.place
    simp only [Prod.mk.injEq, he, true_and]
  refine ⟨update_total h.shares (fun a => ?_) (UInt32.ofNat_toNat).symm,
    update_total h.count (fun a => ?_) rfl, ?_, ?_⟩
  · rw [Finmap.totalAt_insert_of_notMem hmem, hplace]
    rfl
  · rw [Finmap.totalAt_insert_of_notMem hmem, hplace]
  · rw [Finmap.totalAt_insert_of_notMem hmem, if_pos he, UInt32.ofNat_add, ← h.cnt]
    rfl
  · rw [Finmap.totalAt_insert_of_notMem hmem, if_pos he, UInt64.ofNat_add, ← h.totVol]
    show d.totVol + e.shares.toUInt64 = d.totVol + UInt64.ofNat e.shares.toNat
    rw [UInt64.ofNat_uInt32ToNat]

/-- What a reduction does to the totals. -/
theorem totals_reduce (ho : live.lookup ref = some e) {amt : UInt32} (hle : amt ≤ e.shares)
    (base : UInt32) :
    (∀ p, totalAt (OrderEntry.place c base) OrderEntry.weight (live.reduce ref e amt) p
        + (if e.place c base = p then amt.toNat else 0)
        = totalAt (OrderEntry.place c base) OrderEntry.weight live p)
      ∧ (∀ p, totalAt (OrderEntry.place c base) (fun _ => 1) (live.reduce ref e amt) p
        + (if e.place c base = p then (if e.shares - amt = 0 then 1 else 0) else 0)
        = totalAt (OrderEntry.place c base) (fun _ => 1) live p)
      ∧ (∀ b, totalAt OrderEntry.isBid OrderEntry.weight (live.reduce ref e amt) b
        + (if e.isBid = b then amt.toNat else 0) = totalAt OrderEntry.isBid OrderEntry.weight live b)
      ∧ ∀ b, totalAt OrderEntry.isBid (fun _ => 1) (live.reduce ref e amt) b
        + (if e.isBid = b then (if e.shares - amt = 0 then 1 else 0) else 0)
        = totalAt OrderEntry.isBid (fun _ => 1) live b := by
  have hleft : (e.shares - amt).toNat + amt.toNat = e.shares.toNat := by
    have := UInt32.le_iff_toNat_le.mp hle
    rw [UInt32.toNat_sub_of_le _ _ hle]
    omega
  unfold LiveEntries.reduce
  by_cases hgone : e.shares - amt = 0
  · -- all of it leaves
    have hamt : amt.toNat = e.weight := by
      rw [hgone, show (0 : UInt32).toNat = 0 from rfl, Nat.zero_add] at hleft
      exact hleft
    simp only [hgone, if_true, hamt]
    exact ⟨Finmap.totalAt_erase ho, Finmap.totalAt_erase ho, Finmap.totalAt_erase ho,
      Finmap.totalAt_erase ho⟩
  · simp only [hgone, if_false, ite_self, Nat.add_zero]
    -- the entry that stays is at the same place
    have hw {P : Type} [DecidableEq P] (place : OrderEntry → P)
        (hp : place (e.left ref amt) = place e) (p : P) :
        totalAt place OrderEntry.weight (live.insert ref (e.left ref amt)) p
          + (if place e = p then amt.toNat else 0) = totalAt place OrderEntry.weight live p := by
      have := Finmap.totalAt_insert_of_lookup place OrderEntry.weight (e.left ref amt) ho hp p
      have hwe : (e.left ref amt).weight + amt.toNat = e.weight := hleft
      split at this <;> simp_all only [if_true, if_false] <;> omega
    have hc {P : Type} [DecidableEq P] (place : OrderEntry → P)
        (hp : place (e.left ref amt) = place e) (p : P) :
        totalAt place (fun _ => 1) (live.insert ref (e.left ref amt)) p
          = totalAt place (fun _ => 1) live p := by
      have := Finmap.totalAt_insert_of_lookup place (fun _ => 1) (e.left ref amt) ho hp p
      omega
    exact ⟨hw _ rfl, hc _ rfl, hw _ rfl, hc _ rfl⟩

/-- An order that loses shares on a side. -/
theorem SideCore.Totals.take (h : d.Totals isBid base live) (ho : live.lookup ref = some e)
    (he : e.isBid = isBid) {amt : UInt32} (hle : amt ≤ e.shares) :
    (d.take (levelAddr c (e.price - base)) amt (e.shares - amt == 0)).Totals isBid base
      (live.reduce ref e amt) := by
  obtain ⟨hsh, hct, hvol, hcnt⟩ := totals_reduce (c := c) ho hle base
  have hplace (a : BitVec c.levelAw) (n : ℕ) : (if e.place c base = (isBid, a) then n else 0)
      = if levelAddr c (e.price - base) = a then n else 0 := by
    unfold OrderEntry.place
    simp only [Prod.mk.injEq, he, true_and]
  have hcnt' := hcnt isBid
  have hvol' := hvol isBid
  rw [if_pos he] at hcnt' hvol'
  refine ⟨update_total_sub h.shares (fun a => ?_) (UInt32.ofNat_toNat).symm, ?_, ?_, ?_⟩
  · rw [← hplace]
    exact hsh _
  · unfold SideCore.take
    by_cases hgone : e.shares - amt = 0
    · simp only [hgone, if_true] at hct
      simp only [hgone, beq_self_eq_true, if_true]
      refine update_total_sub h.count (fun a => ?_) rfl
      rw [← hplace]
      exact hct _
    · simp only [hgone, if_false, ite_self, Nat.add_zero] at hct
      simp only [beq_eq_false_iff_ne.mpr hgone, Bool.false_eq_true, if_false, hct]
      exact h.count
  · unfold SideCore.take
    by_cases hgone : e.shares - amt = 0
    · simp only [hgone, if_true] at hcnt'
      simp only [hgone, beq_self_eq_true, if_true]
      rw [h.cnt, ← hcnt', UInt32.ofNat_add]
      exact UInt32.add_sub_cancel _ _
    · simp only [hgone, if_false, Nat.add_zero] at hcnt'
      simp only [beq_eq_false_iff_ne.mpr hgone, Bool.false_eq_true, if_false, hcnt']
      exact h.cnt
  · show d.totVol - amt.toUInt64 = _
    rw [h.totVol, ← hvol', UInt64.ofNat_add, UInt64.ofNat_uInt32ToNat, UInt64.add_sub_cancel]

/-- The other side. -/
theorem SideCore.Totals.insert_other (h : d.Totals isBid base live)
    (hnew : live.lookup ref = none) (he : e.isBid ≠ isBid) :
    d.Totals isBid base (live.insert ref e) := by
  have hmem : ref ∉ live := Finmap.lookup_eq_none.mp hnew
  have hplace (a : BitVec c.levelAw) (n : ℕ) :
      (if e.place c base = (isBid, a) then n else 0) = 0 :=
    if_neg fun h => he (congrArg Prod.fst h)
  refine ⟨fun a => ?_, fun a => ?_, ?_, ?_⟩
  · rw [Finmap.totalAt_insert_of_notMem hmem, hplace]
    exact h.shares a
  · rw [Finmap.totalAt_insert_of_notMem hmem, hplace]
    exact h.count a
  · rw [Finmap.totalAt_insert_of_notMem hmem, if_neg he]
    exact h.cnt
  · rw [Finmap.totalAt_insert_of_notMem hmem, if_neg he]
    exact h.totVol

theorem SideCore.Totals.reduce_other (h : d.Totals isBid base live)
    (ho : live.lookup ref = some e) (he : e.isBid ≠ isBid) {amt : UInt32} (hle : amt ≤ e.shares) :
    d.Totals isBid base (live.reduce ref e amt) := by
  obtain ⟨hsh, hct, hvol, hcnt⟩ := totals_reduce (c := c) ho hle base
  have hplace (a : BitVec c.levelAw) (n : ℕ) :
      (if e.place c base = (isBid, a) then n else 0) = 0 :=
    if_neg fun h => he (congrArg Prod.fst h)
  have hcnt' := hcnt isBid
  have hvol' := hvol isBid
  rw [if_neg he, Nat.add_zero] at hcnt' hvol'
  refine ⟨fun a => ?_, fun a => ?_, ?_, ?_⟩
  · have := hsh (isBid, a)
    rw [hplace] at this
    rw [h.shares, ← this]
    rfl
  · have := hct (isBid, a)
    rw [hplace] at this
    rw [h.count, ← this]
    rfl
  · rw [hcnt', h.cnt]
  · rw [hvol', h.totVol]

end Totals

/-! ## The book -/

namespace BookCore

/-- The levels and the counters are totals over what the table holds. -/
structure Backed (k : BookCore c) (live : LiveEntries) : Prop where
  stores : k.table.Stores live
  totals : ∀ isBid, (k.side isBid).Totals isBid k.bandBase live
  inBand : ∀ ref e, live.lookup ref = some e → inWindow c (e.price - k.bandBase) = true
  based : k.bandValid = true ∨ c.bandAutoInit = false ∨ live = ∅

section Access

variable (k : BookCore c) (isBid : Bool) (d : SideCore c)

theorem side_setSide (b : Bool) :
    (k.setSide isBid d).side b = if b = isBid then d else k.side b := by
  cases isBid <;> cases b <;> rfl

@[simp] theorem table_setSide : (k.setSide isBid d).table = k.table := by cases isBid <;> rfl

@[simp] theorem bandBase_setSide : (k.setSide isBid d).bandBase = k.bandBase := by
  cases isBid <;> rfl

@[simp] theorem bandValid_setSide : (k.setSide isBid d).bandValid = k.bandValid := by
  cases isBid <;> rfl

@[simp] theorem sums_setSide : (k.setSide isBid d).sums = k.sums := by cases isBid <;> rfl

@[simp] theorem side_table (t : TableCore c) :
    ({ k with table := t } : BookCore c).side isBid = k.side isBid := rfl

@[simp] theorem side_sums (sums : TradeSums) :
    ({ k with sums } : BookCore c).side isBid = k.side isBid := rfl

end Access

variable {k : BookCore c} {live : LiveEntries} {ref : UInt64} {e : OrderEntry} {q : TblCmd}
  {d : Decoded}

/-- The book after power-up, with the band configured at `base` or left to the first Add. -/
def powerUp (c : Build) (base : Option UInt32) : BookCore c :=
  { bandValid := base.isSome, bandBase := base.getD 0 }

theorem backed_powerUp (base : Option UInt32) : (powerUp c base).Backed ∅ where
  stores := TableCore.stores_empty
  totals isBid := by cases isBid <;> exact totals_empty _ _
  inBand ref e h := by cases h
  based := Or.inr (Or.inr rfl)

theorem Backed.congr (h : k.Backed live) {k' : BookCore c} (ht : k'.table.slots = k.table.slots)
    (hs : ∀ isBid, k'.side isBid = k.side isBid) (hb : k'.bandBase = k.bandBase)
    (hv : k'.bandValid = k.bandValid) : k'.Backed live where
  stores := h.stores.congr ht
  totals isBid := by rw [hs, hb]; exact h.totals isBid
  inBand ref e he := by rw [hb]; exact h.inBand ref e he
  based := by rw [hv]; exact h.based

/-- An INSERT that runs out of probes while `res_found` is set: the engine takes it for stored. -/
def Blocked (k : BookCore c) (ref : UInt64) : Prop :=
  k.table.seek ref = .full ∧ k.table.resFound = true

instance (k : BookCore c) (ref : UInt64) : Decidable (k.Blocked ref) :=
  inferInstanceAs (Decidable (_ ∧ _))

/-- An order arrives: it is stored and its level grows, or nothing happens. -/
theorem Backed.arrive (h : k.Backed live) (hop : q.op = .insert) (hu : q.unique = true)
    (hwin : inWindow c (q.price - k.bandBase) = true)
    (hbased : k.bandValid = true ∨ c.bandAutoInit = false) (hfree : ¬k.Blocked q.ref) :
    (live.lookup q.ref = none ∧ (k.arrive q).table.resFound = true
        ∧ k.arrive q = { k with table := k.table.exec q }.setSide q.isBid
          ((k.side q.isBid).add q.isBid (k.addr q.price) q.shares)
        ∧ (k.arrive q).Backed (live.insert q.ref q.insEntry))
      ∨ ((k.arrive q).table.resFound = false
        ∧ k.arrive q = { k with table := k.table.exec q } ∧ (k.arrive q).Backed live) := by
  have hfail (hf : (k.table.exec q).resFound = false) (hs : (k.table.exec q).slots = k.table.slots) :
      (k.arrive q).table.resFound = false
        ∧ k.arrive q = { k with table := k.table.exec q } ∧ (k.arrive q).Backed live := by
    have harr : k.arrive q = { k with table := k.table.exec q } := by
      unfold BookCore.arrive
      simp only [hf, Bool.false_eq_true, if_false]
    rw [harr]
    exact ⟨hf, rfl, h.congr hs (fun _ => rfl) rfl rfl⟩
  cases hl : live.lookup q.ref with
  | some e =>
    -- a duplicate reference
    have hexec := h.stores.insert_duplicate hl hop hu
    exact Or.inr (hfail (by rw [hexec]) (by rw [hexec]))
  | none =>
    rcases h.stores.insert_new hl hop with ⟨-, hstores, hf, -⟩ | ⟨hfull, hexec⟩
    · have harr : k.arrive q = { k with table := k.table.exec q }.setSide q.isBid
          ((k.side q.isBid).add q.isBid (k.addr q.price) q.shares) := by
        unfold BookCore.arrive
        simp only [hf, if_true]
        rfl
      refine Or.inl ⟨rfl, ?_, harr, ?_⟩
      · rw [harr, table_setSide]
        exact hf
      · rw [harr]
        refine ⟨?_, fun isBid => ?_, fun ref e he => ?_, ?_⟩
        · rw [table_setSide]
          exact hstores
        · rw [side_setSide, bandBase_setSide]
          split
          · rename_i hb
            subst hb
            exact (h.totals q.isBid).add (e := q.insEntry) hl rfl
          · rename_i hb
            exact (h.totals isBid).insert_other hl (Ne.symm hb)
        · rw [bandBase_setSide]
          by_cases hr : ref = q.ref
          · rw [hr, Finmap.lookup_insert, Option.some_inj] at he
            rw [← he]
            exact hwin
          · rw [Finmap.lookup_insert_of_ne _ hr] at he
            exact h.inBand ref e he
        · rw [bandValid_setSide]
          exact hbased.imp_right Or.inl
    · -- no slot: the answer is the one the table gave before
      have hf : k.table.resFound = false := by
        rw [← Bool.not_eq_true]
        exact fun hf => hfree ⟨hfull, hf⟩
      exact Or.inr (hfail (by rw [hexec]; exact hf) (by rw [hexec]))

/-- A LOOKUP answers with the entry, and changes nothing else. -/
theorem Backed.lookup (h : k.Backed live) (ref : UInt64) :
    (k.lookup ref).Backed live
      ∧ (k.lookup ref).table = match live.lookup ref with
        | some e => { k.table with
            resFound := true, resPrice := e.price, resShares := e.shares, resIsBid := e.isBid
            resLocate := e.locate }
        | none => { k.table with resFound := false } := by
  have htable : (k.lookup ref).table = match live.lookup ref with
      | some e => { k.table with
          resFound := true, resPrice := e.price, resShares := e.shares, resIsBid := e.isBid
          resLocate := e.locate }
      | none => { k.table with resFound := false } := by
    cases hl : live.lookup ref with
    | some e => exact h.stores.lookup_some hl
    | none => exact h.stores.lookup_none hl
  refine ⟨h.congr ?_ (fun _ => rfl) rfl rfl, htable⟩
  rw [htable]
  split <;> rfl

/-- The answer registers hold an entry. -/
structure Answers (t : TableCore c) (e : OrderEntry) : Prop where
  price : t.resPrice = e.price
  shares : t.resShares = e.shares
  isBid : t.resIsBid = e.isBid
  locate : t.resLocate = e.locate

/-- A resting order loses shares, at its level and in the table. -/
theorem Backed.reduce (h : k.Backed live) (ho : live.lookup ref = some e) (ha : Answers k.table e)
    {amt : UInt32} (hle : amt ≤ e.shares) :
    (k.reduce ref amt).Backed (live.reduce ref e amt)
      ∧ (k.reduce ref amt).table.resFound = true
      ∧ (k.reduce ref amt).table.insFailCount = k.table.insFailCount := by
  have htable : (k.table.exec (restCmd k.table ref (e.shares - amt))).Stores (live.reduce ref e amt)
      ∧ (k.table.exec (restCmd k.table ref (e.shares - amt))).resFound = true
      ∧ (k.table.exec (restCmd k.table ref (e.shares - amt))).insFailCount
        = k.table.insFailCount := by
    unfold restCmd LiveEntries.reduce
    by_cases hgone : e.shares - amt = 0
    · rw [if_pos hgone, if_pos hgone]
      exact h.stores.delete ho
    · rw [if_neg hgone, if_neg hgone, ha.price, ha.isBid, ha.locate]
      exact h.stores.update
        (q := ⟨.insert, false, ref, e.price, e.shares - amt, e.isBid, e.locate⟩) ho rfl rfl
  have hreduce : k.reduce ref amt = { k.setSide e.isBid (((k.side e.isBid).take (k.addr e.price) amt
      (e.shares - amt == 0)).settle e.isBid (k.addr e.price)) with
      table := k.table.exec (restCmd k.table ref (e.shares - amt)) } := by
    unfold BookCore.reduce
    rw [ha.price, ha.shares, ha.isBid]
  rw [hreduce]
  refine ⟨⟨htable.1, fun isBid => ?_, fun ref' e' he' => ?_, ?_⟩, htable.2⟩
  · rw [side_table, side_setSide]
    show SideCore.Totals _ isBid (k.setSide e.isBid _).bandBase _
    rw [bandBase_setSide]
    split
    · rename_i hb
      subst hb
      exact ((h.totals e.isBid).take ho rfl hle).settle _ _
    · rename_i hb
      exact (h.totals isBid).reduce_other ho (Ne.symm hb) hle
  · show inWindow c (e'.price - (k.setSide e.isBid _).bandBase) = true
    rw [bandBase_setSide]
    rcases LiveEntries.lookup_reduce he' with ⟨-, -, rfl⟩ | ⟨-, hl⟩
    · exact h.inBand ref e ho
    · exact h.inBand ref' e' hl
  · show (k.setSide e.isBid _).bandValid = true ∨ _
    rw [bandValid_setSide]
    rcases h.based with hv | hv | hv
    · exact Or.inl hv
    · exact Or.inr (Or.inl hv)
    · rw [hv] at ho
      cases ho

theorem Backed.print (h : k.Backed live) (d : Decoded) (amt : UInt32) :
    (k.print d amt).Backed live ∧ (k.print d amt).table = k.table := by
  unfold BookCore.print
  split
  · exact ⟨h.congr rfl (fun _ => rfl) rfl rfl, rfl⟩
  · split
    · exact ⟨h.congr rfl (fun _ => rfl) rfl rfl, rfl⟩
    · exact ⟨h, rfl⟩

theorem Backed.drop (h : k.Backed live) : k.drop.Backed live := h.congr rfl (fun _ => rfl) rfl rfl

theorem modAmt_le (d : Decoded) (rem : UInt32) : modAmt d rem ≤ rem := by
  unfold modAmt BookUpdateEngineState.minU
  split
  · exact UInt32.le_refl _
  · split
    · exact UInt32.le_of_lt ‹_›
    · exact UInt32.le_refl _

/-- The messages that bring an order. -/
def IsAdd (d : Decoded) : Prop := d.mtype = tAdd ∨ d.mtype = tAddMpid

instance (d : Decoded) : Decidable (IsAdd d) := inferInstanceAs (Decidable (_ ∨ _))

/-- The table without an order. -/
def without (t : TableCore c) (ref : UInt64) : TableCore c :=
  match t.find ref with
  | some i => t.write i .tomb
  | none => t

/-- The message makes an INSERT run out of probes while `res_found` is set. Before the INSERT of a
Replace it always is: the DELETE has set it. -/
def StaleInsert (k : BookCore c) (d : Decoded) : Prop :=
  IsAdd d ∧ inWindow c (d.price - k.baseEff d.price) = true ∧ k.Blocked d.orderRef
    ∨ d.mtype = tReplace ∧ (k.table.find d.orderRef).isSome = true
      ∧ inWindow c (d.price - k.bandBase) = true
      ∧ (without k.table d.orderRef).seek d.newOrderRef = .full

instance (k : BookCore c) (d : Decoded) : Decidable (k.StaleInsert d) :=
  inferInstanceAs (Decidable (_ ∨ _))

/-- The base an Add sees is the one in force, or the book is still empty. -/
theorem Backed.baseEff_eq (h : k.Backed live) (price : UInt32) :
    k.baseEff price = k.bandBase ∨ live = ∅ := by
  unfold baseEff
  rcases h.based with hv | hv | hv
  · exact Or.inl (if_pos (Or.inl hv))
  · exact Or.inl (if_pos (Or.inr (by rw [hv]; rfl)))
  · exact Or.inr hv

/-- The totals survive the base that an Add brings. -/
theorem Backed.rebase (h : k.Backed live) (price : UInt32) :
    ({ k with bandBase := k.baseEff price, bandValid := true } : BookCore c).Backed live := by
  rcases h.baseEff_eq price with hb | hb
  · rw [hb]
    exact ⟨h.stores, fun isBid => h.totals isBid, h.inBand, Or.inl rfl⟩
  · subst hb
    refine ⟨h.stores, fun isBid => ?_, fun ref e he => (by cases he), Or.inl rfl⟩
    have ht := h.totals isBid
    exact ⟨ht.shares, ht.count, ht.cnt, ht.totVol⟩

/-- An Add keeps the totals. -/
theorem Backed.add (h : k.Backed live) (hd : IsAdd d) (hfree : ¬k.StaleInsert d) :
    ∃ live', (k.add d).Backed live' := by
  unfold BookCore.add
  dsimp only
  split
  · rename_i hwin
    rcases (h.rebase d.price).arrive (q := addCmd d) rfl rfl hwin (Or.inl rfl)
      (fun hb => hfree (Or.inl ⟨hd, hwin, hb⟩)) with ⟨-, -, -, hb⟩ | ⟨-, -, hb⟩
    · exact ⟨_, hb⟩
    · exact ⟨_, hb⟩
  · exact ⟨live, h.drop⟩

/-- After the removal of a Replace the table is without the order. -/
theorem slots_reduce_all (hs : k.table.Stores live) (ho : live.lookup ref = some e)
    (ha : Answers k.table e) :
    (k.reduce ref e.shares).table.slots = (without k.table ref).slots := by
  obtain ⟨i, hf, -⟩ := hs.find_of_lookup ho
  have hreduce : (k.reduce ref e.shares).table
      = k.table.exec (restCmd k.table ref (e.shares - e.shares)) := by
    unfold BookCore.reduce
    rw [ha.shares]
  have hdel : restCmd k.table ref (e.shares - e.shares) = { op := .delete, ref } := by
    unfold restCmd
    rw [if_pos (UInt32.sub_self _)]
  rw [hreduce, hdel]
  unfold without
  rw [hf]
  show (k.table.endFind .delete (k.table.find ref)).slots = _
  rw [hf]
  rfl

theorem answers_lookup (h : k.Backed live) (ho : live.lookup ref = some e) :
    (k.lookup ref).table.resFound = true ∧ Answers (k.lookup ref).table e := by
  have ht := (h.lookup ref).2
  rw [ho] at ht
  rw [ht]
  exact ⟨rfl, ⟨rfl, rfl, rfl, rfl⟩⟩

/-- A message about a reference that is not live changes no more than the answer registers. -/
theorem modify_none (h : k.Backed live) (ho : live.lookup d.orderRef = none) :
    k.modify d = k.lookup d.orderRef := by
  have ht := (h.lookup d.orderRef).2
  rw [ho] at ht
  have hf : (k.lookup d.orderRef).table.resFound = false := by rw [ht]
  unfold BookCore.modify
  simp only [hf, Bool.false_eq_true, if_false]

/-- A message about a live order takes its amount from it. -/
theorem modify_some (h : k.Backed live) (ho : live.lookup d.orderRef = some e) :
    let k₂ := ((k.lookup d.orderRef).print d (modAmt d e.shares)).reduce d.orderRef
      (modAmt d e.shares)
    k.modify d = if d.mtype = tReplace then k₂.readd d e.isBid e.locate else k₂ := by
  obtain ⟨hf, ha⟩ := answers_lookup h ho
  unfold BookCore.modify
  simp only [hf, if_true, ha.shares, ha.isBid, ha.locate]

/-- The removal of an order keeps the totals. -/
theorem Backed.removed (h : k.Backed live) (ho : live.lookup d.orderRef = some e) :
    let k₂ := ((k.lookup d.orderRef).print d (modAmt d e.shares)).reduce d.orderRef
      (modAmt d e.shares)
    k₂.Backed (live.reduce d.orderRef e (modAmt d e.shares)) ∧ k₂.table.resFound = true
      ∧ k₂.bandBase = k.bandBase ∧ k₂.bandValid = k.bandValid := by
  obtain ⟨-, ha⟩ := answers_lookup h ho
  obtain ⟨hprint, hptable⟩ := (h.lookup d.orderRef).1.print d (modAmt d e.shares)
  obtain ⟨hred, hfound, -⟩ := hprint.reduce ho (hptable ▸ ha) (modAmt_le d e.shares)
  have hbase (k : BookCore c) (ref : UInt64) (amt : UInt32) :
      (k.reduce ref amt).bandBase = k.bandBase ∧ (k.reduce ref amt).bandValid = k.bandValid :=
    ⟨bandBase_setSide .., bandValid_setSide ..⟩
  have hprinted : ((k.lookup d.orderRef).print d (modAmt d e.shares)).bandBase = k.bandBase
      ∧ ((k.lookup d.orderRef).print d (modAmt d e.shares)).bandValid = k.bandValid := by
    unfold BookCore.print
    split
    · exact ⟨rfl, rfl⟩
    · split <;> exact ⟨rfl, rfl⟩
  exact ⟨hred, hfound, (hbase ..).1.trans hprinted.1, (hbase ..).2.trans hprinted.2⟩

theorem find_congr {t t' : TableCore c} (h : t'.slots = t.slots) (ref : UInt64) :
    t'.find ref = t.find ref := by
  unfold TableCore.find
  rw [h]

theorem seek_congr {t t' : TableCore c} (h : t'.slots = t.slots) (ref : UInt64) :
    t'.seek ref = t.seek ref := by
  unfold TableCore.seek
  rw [h]

theorem without_congr {t t' : TableCore c} (h : t'.slots = t.slots) (ref : UInt64) :
    (without t' ref).slots = (without t ref).slots := by
  unfold without
  rw [find_congr h]
  cases t.find ref with
  | none => exact h
  | some i => exact congrArg (Function.update · i _) h

/-- The table after the removal of a Replace. -/
theorem slots_removed (h : k.Backed live) (ho : live.lookup d.orderRef = some e)
    (hrep : d.mtype = tReplace) :
    (((k.lookup d.orderRef).print d (modAmt d e.shares)).reduce d.orderRef
      (modAmt d e.shares)).table.slots = (without k.table d.orderRef).slots := by
  obtain ⟨-, ha⟩ := answers_lookup h ho
  have hl := h.lookup d.orderRef
  obtain ⟨hprint, hptable⟩ := hl.1.print d (modAmt d e.shares)
  have hamt : modAmt d e.shares = e.shares := if_pos (Or.inr hrep)
  have hslots : (k.lookup d.orderRef).table.slots = k.table.slots := by
    rw [hl.2]
    split <;> rfl
  rw [hamt] at hprint hptable ⊢
  rw [slots_reduce_all hprint.stores ho (hptable ▸ ha), hptable]
  exact without_congr hslots _

/-- The INSERT of a Replace does not find its window full. -/
theorem not_blocked_removed (h : k.Backed live) (ho : live.lookup d.orderRef = some e)
    (hrep : d.mtype = tReplace) (hwin : inWindow c (d.price - k.bandBase) = true)
    (hfree : ¬k.StaleInsert d) :
    ¬(((k.lookup d.orderRef).print d (modAmt d e.shares)).reduce d.orderRef
      (modAmt d e.shares)).Blocked d.newOrderRef := by
  intro hb
  obtain ⟨i, hf, -⟩ := h.stores.find_of_lookup ho
  refine hfree (Or.inr ⟨hrep, by rw [hf]; rfl, hwin, ?_⟩)
  rw [← seek_congr (slots_removed h ho hrep)]
  exact hb.1

/-- A modify message keeps the totals. -/
theorem Backed.modify (h : k.Backed live) (hfree : ¬k.StaleInsert d) :
    ∃ live', (k.modify d).Backed live' := by
  cases ho : live.lookup d.orderRef with
  | none =>
    rw [modify_none h ho]
    exact ⟨live, (h.lookup d.orderRef).1⟩
  | some e =>
    rw [modify_some h ho]
    obtain ⟨hred, hfound, hbase, hvalid⟩ := h.removed ho
    split
    · rename_i hrep
      unfold BookCore.readd
      rw [hbase]
      split
      · rename_i hwin
        -- the book is not empty, so its band is set
        have hbased : k.bandValid = true ∨ c.bandAutoInit = false := by
          rcases h.based with hv | hv | hv
          · exact Or.inl hv
          · exact Or.inr hv
          · rw [hv] at ho
            cases ho
        rcases hred.arrive (q := replaceCmd d e.isBid e.locate) rfl rfl (by rw [hbase]; exact hwin)
          (by rw [hvalid]; exact hbased) (not_blocked_removed h ho hrep hwin hfree)
          with ⟨-, -, -, hb⟩ | ⟨-, -, hb⟩
        · exact ⟨_, hb⟩
        · exact ⟨_, hb⟩
      · exact ⟨_, hred.drop⟩
    · exact ⟨_, hred⟩

/-- **One message.** Unless it makes an INSERT run out of probes while `res_found` is set, it keeps
the levels and the counters totals over the table. -/
theorem Backed.apply (h : k.Backed live) (hfree : ¬k.StaleInsert d) :
    ∃ live', (k.apply d).Backed live' := by
  unfold BookCore.apply
  split
  · rename_i hd
    exact h.add hd hfree
  · split
    · exact h.modify hfree
    · split
      · exact ⟨live, h.congr rfl (fun _ => rfl) rfl rfl⟩
      · exact ⟨live, h⟩

/-- What `res_found` says of an INSERT: the order was not live, and now it is. -/
theorem Backed.arrive_iff (h : k.Backed live) (hop : q.op = .insert) (hu : q.unique = true)
    (hwin : inWindow c (q.price - k.bandBase) = true)
    (hbased : k.bandValid = true ∨ c.bandAutoInit = false) (hfree : ¬k.Blocked q.ref) :
    ∃ live', (k.arrive q).Backed live'
      ∧ ((k.arrive q).table.resFound = true
        ↔ live.lookup q.ref = none ∧ live'.lookup q.ref ≠ none)
      ∧ ((k.arrive q).side q.isBid).cnt
        = (k.side q.isBid).cnt + if (k.arrive q).table.resFound then 1 else 0 := by
  rcases h.arrive hop hu hwin hbased hfree with ⟨hl, hf, harr, hb⟩ | ⟨hf, harr, hb⟩
  · refine ⟨_, hb, ⟨fun _ => ⟨hl, ?_⟩, fun _ => hf⟩, ?_⟩
    · rw [Finmap.lookup_insert]
      exact Option.some_ne_none _
    · rw [hf, harr, side_setSide, if_pos rfl, if_pos rfl]
      rfl
  · refine ⟨live, hb, ⟨fun ht => ?_, fun ⟨hn, hs⟩ => (hs hn).elim⟩, ?_⟩
    · rw [hf] at ht
      cases ht
    · rw [hf, harr, if_neg Bool.false_ne_true, UInt32.add_zero]
      rfl

end BookCore

end ItchOrderbook.Rtl
