import Mathlib.Algebra.Order.BigOperators.Group.Finset
import ItchOrderbook.Rtl.EngineRun
import ItchOrderbook.Rtl.LevelTotals

/-!
# The best level of a side

`IsTop`: of the levels where an order rests, a side's best is the one nearest to the top of the
book. An order that arrives keeps this. When the best level shows no shares any more, the tracker
scans for the next level that shows some; it finds the level of the best order unless that order is
`Obscured`: it rests where neither its own level nor a better one shows shares.
-/

namespace ItchOrderbook.Rtl

open Finmap (totalAt)
open BookState (scanLeft scanLeft_lt scanLeft_inward)

variable {c : Build}

/-! ## The order of the levels -/

section Order

variable {isBid : Bool} {a b : BitVec c.levelAw}

theorem scanLeft_inj (h : scanLeft isBid a = scanLeft isBid b) : a = b := by
  have ha : a.toNat < c.priceLevels := a.isLt
  have hb : b.toNat < c.priceLevels := b.isLt
  apply BitVec.eq_of_toNat_eq
  unfold scanLeft at h
  cases isBid with
  | true => exact h
  | false =>
    simp only [Bool.false_eq_true, if_false] at h
    omega

/-- A scan ends at the boundary. -/
theorem scanLeft_boundary : scanLeft isBid (BestTrackerState.boundary c isBid) = 0 := by
  unfold scanLeft BestTrackerState.boundary
  cases isBid with
  | true => rfl
  | false =>
    have hlt : c.priceLevels - 1 < 2 ^ c.levelAw := Nat.sub_lt (Nat.two_pow_pos _) one_pos
    simp only [Bool.false_eq_true, if_false, BitVec.toNat_ofNat, Nat.mod_eq_of_lt hlt,
      Nat.sub_self]

/-- Better is further from where a scan ends. -/
theorem better_iff : BestTrackerState.better isBid a b = true ↔
    scanLeft isBid b < scanLeft isBid a := by
  have ha : a.toNat < c.priceLevels := a.isLt
  have hb : b.toNat < c.priceLevels := b.isLt
  unfold BestTrackerState.better scanLeft
  cases isBid with
  | true => simp only [if_true, decide_eq_true_eq, gt_iff_lt, BitVec.lt_def]
  | false =>
    simp only [Bool.false_eq_true, if_false, decide_eq_true_eq, BitVec.lt_def]
    omega

end Order

/-! ## The top of a set of levels -/

/-- Of the levels with `P`, `best` is the nearest to the top. -/
def IsTop (isBid : Bool) (P : BitVec c.levelAw → Prop) : Option (BitVec c.levelAw) → Prop
  | none => ∀ a, ¬P a
  | some b => P b ∧ ∀ a, P a → scanLeft isBid a ≤ scanLeft isBid b

section Top

variable {isBid : Bool} {P Q : BitVec c.levelAw → Prop} {best : Option (BitVec c.levelAw)}

theorem IsTop.congr (h : IsTop isBid P best) (hpq : ∀ a, P a ↔ Q a) : IsTop isBid Q best := by
  have heq : P = Q := funext fun a => propext (hpq a)
  rwa [← heq]

/-- One more level. -/
theorem IsTop.raise {d : SideCore c} (h : IsTop isBid P d.best) (a : BitVec c.levelAw) :
    IsTop isBid (fun b => b = a ∨ P b) (d.raise isBid a) := by
  unfold SideCore.raise
  cases hd : d.best with
  | none =>
    rw [hd] at h
    refine ⟨Or.inl rfl, fun b hb => ?_⟩
    rcases hb with rfl | hb
    · exact le_rfl
    · exact absurd hb (h b)
  | some t =>
    rw [hd] at h
    show IsTop isBid _ (if BestTrackerState.better isBid a t then some a else some t)
    by_cases hbet : BestTrackerState.better isBid a t = true
    · rw [if_pos hbet]
      refine ⟨Or.inl rfl, fun b hb => ?_⟩
      rcases hb with rfl | hb
      · exact le_rfl
      · exact (h.2 b hb).trans (better_iff.mp hbet).le
    · rw [if_neg hbet]
      refine ⟨Or.inr h.1, fun b hb => ?_⟩
      rcases hb with rfl | hb
      · exact not_lt.mp fun hlt => hbet (better_iff.mpr hlt)
      · exact h.2 b hb

/-- Some levels drop out, the best is not among them. -/
theorem IsTop.keep (h : IsTop isBid P best) (hsub : ∀ b, Q b → P b)
    (hbest : ∀ b, best = some b → Q b) : IsTop isBid Q best := by
  cases best with
  | none => exact fun b hb => h b (hsub b hb)
  | some t => exact ⟨hbest t rfl, fun b hb => h.2 b (hsub b hb)⟩

/-- **What a scan finds**: of the levels from `a` on, the first that shows shares. Induction on the
fuel. -/
theorem scan_isTop (mem : BitVec c.levelAw → UInt32) {fuel : ℕ} {a : BitVec c.levelAw}
    (hfuel : scanLeft isBid a < fuel) :
    IsTop isBid (fun b => mem b ≠ 0 ∧ scanLeft isBid b ≤ scanLeft isBid a)
      (scan isBid mem fuel a) := by
  induction fuel generalizing a with
  | zero => exact absurd hfuel (Nat.not_lt_zero _)
  | succ fuel ih =>
    unfold scan
    by_cases hm : mem a ≠ 0
    · rw [if_pos hm]
      exact ⟨⟨hm, le_rfl⟩, fun b hb => hb.2⟩
    rw [if_neg hm]
    by_cases hend : a = BestTrackerState.boundary c isBid
    · rw [if_pos hend]
      rintro b ⟨hb, hle⟩
      -- no level is behind the boundary
      have hzero : scanLeft isBid a = 0 := by rw [hend, scanLeft_boundary]
      have hab : b = a := scanLeft_inj (show scanLeft isBid b = scanLeft isBid a by omega)
      exact hm (hab ▸ hb)
    · rw [if_neg hend]
      have hin := scanLeft_inward hend
      refine (ih (by omega)).congr fun b => and_congr_right fun hb => ⟨fun hle => by omega, ?_⟩
      intro hle
      -- the level that shows shares is not `a`
      have hne : scanLeft isBid b ≠ scanLeft isBid a := fun he => hm (scanLeft_inj he ▸ hb)
      omega

/-- The best level once the level at `a`, the best so far, shows no shares. -/
theorem IsTop.vacate {mem : BitVec c.levelAw → UInt32} {a : BitVec c.levelAw} {cnt : UInt32}
    (h : IsTop isBid P (some a)) (hsub : ∀ b, Q b → P b) (hzero : mem a = 0)
    (hshown : ∀ b, mem b ≠ 0 → Q b) (hcnt : cnt = 0 ↔ ∀ b, ¬Q b)
    (hclear : ∀ b, Q b → ∃ t, scanLeft isBid b ≤ scanLeft isBid t ∧ mem t ≠ 0) :
    IsTop isBid Q (if cnt = 0 then none
      else scan isBid mem c.priceLevels (BestTrackerState.inward isBid a)) := by
  by_cases h0 : cnt = 0
  · rw [if_pos h0]
    exact hcnt.mp h0
  rw [if_neg h0]
  -- every order is behind the shares that the scan comes to
  have hnext : ∀ b, Q b → ∃ t, scanLeft isBid b ≤ scanLeft isBid t ∧ mem t ≠ 0 ∧
      scanLeft isBid t ≤ scanLeft isBid (BestTrackerState.inward isBid a) := by
    intro b hb
    obtain ⟨t, hle, ht⟩ := hclear b hb
    have hta : scanLeft isBid t ≤ scanLeft isBid a := h.2 t (hsub t (hshown t ht))
    have hne : scanLeft isBid t ≠ scanLeft isBid a := fun he =>
      ht (by rw [scanLeft_inj he, hzero])
    have hbound : a ≠ BestTrackerState.boundary c isBid := by
      rintro rfl
      rw [scanLeft_boundary] at hta hne
      omega
    have hin := scanLeft_inward hbound
    exact ⟨t, hle, ht, by omega⟩
  have hscan : IsTop isBid (fun b => mem b ≠ 0 ∧
      scanLeft isBid b ≤ scanLeft isBid (BestTrackerState.inward isBid a))
      (scan isBid mem c.priceLevels (BestTrackerState.inward isBid a)) :=
    scan_isTop mem (scanLeft_lt isBid _)
  cases hs : scan isBid mem c.priceLevels (BestTrackerState.inward isBid a) with
  | none =>
    rw [hs] at hscan
    intro b hb
    obtain ⟨t, -, ht, hle⟩ := hnext b hb
    exact hscan t ⟨ht, hle⟩
  | some t =>
    rw [hs] at hscan
    refine ⟨hshown t hscan.1.1, fun b hb => ?_⟩
    obtain ⟨t', hbt, ht', hle⟩ := hnext b hb
    exact hbt.trans (hscan.2 t' ⟨ht', hle⟩)

end Top

/-! ## The levels of the orders -/

/-- An order rests at a level. -/
def Occupied (c : Build) (base : UInt32) (live : LiveEntries) (isBid : Bool)
    (a : BitVec c.levelAw) : Prop :=
  ∃ ref e, live.lookup ref = some e ∧ e.place c base = (isBid, a)

section Occupied

variable {base : UInt32} {live : LiveEntries} {isBid : Bool} {a : BitVec c.levelAw} {ref : UInt64}
  {e : OrderEntry} {d : SideCore c}

theorem occupied_insert (hnew : live.lookup ref = none) :
    Occupied c base (live.insert ref e) isBid a ↔
      (isBid, a) = e.place c base ∨ Occupied c base live isBid a := by
  constructor
  · rintro ⟨r, v, hv, hp⟩
    by_cases hr : r = ref
    · rw [hr, Finmap.lookup_insert, Option.some_inj] at hv
      exact Or.inl (hv ▸ hp.symm)
    · rw [Finmap.lookup_insert_of_ne _ hr] at hv
      exact Or.inr ⟨r, v, hv, hp⟩
  · rintro (hp | ⟨r, v, hv, hp⟩)
    · exact ⟨ref, e, Finmap.lookup_insert _, hp.symm⟩
    · refine ⟨r, v, ?_, hp⟩
      rw [Finmap.lookup_insert_of_ne _ fun hr => ?_]
      · exact hv
      · rw [hr, hnew] at hv
        cases hv

/-- An order that loses shares stays where it was, if it stays. -/
theorem occupied_reduce (ho : live.lookup ref = some e) {amt : UInt32}
    (h : Occupied c base (live.reduce ref e amt) isBid a) : Occupied c base live isBid a := by
  obtain ⟨r, v, hv, hp⟩ := h
  rcases LiveEntries.lookup_reduce hv with ⟨-, -, rfl⟩ | ⟨-, hl⟩
  · exact ⟨ref, e, ho, hp⟩
  · exact ⟨r, v, hl, hp⟩

/-- Only the level of the order can be left. -/
theorem occupied_of_reduce (h : Occupied c base live isBid a) (ho : live.lookup ref = some e)
    {amt : UInt32} (hne : (isBid, a) ≠ e.place c base) :
    Occupied c base (live.reduce ref e amt) isBid a := by
  obtain ⟨r, v, hv, hp⟩ := h
  have hr : r ≠ ref := fun hr => by
    rw [hr, ho, Option.some_inj] at hv
    exact hne (hv ▸ hp.symm)
  refine ⟨r, v, ?_, hp⟩
  unfold LiveEntries.reduce
  split
  · rwa [Finmap.lookup_erase_ne hr]
  · rwa [Finmap.lookup_insert_of_ne _ hr]

/-- A table holds no more orders than it has slots. -/
theorem size_lt {t : TableCore c} (h : t.Stores live) : live.size < 2 ^ 32 := by
  have hterm (s : TombstoneProbing.Slot UInt64 OrderEntry) : s.term (fun _ _ => 1) ≤ 1 := by
    cases s with
    | live => exact le_rfl
    | empty => exact Nat.zero_le _
    | tomb => exact Nat.zero_le _
  have hcard : Fintype.card (BitVec c.hashW) < 2 ^ 32 := by
    rw [Fintype.card_congr BitVec.equivFin.toEquiv, Fintype.card_fin]
    cases c <;> decide
  calc live.size = TombstoneProbing.slotTotal (fun _ _ => 1) t.slots := by
        rw [Finmap.size_eq_total, h.represents.total_eq]
    _ ≤ ∑ _i : BitVec c.hashW, 1 := Finset.sum_le_sum fun i _ => hterm (t.slots i)
    _ < 2 ^ 32 := by rwa [← Finset.card_eq_sum_ones, Finset.card_univ]

/-- A number of orders fits a register. -/
theorem ofNat_total_eq_zero {p : OrderEntry → Prop} [DecidablePred p] (hsize : live.size < 2 ^ 32) :
    UInt32.ofNat (live.total fun _ e => if p e then 1 else 0) = 0 ↔
      ∀ ref e, live.lookup ref = some e → ¬p e := by
  have hle : (live.total fun _ e => if p e then 1 else 0) ≤ live.size := by
    rw [Finmap.size_eq_total]
    refine Finmap.total_le_total fun _ e _ => ?_
    split
    · exact le_rfl
    · exact Nat.zero_le _
  rw [← UInt32.toNat_inj, UInt32.toNat_ofNat_of_lt' (hle.trans_lt hsize), UInt32.toNat_zero,
    Finmap.total_eq_zero_iff]
  refine forall₂_congr fun ref e => imp_congr_right fun _ => ?_
  by_cases hp : p e
  · simp [hp]
  · simp [hp]

/-- A level counts orders exactly when one rests there. -/
theorem count_eq_zero_iff (h : d.Totals isBid base live) (hsize : live.size < 2 ^ 32) :
    d.countMem a = 0 ↔ ¬Occupied c base live isBid a := by
  rw [h.count]
  refine (ofNat_total_eq_zero hsize).trans ⟨?_, fun hno ref e he hp => hno ⟨ref, e, he, hp⟩⟩
  rintro hno ⟨ref, e, he, hp⟩
  exact hno ref e he hp

/-- A side counts no orders exactly when none rests at any of its levels. -/
theorem cnt_eq_zero_iff (h : d.Totals isBid base live) (hsize : live.size < 2 ^ 32) :
    d.cnt = 0 ↔ ∀ a, ¬Occupied c base live isBid a := by
  rw [h.cnt]
  refine (ofNat_total_eq_zero hsize).trans ⟨?_, fun hno ref e he hp => ?_⟩
  · rintro hno a ⟨ref, e, he, hp⟩
    exact hno ref e he (congrArg Prod.fst hp)
  · exact hno (levelAddr c (e.price - base)) ⟨ref, e, he, by rw [← hp]; rfl⟩

/-- A level that shows shares has an order. -/
theorem occupied_of_shares (h : d.Totals isBid base live) (ha : d.sharesMem a ≠ 0) :
    Occupied c base live isBid a := by
  by_contra hno
  refine ha ?_
  have hzero : totalAt (OrderEntry.place c base) OrderEntry.weight live (isBid, a) = 0 := by
    refine Finmap.total_eq_zero_iff.mpr fun ref e he => ?_
    exact if_neg fun hp => hno ⟨ref, e, he, hp⟩
  rw [h.shares, hzero]
  rfl

end Occupied

/-! ## The book -/

/-- An order rests where neither its own level nor a better one shows shares. -/
def SideCore.Obscured (d : SideCore c) (isBid : Bool) : Prop :=
  ∃ a, d.countMem a ≠ 0 ∧ ∀ b, scanLeft isBid a ≤ scanLeft isBid b → d.sharesMem b = 0

namespace BookCore

/-- The best of each side is the best level where an order rests. -/
def Topped (k : BookCore c) (live : LiveEntries) : Prop :=
  ∀ isBid, IsTop isBid (Occupied c k.bandBase live isBid) (k.side isBid).best

variable {k : BookCore c} {live : LiveEntries} {ref : UInt64} {e : OrderEntry} {q : TblCmd}
  {d : Decoded}

theorem topped_powerUp (base : Option UInt32) : (powerUp c base).Topped ∅ := by
  intro isBid
  cases isBid with
  | true => exact fun a ⟨ref, e, he, _⟩ => (by cases he)
  | false => exact fun a ⟨ref, e, he, _⟩ => (by cases he)

theorem Topped.congr (h : k.Topped live) {k' : BookCore c}
    (hs : ∀ isBid, k'.side isBid = k.side isBid) (hb : k'.bandBase = k.bandBase) :
    k'.Topped live := by
  intro isBid
  rw [hs, hb]
  exact h isBid

/-- An order that arrives and is stored. -/
theorem Topped.arrive (h : k.Topped live) (hnew : live.lookup q.ref = none)
    (harr : k.arrive q = { k with table := k.table.exec q }.setSide q.isBid
      ((k.side q.isBid).add q.isBid (k.addr q.price) q.shares)) :
    (k.arrive q).Topped (live.insert q.ref q.insEntry) := by
  intro isBid
  rw [harr, side_setSide, bandBase_setSide]
  split
  · rename_i hb
    subst hb
    refine ((h q.isBid).raise (k.addr q.price)).congr fun a => ?_
    rw [occupied_insert hnew]
    refine or_congr_left ⟨fun ha => ?_, fun ha => (Prod.mk.inj ha).2⟩
    rw [ha]
    rfl
  · rename_i hb
    refine (h isBid).congr fun a => ?_
    rw [occupied_insert hnew]
    exact (or_iff_right fun hp => hb (Prod.mk.inj hp).1).symm

/-- A resting order that loses shares, and leaves none obscured when the best level empties. -/
theorem Topped.reduce (h : k.Topped live) (hk : k.Backed live) (ho : live.lookup ref = some e)
    (ha : Answers k.table e) {amt : UInt32} (hle : amt ≤ e.shares)
    (hclear : let side := (k.side e.isBid).take (k.addr e.price) amt (e.shares - amt == 0)
      side.best = some (k.addr e.price) → side.sharesMem (k.addr e.price) = 0 →
        ¬side.Obscured e.isBid) :
    (k.reduce ref amt).Topped (live.reduce ref e amt) := by
  have hplace : e.place c k.bandBase = (e.isBid, k.addr e.price) := rfl
  intro isBid
  have hbase : (k.reduce ref amt).bandBase = k.bandBase := bandBase_setSide ..
  have hside : (k.reduce ref amt).side isBid = if isBid = e.isBid then
      ((k.side e.isBid).take (k.addr e.price) amt (e.shares - amt == 0)).settle e.isBid
        (k.addr e.price) else k.side isBid := by
    unfold BookCore.reduce
    rw [ha.price, ha.shares, ha.isBid, side_table, side_setSide]
  rw [hbase, hside]
  split
  · rename_i hb
    subst hb
    have hlive := (hk.reduce ho ha hle).1
    have htotals : ((k.side e.isBid).take (k.addr e.price) amt (e.shares - amt == 0)).Totals e.isBid
        k.bandBase (live.reduce ref e amt) := (hk.totals e.isBid).take ho rfl hle
    generalize hd : (k.side e.isBid).take (k.addr e.price) amt (e.shares - amt == 0) = d
      at htotals hclear ⊢
    have hbest : d.best = (k.side e.isBid).best := by rw [← hd]; rfl
    have htop := h e.isBid
    rw [← hbest] at htop
    have hsize := size_lt hlive.stores
    -- the best stays where it is, unless its level shows no shares
    have hstay (hq : d.best = some (k.addr e.price) → d.sharesMem (k.addr e.price) ≠ 0) :
        IsTop e.isBid (Occupied c k.bandBase (live.reduce ref e amt) e.isBid) d.best := by
      refine htop.keep (fun b hb => occupied_reduce ho hb) fun b hb => ?_
      rw [hb] at htop
      by_cases hba : b = k.addr e.price
      · subst hba
        exact occupied_of_shares htotals (hq hb)
      · refine occupied_of_reduce htop.1 ho fun hp => hba ?_
        rw [hplace] at hp
        exact (Prod.mk.inj hp).2
    unfold SideCore.settle SideCore.vacate
    by_cases hzero : d.sharesMem (k.addr e.price) = 0
    · rw [if_pos hzero]
      by_cases hat : d.best = some (k.addr e.price)
      · rw [if_pos hat]
        rw [hat] at htop
        refine htop.vacate (fun b hb => occupied_reduce ho hb) hzero
          (fun b hb => occupied_of_shares htotals hb) (cnt_eq_zero_iff htotals hsize) ?_
        intro b hb
        by_contra hno
        refine hclear hat hzero ⟨b, fun hc => (count_eq_zero_iff htotals hsize).mp hc hb, ?_⟩
        intro t hle
        by_contra ht
        exact hno ⟨t, hle, ht⟩
      · rw [if_neg hat]
        exact hstay fun hno => absurd hno hat
    · rw [if_neg hzero]
      exact hstay fun _ => hzero
  · rename_i hb
    refine (h isBid).congr fun a => ⟨fun hocc => occupied_of_reduce hocc ho ?_,
      occupied_reduce ho⟩
    exact fun hp => hb (Prod.mk.inj hp).1

/-! ## A message -/

/-- The messages about a resting order. -/
def Modifies (d : Decoded) : Prop :=
  d.mtype = tExec ∨ d.mtype = tExecPr ∨ d.mtype = tCancel ∨ d.mtype = tDelete ∨ d.mtype = tReplace

instance (d : Decoded) : Decidable (Modifies d) := inferInstanceAs (Decidable (_ ∨ _))

theorem not_isAdd_of_modifies (h : Modifies d) : ¬IsAdd d := by
  unfold IsAdd
  rcases h with h | h | h | h | h <;> rw [h] <;> decide

/-- The message takes the last shares of the best level, and leaves an order obscured. -/
def Hides (k : BookCore c) (d : Decoded) : Prop :=
  let t := (k.lookup d.orderRef).table
  let amt := modAmt d t.resShares
  let side := (k.side t.resIsBid).take (k.addr t.resPrice) amt (t.resShares - amt == 0)
  Modifies d ∧ t.resFound = true ∧ side.best = some (k.addr t.resPrice) ∧
    side.sharesMem (k.addr t.resPrice) = 0 ∧ side.Obscured t.resIsBid

/-- The live orders after a message: an INSERT has stored its order when `res_found` says so. -/
def liveAfter (k : BookCore c) (live : LiveEntries) (d : Decoded) : LiveEntries :=
  if IsAdd d then
    if inWindow c (d.price - k.baseEff d.price) ∧ (k.apply d).table.resFound then
      live.insert d.orderRef (addCmd d).insEntry
    else live
  else if Modifies d then
    match live.lookup d.orderRef with
    | none => live
    | some e =>
      let left := live.reduce d.orderRef e (modAmt d e.shares)
      if d.mtype = tReplace ∧ inWindow c (d.price - k.bandBase) ∧ (k.apply d).table.resFound then
        left.insert d.newOrderRef (replaceCmd d e.isBid e.locate).insEntry
      else left
  else live

/-- The levels are totals over the live orders, and the best levels are the best of theirs. -/
structure Sound (k : BookCore c) (live : LiveEntries) : Prop where
  backed : k.Backed live
  topped : k.Topped live

theorem sound_powerUp (base : Option UInt32) : (powerUp c base).Sound ∅ :=
  ⟨backed_powerUp base, topped_powerUp base⟩

theorem Sound.congr (h : k.Sound live) {k' : BookCore c} (ht : k'.table.slots = k.table.slots)
    (hs : ∀ isBid, k'.side isBid = k.side isBid) (hb : k'.bandBase = k.bandBase)
    (hv : k'.bandValid = k.bandValid) : k'.Sound live :=
  ⟨h.backed.congr ht hs hb hv, h.topped.congr hs hb⟩

/-- An order arrives. -/
theorem Sound.arrive (h : k.Sound live) (hop : q.op = .insert) (hu : q.unique = true)
    (hwin : inWindow c (q.price - k.bandBase) = true)
    (hbased : k.bandValid = true ∨ c.bandAutoInit = false) (hfree : ¬k.Blocked q.ref) :
    (k.arrive q).Sound (if (k.arrive q).table.resFound then live.insert q.ref q.insEntry
      else live) := by
  rcases h.backed.arrive hop hu hwin hbased hfree with ⟨hnew, hf, harr, hb⟩ | ⟨hf, harr, hb⟩
  · rw [hf, if_pos rfl]
    exact ⟨hb, h.topped.arrive hnew harr⟩
  · rw [hf, if_neg Bool.false_ne_true]
    refine ⟨hb, h.topped.congr (fun isBid => ?_) ?_⟩
    · rw [harr]
      rfl
    · rw [harr]

/-- The best levels survive the base that an Add brings: it is the one in force, or the book is
empty. -/
theorem Sound.rebase (h : k.Sound live) (price : UInt32) :
    ({ k with bandBase := k.baseEff price, bandValid := true } : BookCore c).Sound live := by
  refine ⟨h.backed.rebase price, ?_⟩
  rcases h.backed.baseEff_eq price with hb | hb
  · rw [hb]
    exact h.topped
  · subst hb
    intro isBid
    -- no order, at either base
    refine (h.topped isBid).congr fun a => ⟨?_, ?_⟩
    · rintro ⟨ref, e, he, -⟩
      cases he
    · rintro ⟨ref, e, he, -⟩
      cases he

/-- An Add. -/
theorem Sound.add (h : k.Sound live) (hd : IsAdd d) (hfree : ¬k.StaleInsert d) :
    (k.apply d).Sound (k.liveAfter live d) := by
  have happ : k.apply d = k.add d := if_pos hd
  unfold liveAfter
  rw [if_pos hd, happ]
  by_cases hwin : inWindow c (d.price - k.baseEff d.price) = true
  · have hadd : k.add d
        = ({ k with bandBase := k.baseEff d.price, bandValid := true } : BookCore c).arrive
          (addCmd d) := if_pos hwin
    have hsound := (h.rebase d.price).arrive (q := addCmd d) rfl rfl hwin (Or.inl rfl)
      fun hb => hfree (Or.inl ⟨hd, hwin, hb⟩)
    rw [hadd]
    simp only [hwin, true_and]
    exact hsound
  · rw [if_neg fun hno => hwin hno.1]
    have hdrop : k.add d = k.drop := if_neg hwin
    rw [hdrop]
    exact h.congr rfl (fun _ => rfl) rfl rfl

/-- The book as the LOOKUP and the trade event leave it. -/
theorem printed (h : k.Backed live) (d : Decoded) (amt : UInt32) :
    let k₁ := (k.lookup d.orderRef).print d amt
    k₁.table = (k.lookup d.orderRef).table ∧ (∀ isBid, k₁.side isBid = k.side isBid)
      ∧ k₁.bandBase = k.bandBase ∧ k₁.bandValid = k.bandValid
      ∧ k₁.table.slots = k.table.slots := by
  have hslots : (k.lookup d.orderRef).table.slots = k.table.slots := by
    rw [(h.lookup d.orderRef).2]
    split <;> rfl
  intro k₁
  have htable : k₁.table = (k.lookup d.orderRef).table :=
    ((h.lookup d.orderRef).1.print d amt).2
  refine ⟨htable, ?_⟩
  rw [htable]
  unfold k₁ BookCore.print
  split
  · exact ⟨fun _ => rfl, rfl, rfl, hslots⟩
  · split
    · exact ⟨fun _ => rfl, rfl, rfl, hslots⟩
    · exact ⟨fun _ => rfl, rfl, rfl, hslots⟩

/-- A message takes its amount from a resting order. -/
theorem Sound.removed (h : k.Sound live) (hd : Modifies d)
    (ho : live.lookup d.orderRef = some e) (hhides : ¬k.Hides d) :
    (((k.lookup d.orderRef).print d (modAmt d e.shares)).reduce d.orderRef
      (modAmt d e.shares)).Sound (live.reduce d.orderRef e (modAmt d e.shares)) := by
  obtain ⟨hf, ha⟩ := answers_lookup h.backed ho
  obtain ⟨htable, hside, hbase, hvalid, hslots⟩ := printed h.backed d (modAmt d e.shares)
  have hprint : ((k.lookup d.orderRef).print d (modAmt d e.shares)).Sound live :=
    h.congr hslots hside hbase hvalid
  refine ⟨(h.backed.removed ho).1,
    hprint.topped.reduce hprint.backed ho (htable ▸ ha) (modAmt_le d e.shares) ?_⟩
  have haddr : ((k.lookup d.orderRef).print d (modAmt d e.shares)).addr e.price = k.addr e.price := by
    unfold BookCore.addr
    rw [hbase]
  rw [haddr, hside]
  intro side hbest hzero hobs
  refine hhides ⟨hd, hf, ?_⟩
  rw [ha.price, ha.shares, ha.isBid]
  exact ⟨hbest, hzero, hobs⟩

/-- A message about a resting order. -/
theorem Sound.modify (h : k.Sound live) (hd : Modifies d) (hfree : ¬k.StaleInsert d)
    (hhides : ¬k.Hides d) : (k.apply d).Sound (k.liveAfter live d) := by
  have happ : k.apply d = k.modify d := (if_neg (not_isAdd_of_modifies hd)).trans (if_pos hd)
  unfold liveAfter
  rw [if_neg (not_isAdd_of_modifies hd), if_pos hd, happ]
  cases ho : live.lookup d.orderRef with
  | none =>
    rw [modify_none h.backed ho]
    have ht := (h.backed.lookup d.orderRef).2
    rw [ho] at ht
    exact h.congr (by rw [ht]) (fun _ => rfl) rfl rfl
  | some e =>
    have hred := h.removed hd ho hhides
    obtain ⟨-, -, hbase, hvalid⟩ := h.backed.removed ho
    rw [modify_some h.backed ho]
    dsimp only
    by_cases hrep : d.mtype = tReplace
    · rw [if_pos hrep]
      unfold BookCore.readd
      rw [hbase]
      by_cases hwin : inWindow c (d.price - k.bandBase) = true
      · -- the new order comes to the book that the old one has left
        have hbased : k.bandValid = true ∨ c.bandAutoInit = false := by
          rcases h.backed.based with hv | hv | hv
          · exact Or.inl hv
          · exact Or.inr hv
          · rw [hv] at ho
            cases ho
        have hsound := hred.arrive (q := replaceCmd d e.isBid e.locate) rfl rfl
          (by rw [hbase]; exact hwin) (by rw [hvalid]; exact hbased)
          (not_blocked_removed h.backed ho hrep hwin hfree)
        rw [if_pos hwin]
        simp only [hrep, hwin, true_and]
        exact hsound
      · rw [if_neg hwin, if_neg fun hno => hwin hno.2.1]
        exact hred.congr rfl (fun _ => rfl) rfl rfl
    · rw [if_neg hrep, if_neg fun hno => hrep hno.1]
      exact hred

/-- **One message.** -/
theorem Sound.apply (h : k.Sound live) (hfree : ¬k.StaleInsert d) (hhides : ¬k.Hides d) :
    (k.apply d).Sound (k.liveAfter live d) := by
  by_cases hadd : IsAdd d
  · exact h.add hadd hfree
  by_cases hmod : Modifies d
  · exact h.modify hmod hfree hhides
  · have hlive : k.liveAfter live d = live := by
      unfold liveAfter
      rw [if_neg hadd, if_neg hmod]
    rw [hlive]
    have happ : k.apply d
        = if d.mtype = tTrade then { k with sums := k.sums.trade d.price d.shares } else k :=
      (if_neg hadd).trans (if_neg hmod)
    rw [happ]
    split
    · exact h.congr rfl (fun _ => rfl) rfl rfl
    · exact h

end BookCore

end ItchOrderbook.Rtl
