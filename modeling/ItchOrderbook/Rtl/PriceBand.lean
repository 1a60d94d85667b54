import ItchOrderbook.Rtl.BestLevel
import ItchOrderbook.Rtl.InsertAnswers

/-!
# The price band

A price is in the band when it is one of the `PRICE_LEVELS` prices from the base on. The engine
compares the difference to the base, which wraps: below the base it is huge, unless the band reaches
past the top of the price space. There a price near 0 takes the place of one that does not exist
(`Wraps`). As long as no message brings such a price, the engine accepts the prices in the band and
no others, the levels are in the order of the prices, and each side's best price is that of its best
order.
-/

namespace ItchOrderbook.Rtl

open BookState (scanLeft)

variable {c : Build}

/-! ## Prices and levels -/

/-- A price in the band, over the integers. -/
def InBand (c : Build) (base price : UInt32) : Prop :=
  base.toNat ≤ price.toNat ∧ price.toNat < base.toNat + c.priceLevels

instance (base price : UInt32) : Decidable (InBand c base price) :=
  inferInstanceAs (Decidable (_ ∧ _))

/-- A price below a band that reaches past the top of the price space: the part of the band beyond
the top wraps around to it. -/
def Wraps (c : Build) (base price : UInt32) : Prop :=
  price.toNat + 2 ^ 32 < base.toNat + c.priceLevels

instance (base price : UInt32) : Decidable (Wraps c base price) :=
  inferInstanceAs (Decidable (_ < _))

section Prices

variable {base p q : UInt32}

theorem toNat_priceLevels : (UInt32.ofNat c.priceLevels).toNat = c.priceLevels := by
  cases c <;> rfl

theorem priceLevels_lt : c.priceLevels < 2 ^ 32 := by
  cases c <;> decide

/-- **The comparator.** It is right about every price that does not wrap into the band. -/
theorem inWindow_iff : inWindow c (p - base) = true ↔ InBand c base p ∨ Wraps c base p := by
  have hp := p.toNat_lt
  have hb := base.toNat_lt
  have hlevels := priceLevels_lt (c := c)
  unfold inWindow InBand Wraps
  rw [decide_eq_true_eq, UInt32.lt_iff_toNat_lt, toNat_priceLevels, UInt32.toNat_sub]
  omega

theorem InBand.not_wraps (h : InBand c base p) : ¬Wraps c base p := by
  obtain ⟨hle, -⟩ := h
  have hlevels := priceLevels_lt (c := c)
  unfold Wraps
  omega

theorem inWindow_iff_inBand (h : ¬Wraps c base p) :
    inWindow c (p - base) = true ↔ InBand c base p := by
  rw [inWindow_iff, or_iff_left h]

theorem toNat_levelAddr (hp : InBand c base p) :
    (levelAddr c (p - base)).toNat = p.toNat - base.toNat := by
  obtain ⟨hle, hlt⟩ := hp
  have hsub : (p - base).toNat = p.toNat - base.toNat :=
    UInt32.toNat_sub_of_le _ _ (UInt32.le_iff_toNat_le.mpr hle)
  unfold levelAddr
  rw [BitVec.toNat_setWidth]
  change (p - base).toNat % c.priceLevels = _
  rw [hsub, Nat.mod_eq_of_lt (by omega)]

/-- The level of an offset. -/
theorem levelAddr_ofNat (a : BitVec c.levelAw) : levelAddr c (UInt32.ofNat a.toNat) = a := by
  have ha : a.toNat < c.priceLevels := a.isLt
  have hnat : (UInt32.ofNat a.toNat).toNat = a.toNat :=
    UInt32.toNat_ofNat_of_lt' (ha.trans priceLevels_lt)
  apply BitVec.eq_of_toNat_eq
  unfold levelAddr
  rw [BitVec.toNat_setWidth]
  change (UInt32.ofNat a.toNat).toNat % c.priceLevels = _
  rw [hnat, Nat.mod_eq_of_lt ha]

/-- In the band the order of the levels is that of the prices. -/
theorem levelAddr_lt_iff (hp : InBand c base p) (hq : InBand c base q) :
    levelAddr c (p - base) < levelAddr c (q - base) ↔ p < q := by
  have hp' := hp.1
  have hq' := hq.1
  rw [BitVec.lt_def, toNat_levelAddr hp, toNat_levelAddr hq, UInt32.lt_iff_toNat_lt]
  omega

/-- The base and the level give the price back. -/
theorem base_add_levelAddr (hp : InBand c base p) :
    base + UInt32.ofNat (levelAddr c (p - base)).toNat = p := by
  have hle : base ≤ p := UInt32.le_iff_toNat_le.mpr hp.1
  rw [toNat_levelAddr hp, ← UInt32.toNat_sub_of_le _ _ hle, UInt32.ofNat_toNat, UInt32.add_comm,
    UInt32.sub_add_cancel]

/-- Nearer to the top of the book is the higher bid, the lower ask. -/
theorem price_of_scanLeft {isBid : Bool} (hp : InBand c base p) (hq : InBand c base q)
    (h : scanLeft isBid (levelAddr c (p - base)) ≤ scanLeft isBid (levelAddr c (q - base))) :
    if isBid then p ≤ q else q ≤ p := by
  have hp' := hp.1
  have hq' := hq.1
  have hp₂ := hp.2
  have hq₂ := hq.2
  unfold scanLeft at h
  rw [toNat_levelAddr hp, toNat_levelAddr hq] at h
  cases isBid with
  | true =>
    simp only [if_true, UInt32.le_iff_toNat_le] at h ⊢
    omega
  | false =>
    simp only [Bool.false_eq_true, if_false, UInt32.le_iff_toNat_le] at h ⊢
    omega

end Prices

/-! ## What the band is for -/

/-- The message brings a price that wraps into the band. -/
def BookCore.WrapsIn (k : BookCore c) (d : Decoded) : Prop :=
  BookCore.IsAdd d ∧ Wraps c (k.baseEff d.price) d.price
    ∨ d.mtype = tReplace ∧ (k.table.find d.orderRef).isSome = true ∧ Wraps c k.bandBase d.price

instance (k : BookCore c) (d : Decoded) : Decidable (k.WrapsIn d) :=
  inferInstanceAs (Decidable (_ ∨ _))

namespace BookUpdateEngineState

/-- An order that rests on a side. -/
def Rests (s : BookUpdateEngineState c) (isBid : Bool) (e : OrderEntry) : Prop :=
  ∃ i, s.table.mem i = e ∧ e.valid = true ∧ e.isBid = isBid

/-- The levels of the orders are in the order of their prices, all of them in the band. -/
def LevelsOrdered (s : BookUpdateEngineState c) : Prop :=
  (∀ isBid e, s.Rests isBid e → InBand c s.bandBase e.price)
    ∧ ∀ p q, InBand c s.bandBase p → InBand c s.bandBase q →
      (levelAddr c (p - s.bandBase) < levelAddr c (q - s.bandBase) ↔ p < q)

/-- Each side's best price is the best price of an order on it. -/
def BestPriced (s : BookUpdateEngineState c) : Prop :=
  ∀ isBid, (s.bestValid isBid = true ↔ ∃ e, s.Rests isBid e)
    ∧ (s.bestValid isBid = true → ∃ e, s.Rests isBid e ∧ e.price = s.bestPrice isBid)
    ∧ ∀ e, s.Rests isBid e →
      if isBid then e.price ≤ s.bestPrice isBid else s.bestPrice isBid ≤ e.price

end BookUpdateEngineState

/-- A message that brings a price outside the band. -/
def BookState.Refuses (s : BookState c) (d : Decoded) : Prop :=
  BookCore.IsAdd d ∧ ¬InBand c (s.engine.baseEff d) d.price
    ∨ d.mtype = tReplace ∧ s.engine.table.HasRef d.orderRef ∧ ¬InBand c s.engine.bandBase d.price

/-- What the band does to a message that was taken in `s` and is done in `s'`. -/
structure Banded (s s' : BookState c) (d : Decoded) : Prop where
  /-- An Add in the band goes to the table, at the base it sees. Otherwise only `band_drops`
  changes. -/
  add : BookCore.IsAdd d →
    s'.core = if InBand c (s.engine.baseEff d) d.price then
        ({ s.core with bandBase := s.engine.baseEff d, bandValid := true } : BookCore c).arrive
          (BookCore.addCmd d)
      else s.core.drop
  /-- The order of a Replace is removed in any case. The new one goes to the table when its price is
  in the band. -/
  replace : d.mtype = tReplace → ∀ i, (s.engine.table.mem i).valid = true →
    (s.engine.table.mem i).oref = d.orderRef →
    let e := s.engine.table.mem i
    let k := (s.core.lookup d.orderRef).reduce d.orderRef e.shares
    s'.core = if InBand c s.engine.bandBase d.price then
        k.arrive (BookCore.replaceCmd d e.isBid e.locate)
      else k.drop
  drops : s.Refuses d → s'.engine.bandDrops = s.engine.bandDrops + 1
  keeps : ¬s.Refuses d → s'.engine.bandDrops = s.engine.bandDrops

namespace BookCore

variable {k : BookCore c} {live : LiveEntries} {e : OrderEntry} {d : Decoded} {q : TblCmd}
  {ref : UInt64} {amt : UInt32}

/-! ## The counter and the base -/

@[simp] theorem bandDrops_setSide {isBid : Bool} {side : SideCore c} :
    (k.setSide isBid side).bandDrops = k.bandDrops := by
  cases isBid <;> rfl

@[simp] theorem bandDrops_arrive : (k.arrive q).bandDrops = k.bandDrops := by
  unfold BookCore.arrive
  dsimp only
  split
  · simp
  · rfl

@[simp] theorem bandBase_arrive : (k.arrive q).bandBase = k.bandBase := by
  unfold BookCore.arrive
  dsimp only
  split
  · simp
  · rfl

@[simp] theorem sums_arrive : (k.arrive q).sums = k.sums := by
  unfold BookCore.arrive
  dsimp only
  split
  · simp
  · rfl

@[simp] theorem bandDrops_reduce : (k.reduce ref amt).bandDrops = k.bandDrops := bandDrops_setSide

@[simp] theorem bandBase_reduce : (k.reduce ref amt).bandBase = k.bandBase :=
  bandBase_setSide ..

@[simp] theorem bandDrops_print : (k.print d amt).bandDrops = k.bandDrops := by
  unfold BookCore.print
  split
  · rfl
  · split <;> rfl

/-! ## One message -/

theorem apply_add (hd : IsAdd d) :
    k.apply d = if inWindow c (d.price - k.baseEff d.price) then
        ({ k with bandBase := k.baseEff d.price, bandValid := true } : BookCore c).arrive (addCmd d)
      else k.drop :=
  if_pos hd

/-- A Replace is no trade. -/
theorem print_replace (hd : d.mtype = tReplace) : k.print d amt = k := by
  unfold BookCore.print
  rw [if_neg (by rw [hd]; decide), if_neg fun hno => ?_]
  rw [hd] at hno
  exact absurd hno.1 (by decide)

/-- A Replace of a live order. -/
theorem Backed.apply_replace (h : k.Backed live) (hd : d.mtype = tReplace)
    (ho : live.lookup d.orderRef = some e) :
    let k₂ := (k.lookup d.orderRef).reduce d.orderRef e.shares
    k.apply d = if inWindow c (d.price - k.bandBase) then k₂.arrive (replaceCmd d e.isBid e.locate)
      else k₂.drop := by
  have hmod : Modifies d := Or.inr (Or.inr (Or.inr (Or.inr hd)))
  have happ : k.apply d = k.modify d := (if_neg (not_isAdd_of_modifies hmod)).trans (if_pos hmod)
  have hamt : modAmt d e.shares = e.shares := if_pos (Or.inr hd)
  have hbase := (h.removed ho).2.2.1
  rw [happ, modify_some h ho, if_pos hd]
  unfold BookCore.readd
  rw [hbase, hamt, print_replace hd]

/-- A message that leaves the band alone. -/
theorem Backed.apply_other (h : k.Backed live) (hadd : ¬IsAdd d)
    (hrep : d.mtype = tReplace → live.lookup d.orderRef = none) :
    (k.apply d).bandDrops = k.bandDrops ∧ (k.apply d).bandBase = k.bandBase := by
  by_cases hmod : Modifies d
  · have happ : k.apply d = k.modify d := (if_neg hadd).trans (if_pos hmod)
    rw [happ]
    cases ho : live.lookup d.orderRef with
    | none =>
      rw [modify_none h ho]
      exact ⟨rfl, rfl⟩
    | some e =>
      have hne : d.mtype ≠ tReplace := fun hr => by
        rw [hrep hr] at ho
        cases ho
      rw [modify_some h ho, if_neg hne]
      refine ⟨?_, (h.removed ho).2.2.1⟩
      simp only [bandDrops_reduce, bandDrops_print]
      rfl
  · have happ : k.apply d
        = if d.mtype = tTrade then { k with sums := k.sums.trade d.price d.shares } else k :=
      (if_neg hadd).trans (if_neg hmod)
    rw [happ]
    split
    · exact ⟨rfl, rfl⟩
    · exact ⟨rfl, rfl⟩

/-- The base stays, once there are orders. -/
theorem Backed.bandBase_apply (h : k.Backed live) (d : Decoded) :
    (k.apply d).bandBase = k.bandBase ∨ live = ∅ := by
  by_cases hadd : IsAdd d
  · rw [apply_add hadd]
    split
    · rw [bandBase_arrive]
      exact h.baseEff_eq d.price
    · exact Or.inl rfl
  by_cases hrep : d.mtype = tReplace
  · cases ho : live.lookup d.orderRef with
    | none => exact Or.inl (h.apply_other hadd fun _ => ho).2
    | some e =>
      refine Or.inl ?_
      rw [h.apply_replace hrep ho]
      split
      · rw [bandBase_arrive, bandBase_reduce]
        rfl
      · show (BookCore.reduce (k.lookup d.orderRef) d.orderRef e.shares).bandBase = _
        rw [bandBase_reduce]
        rfl
  · exact Or.inl (h.apply_other hadd fun hr => absurd hr hrep).2

/-- The orders after a message: those before, and the one it brings. -/
theorem lookup_liveAfter {r : UInt64} {v : OrderEntry}
    (hv : (k.liveAfter live d).lookup r = some v) :
    (∃ r' v', live.lookup r' = some v' ∧ v'.price = v.price)
      ∨ v.price = d.price ∧ (IsAdd d ∧ inWindow c (d.price - k.baseEff d.price) = true
        ∨ d.mtype = tReplace ∧ live.lookup d.orderRef ≠ none
          ∧ inWindow c (d.price - k.bandBase) = true) := by
  have hreduce {e : OrderEntry} (ho : live.lookup d.orderRef = some e) {amt : UInt32}
      (hr : (live.reduce d.orderRef e amt).lookup r = some v) :
      ∃ r' v', live.lookup r' = some v' ∧ v'.price = v.price := by
    rcases LiveEntries.lookup_reduce hr with ⟨-, -, rfl⟩ | ⟨-, hl⟩
    · exact ⟨_, e, ho, rfl⟩
    · exact ⟨r, v, hl, rfl⟩
  unfold liveAfter at hv
  by_cases hadd : IsAdd d
  · rw [if_pos hadd] at hv
    split at hv
    · rename_i hin
      by_cases hr : r = d.orderRef
      · rw [hr, Finmap.lookup_insert, Option.some_inj] at hv
        exact Or.inr ⟨by rw [← hv]; rfl, Or.inl ⟨hadd, hin.1⟩⟩
      · rw [Finmap.lookup_insert_of_ne _ hr] at hv
        exact Or.inl ⟨r, v, hv, rfl⟩
    · exact Or.inl ⟨r, v, hv, rfl⟩
  rw [if_neg hadd] at hv
  split at hv
  · cases ho : live.lookup d.orderRef with
    | none =>
      rw [ho] at hv
      exact Or.inl ⟨r, v, hv, rfl⟩
    | some e =>
      rw [ho] at hv
      dsimp only at hv
      split at hv
      · rename_i hin
        by_cases hr : r = d.newOrderRef
        · rw [hr, Finmap.lookup_insert, Option.some_inj] at hv
          exact Or.inr ⟨by rw [← hv]; rfl,
            Or.inr ⟨hin.1, fun hno => Option.some_ne_none _ hno, hin.2.1⟩⟩
        · rw [Finmap.lookup_insert_of_ne _ hr] at hv
          exact Or.inl (hreduce ho hv)
      · exact Or.inl (hreduce ho hv)
  · exact Or.inl ⟨r, v, hv, rfl⟩

/-- A sound book all of whose orders are in the band. -/
structure Priced (k : BookCore c) (live : LiveEntries) : Prop where
  sound : k.Sound live
  inBand : ∀ ref e, live.lookup ref = some e → InBand c k.bandBase e.price

theorem priced_powerUp (base : Option UInt32) : (powerUp c base).Priced ∅ :=
  ⟨sound_powerUp base, fun _ _ he => by cases he⟩

/-- The band goes wrong, an INSERT runs out of probes unnoticed, or the best order is hidden. -/
def Astray (k : BookCore c) (d : Decoded) : Prop := k.WrapsIn d ∨ k.StaleInsert d ∨ k.Hides d

/-- **One message.** -/
theorem Priced.apply (h : k.Priced live) (hgood : ¬k.Astray d) :
    (k.apply d).Priced (k.liveAfter live d) := by
  have hwrap : ¬k.WrapsIn d := fun hw => hgood (Or.inl hw)
  have hsound := h.sound.apply (fun hs => hgood (Or.inr (Or.inl hs)))
    fun hh => hgood (Or.inr (Or.inr hh))
  refine ⟨hsound, fun r v hv => ?_⟩
  -- the comparator has let the order in, at the base that holds from now on
  rcases inWindow_iff.mp (hsound.backed.inBand r v hv) with hin | hw
  · exact hin
  exfalso
  rcases lookup_liveAfter hv with ⟨r', v', hv', hp⟩ | ⟨hp, ⟨hadd, hwin⟩ | ⟨hrep, ho, -⟩⟩
  · -- an order that was there
    rcases h.sound.backed.bandBase_apply d with hb | hb
    · rw [hb, ← hp] at hw
      exact (h.inBand r' v' hv').not_wraps hw
    · rw [hb] at hv'
      cases hv'
  · -- the order of an Add
    have hbase : (k.apply d).bandBase = k.baseEff d.price := by
      rw [apply_add hadd, if_pos hwin, bandBase_arrive]
    rw [hbase, hp] at hw
    exact hwrap (Or.inl ⟨hadd, hw⟩)
  · -- the new order of a Replace
    rcases h.sound.backed.bandBase_apply d with hb | hb
    · rw [hb, hp] at hw
      obtain ⟨e, he⟩ := Option.ne_none_iff_exists'.mp ho
      obtain ⟨i, hfind, -⟩ := h.sound.backed.stores.find_of_lookup he
      exact hwrap (Or.inr ⟨hrep, by rw [hfind]; rfl, hw⟩)
    · rw [hb] at ho
      exact ho rfl

end BookCore

namespace BookState

variable {s s' : BookState c} {live : LiveEntries} {d : Decoded}

/-! ## The state of the engine -/

/-- The orders on a side are the live ones. -/
theorem rests_iff (h : s.core.table.Stores live) {isBid : Bool} {e : OrderEntry} :
    s.engine.Rests isBid e ↔ live.lookup e.oref = some e ∧ e.isBid = isBid := by
  rw [h.represents.lookup_iff]
  constructor
  · rintro ⟨i, rfl, hv, hb⟩
    exact ⟨⟨i, OrderEntry.slot_eq_live_iff.mpr ⟨hv, rfl, rfl⟩⟩, hb⟩
  · rintro ⟨⟨i, hi⟩, hb⟩
    obtain ⟨hv, -, he⟩ := OrderEntry.slot_eq_live_iff.mp hi
    exact ⟨i, he, by rw [← he]; exact hv, hb⟩

theorem levelsOrdered_of_priced (h : s.core.Priced live) : s.engine.LevelsOrdered := by
  refine ⟨fun isBid e he => ?_, fun p q => levelAddr_lt_iff⟩
  exact h.inBand _ e ((rests_iff h.sound.backed.stores).mp he).1

/-- The best level is the level of the best order, and its price is the price of that level. -/
theorem bestPriced_of_priced (h : s.core.Priced live) : s.engine.BestPriced := by
  have hstores := h.sound.backed.stores
  intro isBid
  have hside : s.core.side isBid = (s.engine.side isBid).core := side_core ..
  have htop := h.sound.topped isBid
  rw [hside] at htop
  change IsTop _ _ (s.engine.side isBid).tracker.best at htop
  -- the level of an order on the side
  have hocc {e : OrderEntry} (he : s.engine.Rests isBid e) :
      InBand c s.engine.bandBase e.price
        ∧ Occupied c s.core.bandBase live isBid (levelAddr c (e.price - s.engine.bandBase)) := by
    obtain ⟨hl, hb⟩ := (rests_iff hstores).mp he
    refine ⟨h.inBand _ e hl, e.oref, e, hl, ?_⟩
    rw [← hb]
    rfl
  unfold BestTrackerState.best at htop
  unfold BookUpdateEngineState.bestPrice BookUpdateEngineState.bestValid
  cases hv : (s.engine.side isBid).tracker.bestValid with
  | false =>
    rw [hv, if_neg Bool.false_ne_true] at htop
    have hno (e : OrderEntry) (he : s.engine.Rests isBid e) : False := htop _ (hocc he).2
    exact ⟨⟨fun hf => (by cases hf), fun ⟨e, he⟩ => (hno e he).elim⟩, fun hf => (by cases hf),
      fun e he => (hno e he).elim⟩
  | true =>
    rw [hv, if_pos rfl] at htop
    obtain ⟨⟨ref, e, he, hp⟩, hbest⟩ := htop
    obtain ⟨i, hi⟩ := (hstores.represents.lookup_iff ref e).mp he
    obtain ⟨hvalid, -, heq⟩ := OrderEntry.slot_eq_live_iff.mp hi
    have hrests : s.engine.Rests isBid e :=
      ⟨i, heq, by rw [← heq]; exact hvalid, congrArg Prod.fst hp⟩
    have haddr : levelAddr c (e.price - s.engine.bandBase) = (s.engine.side isBid).tracker.bestAddr :=
      congrArg Prod.snd hp
    have hin : InBand c s.engine.bandBase e.price := h.inBand ref e he
    have hprice : s.engine.bandBase
        + UInt32.ofNat (s.engine.side isBid).tracker.bestAddr.toNat = e.price := by
      rw [← haddr]
      exact base_add_levelAddr hin
    rw [if_pos rfl, hprice]
    refine ⟨⟨fun _ => ⟨e, hrests⟩, fun _ => rfl⟩, fun _ => ⟨e, hrests, rfl⟩, fun f hf => ?_⟩
    obtain ⟨hinf, hoccf⟩ := hocc hf
    refine price_of_scanLeft hinf hin ?_
    rw [haddr]
    exact hbest _ hoccf

/-! ## One message -/

/-- A message served, that brings no price that wraps. -/
theorem banded_of_apply (h : s.core.Backed live) (h' : s'.core = s.core.apply d)
    (hwrap : ¬s.core.WrapsIn d) : Banded s s' d := by
  have hadd (hd : BookCore.IsAdd d) :
      inWindow c (d.price - s.core.baseEff d.price) = true
        ↔ InBand c (s.engine.baseEff d) d.price :=
    inWindow_iff_inBand fun hw => hwrap (Or.inl ⟨hd, hw⟩)
  have hrep (hd : d.mtype = tReplace) {e : OrderEntry} (ho : live.lookup d.orderRef = some e) :
      inWindow c (d.price - s.core.bandBase) = true ↔ InBand c s.engine.bandBase d.price := by
    refine inWindow_iff_inBand fun hw => hwrap (Or.inr ⟨hd, ?_, hw⟩)
    obtain ⟨i, hfind, -⟩ := h.stores.find_of_lookup ho
    rw [hfind]
    rfl
  have hdrops : s'.engine.bandDrops = (s.core.apply d).bandDrops := congrArg BookCore.bandDrops h'
  refine ⟨fun hd => ?_, fun hd i hv hr => ?_, fun href => ?_, fun href => ?_⟩
  · rw [h', BookCore.apply_add hd]
    exact if_congr (hadd hd) rfl rfl
  · have ho : live.lookup d.orderRef = some (s.engine.table.mem i) :=
      (h.stores.represents.lookup_iff _ _).mpr ⟨i, OrderEntry.slot_eq_live_iff.mpr ⟨hv, hr, rfl⟩⟩
    rw [h', h.apply_replace hd ho]
    exact if_congr (hrep hd ho) rfl rfl
  · rcases href with ⟨hd, hout⟩ | ⟨hd, href, hout⟩
    · rw [hdrops, BookCore.apply_add hd, if_neg fun hwin => hout ((hadd hd).mp hwin)]
      rfl
    · obtain ⟨e, ho⟩ := Option.ne_none_iff_exists'.mp ((hasRef_iff h.stores _).mp href)
      rw [hdrops, h.apply_replace hd ho, if_neg fun hwin => hout ((hrep hd ho).mp hwin)]
      show (BookCore.reduce (s.core.lookup d.orderRef) d.orderRef e.shares).bandDrops + 1 = _
      rw [BookCore.bandDrops_reduce]
      rfl
  · rw [hdrops]
    by_cases hd : BookCore.IsAdd d
    · have hin : InBand c (s.engine.baseEff d) d.price := by
        by_contra hout
        exact href (Or.inl ⟨hd, hout⟩)
      rw [BookCore.apply_add hd, if_pos ((hadd hd).mpr hin), BookCore.bandDrops_arrive]
      rfl
    by_cases hu : d.mtype = tReplace
    · cases ho : live.lookup d.orderRef with
      | none => exact (h.apply_other hd fun _ => ho).1
      | some e =>
        have hin : InBand c s.engine.bandBase d.price := by
          by_contra hout
          refine href (Or.inr ⟨hu, (hasRef_iff h.stores _).mpr ?_, hout⟩)
          rw [ho]
          exact Option.some_ne_none _
        rw [h.apply_replace hu ho, if_pos ((hrep hu ho).mpr hin), BookCore.bandDrops_arrive,
          BookCore.bandDrops_reduce]
        rfl
    · exact (h.apply_other hd fun hr => absurd hr hu).1

/-! ## Runs -/

/-- No message of the run is one that goes astray. -/
def NoneAstray (s : BookState c) : List EngineIn → Prop
  | [] => True
  | i :: is => (∀ d ∈ s.accept i, ¬s.core.Astray d) ∧ (s.step i).NoneAstray is

/-- That is a condition on the messages taken. -/
theorem Serving.noneAstray {k : BookCore c} (h : s.Serving k) {is : List EngineIn}
    (hi : ∀ i ∈ is, Plain i)
    (hgood : GoodRun BookCore.apply (fun k d => ¬k.Astray d) k (s.taken is)) : s.NoneAstray is :=
  Serving.induction (fun _ => trivial) (fun _ _ _ hd ht => ⟨hd, ht⟩) h hi hgood

/-- The engine is at rest, or on its way, with a book all of whose orders are in the band. -/
def ServesPriced (s : BookState c) : Prop := ∃ k live, s.Serving k ∧ k.Priced live

/-- One cycle. -/
theorem ServesPriced.step (h : s.ServesPriced) {i : EngineIn} (hi : Plain i)
    (hf : ∀ d ∈ s.accept i, ¬s.core.Astray d) : (s.step i).ServesPriced := by
  obtain ⟨k, live, hs, hk⟩ := h
  cases ha : s.accept i with
  | none => exact ⟨k, live, hs.step_none hi ha, hk⟩
  | some d =>
    obtain ⟨hrest, hnext⟩ := hs.step_some hi ha
    exact ⟨_, _, hnext, hk.apply (hrest.core ▸ hf d ha)⟩

/-- A run. -/
theorem ServesPriced.run (h : s.ServesPriced) (is : List EngineIn) (hi : ∀ i ∈ is, Plain i)
    (hf : s.NoneAstray is) : (is.foldl BookState.step s).ServesPriced := by
  induction is generalizing s with
  | nil => exact h
  | cons i is ih =>
    exact ih (h.step (hi i List.mem_cons_self) hf.1)
      (fun j hj => hi j (List.mem_cons_of_mem i hj)) hf.2

theorem servesPriced_powerUp (c : Build) (base : Option UInt32) :
    (powerUp c base).ServesPriced :=
  ⟨_, ∅, Or.inl (rest_powerUp c base), BookCore.priced_powerUp base⟩

/-- **Price banding.** In a run from power-up none of whose messages goes astray, with the band
pinned or left to the first Add, the levels of every idle state are in the order of the prices and
each best price is that of the best order; and the next message that brings no price that wraps is
accepted when its price is in the band, and otherwise only counted. -/
theorem run_banded (c : Build) (base : Option UInt32) (is : List EngineIn)
    (hi : ∀ i ∈ is, Plain i) (hf : (powerUp c base).NoneAstray is) :
    let s := is.foldl BookState.step (powerUp c base)
    (s.engine.state = .idle → s.engine.LevelsOrdered ∧ s.engine.BestPriced)
      ∧ ∀ i d, Plain i → s.accept i = some d → ¬s.core.WrapsIn d →
        ∃ n, ∀ js : List EngineIn, js.length = n → (∀ j ∈ js, Plain j) →
          let s' := (i :: js).foldl BookState.step s
          s'.engine.state = .idle ∧ s'.engine.engineDone = true ∧ Banded s s' d := by
  intro s
  obtain ⟨k, live, hserving, hk⟩ := (servesPriced_powerUp c base).run is hi hf
  refine ⟨fun hidle => ?_, fun i d hplain hacc hwrap => ?_⟩
  · rw [← (hserving.rest_of_idle hidle).core] at hk
    exact ⟨levelsOrdered_of_priced hk, bestPriced_of_priced hk⟩
  have hrest := (hserving.step_some hplain hacc).1
  obtain ⟨n, hn⟩ := serves.run_of_leads (serves.serve hrest hplain hacc trivial)
  refine ⟨n, fun js hlen hjs => ?_⟩
  obtain ⟨⟨hend, hdone⟩, -⟩ := hn js hlen hjs
  refine ⟨hend.state, hdone, ?_⟩
  rw [← hrest.core] at hk
  exact banded_of_apply hk.sound.backed (by rw [hrest.core]; exact hend.core) hwrap

/-- Two bids in a band pinned at 1000, one below it, and a Replace of the lower bid. -/
def bandedBids : List Decoded :=
  [{ mtype := tAdd, isBid := true, price := 1100, shares := 5, orderRef := 7 },
    { mtype := tAdd, isBid := true, price := 1200, shares := 5, orderRef := 8 },
    { mtype := tAdd, isBid := true, price := 900, shares := 5, orderRef := 9 },
    { mtype := tReplace, price := 1300, shares := 3, orderRef := 7, newOrderRef := 10 }]

/-- After them, a Replace to a price above the band. -/
theorem run_banded_bids : ∃ is : List EngineIn,
    (powerUp .simulation (some 1000)).taken is = bandedBids
      ∧ let s := is.foldl BookState.step (powerUp .simulation (some 1000))
        let d : Decoded := { mtype := tReplace, price := 70000, shares := 1, orderRef := 10 }
        s.engine.LevelsOrdered ∧ s.engine.BestPriced ∧ ∃ n, ∀ js : List EngineIn, js.length = n →
          (∀ j ∈ js, Plain j) → Banded s ((offer d :: js).foldl BookState.step s) d := by
  obtain ⟨is, hplain, htaken, hrest⟩ := exists_run_taking .simulation (some 1000) bandedBids
  have hadd {k : BookCore .simulation} {d : Decoded} (hw : ¬k.WrapsIn d) (hs : ¬k.StaleInsert d)
      (hd : ¬BookCore.Modifies d) : ¬k.Astray d := by
    rintro (h | h | h)
    · exact hw h
    · exact hs h
    · exact hd h.1
  have hgood : GoodRun BookCore.apply (fun k d => ¬k.Astray d)
      (BookCore.powerUp .simulation (some 1000)) bandedBids := by
    refine ⟨hadd (by decide +kernel) (by decide +kernel) (by decide),
      hadd (by decide +kernel) (by decide +kernel) (by decide),
      hadd (by decide +kernel) (by decide +kernel) (by decide), ?_, trivial⟩
    -- the Replace takes an order that is not at the best level
    rintro (h | h | ⟨-, -, hbest, -⟩)
    · exact absurd h (by decide +kernel)
    · exact absurd h (by decide +kernel)
    · exact absurd hbest (by decide +kernel)
  rw [← htaken] at hgood
  obtain ⟨hordered, hnext⟩ := run_banded .simulation (some 1000) is hplain
    (Serving.noneAstray (Or.inl (rest_powerUp .simulation (some 1000))) hplain hgood)
  refine ⟨is, htaken, (hordered hrest.state).1, (hordered hrest.state).2, ?_⟩
  obtain ⟨n, hn⟩ := hnext
    (offer { mtype := tReplace, price := 70000, shares := 1, orderRef := 10 }) _ ⟨rfl, rfl⟩
    (accept_offer hrest _) (by rw [hrest.core]; decide +kernel)
  exact ⟨n, fun js hlen hjs => (hn js hlen hjs).2.2⟩

end BookState

/-! ## A band past the top of the price space -/

/-- A bid of one share. -/
def edgeAdd (ref : UInt64) (price : UInt32) : Decoded :=
  { mtype := tAdd, isBid := true, price, shares := 1, orderRef := ref }

/-- The book after a bid at the lowest price and one at the highest, in a band pinned at the highest
price. -/
def edgeBook : BookCore .simulation :=
  ((BookCore.powerUp .simulation (some 0xFFFFFFFF)).apply (edgeAdd 1 0)).apply
    (edgeAdd 2 0xFFFFFFFF)

theorem edgeBook_best : edgeBook.bandDrops = 0 ∧ edgeBook.bandBase = 0xFFFFFFFF
    ∧ edgeBook.bid.best = some 1 := by
  decide +kernel

/-- The bid at the highest price is in the table. -/
theorem edgeBook_high : edgeBook.table.slots (hashRef .simulation 2)
    = .live 2 (BookCore.addCmd (edgeAdd 2 0xFFFFFFFF)).insEntry := by
  decide +kernel

/-- A run, with the band pinned at the highest price, that accepts a bid at price 0 and then one at
the highest price, and ends with price 0 for the best bid. -/
theorem band_wraps : ∃ is : List EngineIn, (∀ i ∈ is, BookState.Plain i)
    ∧ (BookState.powerUp .simulation (some 0xFFFFFFFF)).taken is
      = [edgeAdd 1 0, edgeAdd 2 0xFFFFFFFF]
    ∧ ¬InBand .simulation 0xFFFFFFFF 0
    ∧ let s := is.foldl BookState.step (BookState.powerUp .simulation (some 0xFFFFFFFF))
      s.engine.state = .idle ∧ s.engine.bandDrops = 0 ∧ s.engine.bestPrice true = 0
        ∧ ¬s.engine.BestPriced := by
  obtain ⟨is, hplain, htaken, hrest⟩ := BookState.exists_run_taking .simulation (some 0xFFFFFFFF)
    [edgeAdd 1 0, edgeAdd 2 0xFFFFFFFF]
  refine ⟨is, hplain, htaken, by decide, ?_⟩
  intro s
  have hcore : s.core = edgeBook := hrest.core
  obtain ⟨hdrops, hbase, hbest⟩ := edgeBook_best
  have htracker : s.engine.bid.tracker.best = some 1 := by
    rw [← hbest, ← hcore]
    rfl
  have hzero : s.engine.bestPrice true = 0 := by
    unfold BestTrackerState.best at htracker
    split at htracker
    · rename_i hv
      have haddr : s.engine.bid.tracker.bestAddr = 1 := Option.some_inj.mp htracker
      have hb : s.engine.bandBase = 0xFFFFFFFF := (congrArg BookCore.bandBase hcore).trans hbase
      show (if s.engine.bid.tracker.bestValid then
        s.engine.bandBase + UInt32.ofNat s.engine.bid.tracker.bestAddr.toNat else 0) = 0
      rw [if_pos hv, haddr, hb]
      rfl
    · cases htracker
  refine ⟨hrest.state, (congrArg BookCore.bandDrops hcore).trans hdrops, hzero, fun hpriced => ?_⟩
  -- the bid at the highest price rests in the table
  have hslot : s.core.table.slots (hashRef .simulation 2)
      = .live 2 (BookCore.addCmd (edgeAdd 2 0xFFFFFFFF)).insEntry := by
    rw [hcore]
    exact edgeBook_high
  obtain ⟨hv, -, he⟩ := OrderEntry.slot_eq_live_iff.mp hslot
  have hle := (hpriced true).2.2 _ ⟨hashRef .simulation 2, rfl, hv, by rw [he]; rfl⟩
  rw [if_pos rfl, hzero, he] at hle
  exact absurd hle (by decide)

end ItchOrderbook.Rtl
