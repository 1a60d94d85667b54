import ItchOrderbook.Rtl.EngineRun
import ItchOrderbook.Rtl.LevelTotals

/-!
# Depth and references

In every idle state of a run the levels and the counters are the totals over the valid entries of
the table, as long as no message makes an INSERT run out of probes while `res_found` is set. Such a
message adds depth for an order that the table does not hold.
-/

namespace ItchOrderbook.Rtl

open Finmap (totalAt)
open TombstoneProbing

variable {c : Build}

/-! ## Totals over the memory -/

/-- What the valid entries of a memory with `p` add up to. -/
def entryTotal {w : ℕ} (p : OrderEntry → Bool) (f : OrderEntry → ℕ) (mem : BitVec w → OrderEntry) :
    ℕ := ∑ i, if (mem i).valid && p (mem i) then f (mem i) else 0

/-- The table holds a reference. -/
def OrderRefTableState.HasRef (t : OrderRefTableState c) (ref : UInt64) : Prop :=
  ∃ i, (t.mem i).valid = true ∧ (t.mem i).oref = ref

/-- The entry of an order on a side, at a price. -/
def restsAt (isBid : Bool) (price : UInt32) (e : OrderEntry) : Bool :=
  e.isBid == isBid && e.price == price

/-- Each level in the band has the shares and the count of the valid entries at its side and price,
and each side has the count of its entries. -/
def BookUpdateEngineState.DepthBacked (s : BookUpdateEngineState c) : Prop :=
  ∀ isBid, (s.side isBid).cnt = UInt32.ofNat (entryTotal (·.isBid == isBid) (fun _ => 1) s.table.mem)
    ∧ ∀ price, inWindow c (price - s.bandBase) = true →
      s.dbgShares isBid price
          = UInt32.ofNat (entryTotal (restsAt isBid price) OrderEntry.weight s.table.mem)
        ∧ s.dbgCount isBid price
          = UInt32.ofNat (entryTotal (restsAt isBid price) (fun _ => 1) s.table.mem)

theorem entryTotal_eq {t : OrderRefTableState c} {live : LiveEntries} (h : t.core.Stores live)
    (p : OrderEntry → Bool) (f : OrderEntry → ℕ) :
    entryTotal p f t.mem = live.total fun _ e => if p e then f e else 0 := by
  rw [← h.represents.total_eq]
  refine Finset.sum_congr rfl fun i _ => ?_
  show _ = (t.mem i).slot.term _
  cases hv : (t.mem i).valid with
  | true =>
    rw [OrderEntry.slot_of_valid hv]
    rfl
  | false =>
    cases ht : (t.mem i).tomb with
    | true =>
      rw [OrderEntry.slot_of_tomb hv ht]
      rfl
    | false =>
      rw [OrderEntry.slot_of_empty hv ht]
      rfl

theorem hasRef_iff {t : OrderRefTableState c} {live : LiveEntries} (h : t.core.Stores live)
    (ref : UInt64) : t.HasRef ref ↔ live.lookup ref ≠ none := by
  rw [← Option.isSome_iff_ne_none, Option.isSome_iff_exists]
  constructor
  · rintro ⟨i, hv, hr⟩
    exact ⟨t.mem i, (h.represents.lookup_iff ref _).mpr
      ⟨i, OrderEntry.slot_eq_live_iff.mpr ⟨hv, hr, rfl⟩⟩⟩
  · rintro ⟨e, he⟩
    obtain ⟨i, hi⟩ := (h.represents.lookup_iff ref e).mp he
    obtain ⟨hv, hr, -⟩ := OrderEntry.slot_eq_live_iff.mp hi
    exact ⟨i, hv, hr⟩

/-- In the band a level belongs to one price. -/
theorem levelAddr_inj {x y : UInt32} (hx : inWindow c x = true) (hy : inWindow c y = true)
    (h : levelAddr c x = levelAddr c y) : x = y := by
  have hlt {z : UInt32} (hz : inWindow c z = true) : z.toNat < 2 ^ c.levelAw := by
    have hz' : z < UInt32.ofNat c.priceLevels := of_decide_eq_true hz
    have hp : (UInt32.ofNat c.priceLevels).toNat = 2 ^ c.levelAw := by cases c <;> rfl
    rw [← hp]
    exact UInt32.lt_iff_toNat_lt.mp hz'
  have hn := congrArg BitVec.toNat h
  unfold levelAddr at hn
  rw [BitVec.toNat_setWidth, BitVec.toNat_setWidth] at hn
  change x.toNat % _ = y.toNat % _ at hn
  rw [Nat.mod_eq_of_lt (hlt hx), Nat.mod_eq_of_lt (hlt hy)] at hn
  exact UInt32.toNat_inj.mp hn

/-- The totals of the levels, by price. -/
theorem depthBacked_of_backed {s : BookState c} {live : LiveEntries} (h : s.core.Backed live) :
    s.engine.DepthBacked := by
  intro isBid
  have hside : s.core.side isBid = (s.engine.side isBid).core := BookState.side_core ..
  have ht := h.totals isBid
  rw [hside] at ht
  have hplace (price : UInt32) (hp : inWindow c (price - s.engine.bandBase) = true)
      (f : OrderEntry → ℕ) :
      totalAt (OrderEntry.place c s.engine.bandBase) f live
          (isBid, levelAddr c (price - s.engine.bandBase))
        = entryTotal (restsAt isBid price) f s.engine.table.mem := by
    rw [entryTotal_eq h.stores]
    refine Finmap.total_congr fun ref e he => ?_
    have hin := h.inBand ref e he
    unfold OrderEntry.place restsAt
    refine if_congr ?_ rfl rfl
    rw [Prod.mk.injEq, Bool.and_eq_true, beq_iff_eq, beq_iff_eq]
    refine and_congr_right fun _ => ⟨fun ha => ?_, fun ha => by rw [ha]⟩
    exact (UInt32.sub_left_inj s.engine.bandBase).mp (levelAddr_inj hin hp ha)
  refine ⟨?_, fun price hp => ⟨?_, ?_⟩⟩
  · rw [entryTotal_eq h.stores]
    refine ht.cnt.trans (congrArg UInt32.ofNat (Finmap.total_congr fun ref e _ => ?_))
    exact if_congr beq_iff_eq.symm rfl rfl
  · rw [← hplace price hp]
    exact ht.shares _
  · rw [← hplace price hp]
    exact ht.count _

/-! ## Runs -/

namespace BookState

variable {s : BookState c}

theorem rest_powerUp (c : Build) (base : Option UInt32) :
    (powerUp c base).Rest (BookCore.powerUp c base) where
  state := rfl
  req := rfl
  cmd := rfl
  quiet := ⟨⟨rfl, rfl, rfl⟩, ⟨rfl, rfl, rfl⟩⟩
  ready := ⟨rfl, fun i h => (by cases h)⟩
  noTrade := rfl
  core := rfl

/-- No message of the run makes an INSERT run out of probes while `res_found` is set. -/
def NoStaleInsert (s : BookState c) : List EngineIn → Prop
  | [] => True
  | i :: is => (∀ d ∈ s.accept i, ¬s.core.StaleInsert d) ∧ (s.step i).NoStaleInsert is

/-- That is a condition on the messages taken. -/
theorem Serving.noStaleInsert {k : BookCore c} (h : s.Serving k) {is : List EngineIn}
    (hi : ∀ i ∈ is, Plain i)
    (hgood : GoodRun BookCore.apply (fun k d => ¬k.StaleInsert d) k (s.taken is)) :
    s.NoStaleInsert is :=
  Serving.induction (fun _ => trivial) (fun _ _ _ hd ht => ⟨hd, ht⟩) h hi hgood

/-- The engine is at rest, or on its way, with levels that the table backs. -/
def ServesBacked (s : BookState c) : Prop := ∃ k live, s.Serving k ∧ k.Backed live

/-- One cycle keeps the levels backed. -/
theorem ServesBacked.step (h : s.ServesBacked) {i : EngineIn} (hi : Plain i)
    (hf : ∀ d ∈ s.accept i, ¬s.core.StaleInsert d) : (s.step i).ServesBacked := by
  obtain ⟨k, live, hs, hb⟩ := h
  cases ha : s.accept i with
  | none => exact ⟨k, live, hs.step_none hi ha, hb⟩
  | some d =>
    obtain ⟨hrest, hnext⟩ := hs.step_some hi ha
    obtain ⟨live', hb'⟩ := hb.apply (hrest.core ▸ hf d ha)
    exact ⟨_, live', hnext, hb'⟩

/-- A run keeps the levels backed. -/
theorem ServesBacked.run (h : s.ServesBacked) (is : List EngineIn) (hi : ∀ i ∈ is, Plain i)
    (hf : s.NoStaleInsert is) : (is.foldl BookState.step s).ServesBacked := by
  induction is generalizing s with
  | nil => exact h
  | cons i is ih =>
    exact ih (h.step (hi i List.mem_cons_self) hf.1)
      (fun j hj => hi j (List.mem_cons_of_mem i hj)) hf.2

theorem ServesBacked.depthBacked (h : s.ServesBacked) (hs : s.engine.state = .idle) :
    s.engine.DepthBacked := by
  obtain ⟨k, live, hserve, hb⟩ := h
  exact depthBacked_of_backed ((hserve.rest_of_idle hs).core.symm ▸ hb)

end BookState

end ItchOrderbook.Rtl
