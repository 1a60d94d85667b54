import ItchOrderbook.Rtl.DecoderAgreement
import ItchOrderbook.Rtl.PriceBand
import ItchOrderbook.Sim.ReferenceSpec

/-!
# The hardware book and the reference model, message by message

In the simulation configuration the hardware book and `Sim.RefBook` hold the same orders
(`Mirrors`). A message keeps this when the order it brings is admissible and its INSERT finds a
slot. Both sides keep their levels and volumes as totals over these orders, so they show the same.
-/

namespace ItchOrderbook.Rtl

open Finmap (totalAt)

/-! ## The orders -/

/-- What the reference keeps of an entry of the table. -/
def OrderEntry.toSimOrder (e : OrderEntry) : Sim.Order :=
  ⟨e.isBid, e.locate, e.price, e.shares.toUInt64⟩

/-- The reference holds the live orders. -/
def SameLive (live : LiveEntries) (orders : Finmap fun _ : UInt64 => Sim.Order) : Prop :=
  ∀ ref, orders.lookup ref = (live.lookup ref).map OrderEntry.toSimOrder

/-- A difference that does not wrap, widened. -/
theorem toUInt64_sub {a b : UInt32} (h : b ≤ a) : (a - b).toUInt64 = a.toUInt64 - b.toUInt64 := by
  have hle : b.toUInt64 ≤ a.toUInt64 := by
    rw [UInt64.le_iff_toNat_le, UInt32.toNat_toUInt64, UInt32.toNat_toUInt64]
    exact UInt32.le_iff_toNat_le.mp h
  rw [← UInt64.toNat_inj, UInt64.toNat_sub_of_le _ _ hle, UInt32.toNat_toUInt64,
    UInt32.toNat_toUInt64, UInt32.toNat_toUInt64, UInt32.toNat_sub_of_le _ _ h]

theorem toUInt64_inj {a b : UInt32} : a.toUInt64 = b.toUInt64 ↔ a = b := by
  rw [← UInt64.toNat_inj, UInt32.toNat_toUInt64, UInt32.toNat_toUInt64, UInt32.toNat_inj]

namespace SameLive

variable {live : LiveEntries} {orders : Finmap fun _ : UInt64 => Sim.Order} {ref : UInt64}
  {e : OrderEntry}

theorem lookup_some (h : SameLive live orders) (ho : live.lookup ref = some e) :
    orders.lookup ref = some e.toSimOrder := by
  rw [h, ho, Option.map_some]

theorem lookup_none (h : SameLive live orders) (ho : live.lookup ref = none) :
    orders.lookup ref = none := by
  rw [h, ho, Option.map_none]

theorem none_iff (h : SameLive live orders) : orders.lookup ref = none ↔ live.lookup ref = none := by
  rw [h, Option.map_eq_none_iff]

theorem erase (h : SameLive live orders) (ref : UInt64) :
    SameLive (live.erase ref) (orders.erase ref) := by
  intro ref'
  by_cases hr : ref' = ref
  · rw [hr, Finmap.lookup_erase, Finmap.lookup_erase, Option.map_none]
  · rw [Finmap.lookup_erase_ne hr, Finmap.lookup_erase_ne hr]
    exact h ref'

theorem insert (h : SameLive live orders) (ref : UInt64) (e : OrderEntry) :
    SameLive (live.insert ref e) (orders.insert ref e.toSimOrder) := by
  intro ref'
  by_cases hr : ref' = ref
  · rw [hr, Finmap.lookup_insert, Finmap.lookup_insert, Option.map_some]
  · rw [Finmap.lookup_insert_of_ne _ hr, Finmap.lookup_insert_of_ne _ hr]
    exact h ref'

/-- A reduction on both sides. -/
theorem reduce (h : SameLive live orders) (e : OrderEntry) (ref : UInt64) {amt : UInt32}
    (hle : amt ≤ e.shares) : SameLive (live.reduce ref e amt)
      (Sim.RefBook.reduceOrders orders ref e.toSimOrder amt.toUInt64) := by
  have hgone : e.toSimOrder.shares = amt.toUInt64 ↔ e.shares - amt = 0 := by
    rw [UInt32.sub_eq_iff_eq_add, UInt32.zero_add]
    exact toUInt64_inj
  unfold LiveEntries.reduce Sim.RefBook.reduceOrders
  by_cases hg : e.shares - amt = 0
  · rw [if_pos hg, if_pos (hgone.mpr hg)]
    exact h.erase ref
  · rw [if_neg hg, if_neg fun he => hg (hgone.mp he)]
    have hins := h.insert ref (e.left ref amt)
    have hleft : (e.left ref amt).toSimOrder
        = { e.toSimOrder with shares := e.toSimOrder.shares - amt.toUInt64 } := by
      unfold OrderEntry.toSimOrder OrderEntry.left
      dsimp only
      rw [toUInt64_sub hle]
    rwa [hleft] at hins

/-- Totals by any place that the two sides agree on, over the live orders. -/
theorem totalAt_eq {P Q : Type} [DecidableEq P] [DecidableEq Q] {place : OrderEntry → P}
    {place' : Sim.Order → Q} {f : OrderEntry → ℕ} {g : Sim.Order → ℕ} {p : P} {q : Q}
    (h : SameLive live orders)
    (hp : ∀ ref e, live.lookup ref = some e → (place' e.toSimOrder = q ↔ place e = p))
    (hf : ∀ e, g e.toSimOrder = f e) : totalAt place' g orders q = totalAt place f live p := by
  unfold totalAt
  refine Finmap.total_eq_total_of_map h fun ref e he => ?_
  exact if_congr (hp ref e he) (hf e) rfl

end SameLive

theorem weight_toSimOrder (e : OrderEntry) : e.toSimOrder.weight = e.weight :=
  UInt32.toNat_toUInt64 e.shares

/-! ## One message -/

/-- VWAP sums and trade count. -/
def TradeSums.stats (t : TradeSums) : UInt64 × UInt64 × UInt64 :=
  (t.vwapNum, t.vwapDen, t.tradeCount)

/-- What a message that brings an order has to carry: a price in the levels, a reference that is not
live, shares, and no more of them than its level takes. -/
structure Admissible (r : Sim.RefBook) (d : Decoded) : Prop where
  admits : r.Admits d.toRefMsg
  price : BookCore.IsAdd d ∨ d.mtype = tReplace →
    d.price.toNat < Build.simulation.priceLevels

instance (r : Sim.RefBook) (d : Decoded) : Decidable (Admissible r d) :=
  decidable_of_iff (r.Admits d.toRefMsg ∧ (BookCore.IsAdd d ∨ d.mtype = tReplace →
    d.price.toNat < Build.simulation.priceLevels)) ⟨fun h => ⟨h.1, h.2⟩, fun h => ⟨h.1, h.2⟩⟩

/-- The hardware book and the reference hold the same orders. -/
structure Mirrors (k : BookCore .simulation) (live : LiveEntries) (r : Sim.RefBook) : Prop where
  priced : k.Priced live
  shows : r.Shows
  same : SameLive live r.orders
  base : k.bandBase = 0
  stats : k.sums.stats = r.stats

namespace Mirrors

variable {k : BookCore .simulation} {live : LiveEntries} {r : Sim.RefBook} {d : Decoded}
  {e : OrderEntry}

theorem powerUp : Mirrors (BookCore.powerUp .simulation none) ∅ {} where
  priced := BookCore.priced_powerUp none
  shows := Sim.RefBook.shows_empty
  same _ := rfl
  base := rfl
  stats := rfl

/-- The base an Add sees is 0. -/
theorem baseEff (h : Mirrors k live r) (price : UInt32) : k.baseEff price = 0 :=
  (if_pos (Or.inr rfl)).trans h.base

/-- Nothing wraps into a band at 0. -/
theorem not_wraps {price : UInt32} : ¬Wraps .simulation 0 price := by
  unfold Wraps
  have hlevels := priceLevels_lt (c := .simulation)
  rw [UInt32.toNat_zero]
  omega

theorem inWindow_of_lt {price : UInt32} (h : price.toNat < Build.simulation.priceLevels) :
    inWindow .simulation (price - 0) = true := by
  refine inWindow_iff.mpr (Or.inl ⟨Nat.zero_le _, ?_⟩)
  rwa [UInt32.toNat_zero, Nat.zero_add]

/-- Every live order has shares. -/
theorem positive (h : Mirrors k live r) {ref : UInt64} (ho : live.lookup ref = some e) :
    e.shares ≠ 0 := fun h0 =>
  h.shows.positive ref _ (h.same.lookup_some ho)
    (show e.shares.toUInt64 = 0 by rw [h0]; rfl)

/-! ### The totals -/

/-- A level in the band, counted by either side. -/
theorem totalAt_place (h : Mirrors k live r) {isBid : Bool} {price : UInt32}
    (hp : price.toNat < Build.simulation.priceLevels) {f : OrderEntry → ℕ} {g : Sim.Order → ℕ}
    (hf : ∀ e, g e.toSimOrder = f e) :
    totalAt Sim.Order.place g r.orders (isBid, price)
      = totalAt (OrderEntry.place .simulation k.bandBase) f live (isBid, k.addr price) := by
  refine h.same.totalAt_eq (fun ref e he => ?_) hf
  have hin := h.priced.sound.backed.inBand ref e he
  have hwin : inWindow .simulation (price - k.bandBase) = true := by
    rw [h.base]
    exact inWindow_of_lt hp
  show (e.isBid, e.price) = (isBid, price)
    ↔ (e.isBid, levelAddr .simulation (e.price - k.bandBase))
      = (isBid, levelAddr .simulation (price - k.bandBase))
  rw [Prod.mk.injEq, Prod.mk.injEq]
  refine and_congr_right fun _ => ⟨fun hp => by rw [hp], fun ha => ?_⟩
  exact (UInt32.sub_left_inj k.bandBase).mp (levelAddr_inj hin hwin ha)

/-- A level's shares fit its register. -/
theorem bounded (h : Mirrors k live r) (p : Bool × BitVec (Build.simulation.levelAw)) :
    totalAt (OrderEntry.place .simulation k.bandBase) OrderEntry.weight live p < 2 ^ 32 := by
  obtain ⟨isBid, a⟩ := p
  have hnat : (UInt32.ofNat a.toNat).toNat = a.toNat :=
    UInt32.toNat_ofNat_of_lt' (a.isLt.trans (by decide))
  have haddr : k.addr (UInt32.ofNat a.toNat) = a := by
    unfold BookCore.addr
    rw [h.base, UInt32.sub_zero, levelAddr_ofNat]
  rw [← haddr, ← h.totalAt_place (hnat.trans_lt a.isLt) weight_toSimOrder]
  exact h.shows.bounded _

/-- No order is hidden: each has shares, and its level shows them. -/
theorem not_hides (h : Mirrors k live r) : ¬k.Hides d := by
  have hbacked := h.priced.sound.backed
  rintro ⟨-, hfound, -, -, a, hcount, hzero⟩
  cases ho : live.lookup d.orderRef with
  | none =>
    have ht := (hbacked.lookup d.orderRef).2
    rw [ho] at ht
    rw [ht] at hfound
    cases hfound
  | some e =>
    obtain ⟨-, ha⟩ := BookCore.answers_lookup hbacked ho
    rw [ha.price, ha.shares, ha.isBid] at hcount hzero
    have hle := BookCore.modAmt_le d e.shares
    have htake : ((k.side e.isBid).take (k.addr e.price) (BookCore.modAmt d e.shares)
        (e.shares - BookCore.modAmt d e.shares == 0)).Totals e.isBid k.bandBase
        (live.reduce d.orderRef e (BookCore.modAmt d e.shares)) :=
      (hbacked.totals e.isBid).take ho rfl hle
    have hsh := (totals_reduce (c := .simulation) ho hle k.bandBase).1 (e.isBid, a)
    -- an order that is left at the level, with its shares
    have hocc : Occupied .simulation k.bandBase (live.reduce d.orderRef e
        (BookCore.modAmt d e.shares)) e.isBid a := by
      by_contra hno
      refine hcount ((htake.count a).trans ?_)
      rw [show totalAt _ _ _ _ = 0 from Finmap.total_eq_zero_iff.mpr fun r v hv =>
        if_neg fun hp => hno ⟨r, v, hv, hp⟩]
      rfl
    obtain ⟨ref, v, hv, hp⟩ := hocc
    have hpos : v.shares ≠ 0 := by
      rcases LiveEntries.lookup_reduce hv with ⟨-, hleft, rfl⟩ | ⟨-, hl⟩
      · exact hleft
      · exact h.positive hl
    have hweight := Finmap.le_totalAt (OrderEntry.place .simulation k.bandBase) OrderEntry.weight hv
    rw [hp] at hweight
    have hfit : totalAt (OrderEntry.place .simulation k.bandBase) OrderEntry.weight
        (live.reduce d.orderRef e (BookCore.modAmt d e.shares)) (e.isBid, a) < 2 ^ 32 :=
      Nat.lt_of_le_of_lt (by omega) (h.bounded (e.isBid, a))
    have hsum := hzero a le_rfl
    rw [htake.shares, ← UInt32.toNat_inj, UInt32.toNat_ofNat_of_lt' hfit, UInt32.toNat_zero] at hsum
    exact hpos (UInt32.toNat_inj.mp (show v.weight = 0 by omega))

/-! ### The INSERT -/

/-- An INSERT of a new order that does not run out of probes stores it. -/
theorem stored {q : TblCmd} (h : k.Backed live) (hnew : live.lookup q.ref = none)
    (hop : q.op = .insert) (hfit : (k.arrive q).table.insFailCount = k.table.insFailCount) :
    k.table.seek q.ref ≠ .full ∧ (k.arrive q).table.resFound = true := by
  have htable : (k.arrive q).table = k.table.exec q := by
    unfold BookCore.arrive
    dsimp only
    split
    · rw [BookCore.table_setSide]
    · rfl
  rw [htable] at hfit ⊢
  rcases h.stores.insert_new hnew hop with ⟨hseek, -, hf, -⟩ | ⟨-, hexec⟩
  · exact ⟨hseek, hf⟩
  · -- the counter of failed INSERTs would have moved
    rw [hexec] at hfit
    have hsucc : k.table.insFailCount + 1 = k.table.insFailCount := hfit
    grind

/-- The INSERT of an Add. -/
theorem stored_add (h : Mirrors k live r) (hd : Admissible r d) (hadd : BookCore.IsAdd d)
    (hfit : (k.apply d).table.insFailCount = k.table.insFailCount) :
    live.lookup d.orderRef = none ∧ inWindow .simulation (d.price - k.baseEff d.price) = true
      ∧ k.table.seek d.orderRef ≠ .full ∧ (k.apply d).table.resFound = true := by
  have htype : MsgType.ofByte d.mtype = .addOrder ∨ MsgType.ofByte d.mtype = .addOrderMPID := by
    rcases hadd with hm | hm
    · exact Or.inl (by rw [hm]; decide)
    · exact Or.inr (by rw [hm]; decide)
  have hnew : live.lookup d.orderRef = none := h.same.none_iff.mp (hd.admits.add htype).1
  have hwin : inWindow .simulation (d.price - k.baseEff d.price) = true := by
    rw [h.baseEff]
    exact inWindow_of_lt (hd.price (Or.inl hadd))
  rw [BookCore.apply_add hadd, if_pos hwin] at hfit ⊢
  exact ⟨hnew, hwin, stored (q := BookCore.addCmd d) (h.priced.sound.backed.rebase d.price) hnew rfl
    hfit⟩

/-- The INSERT of a Replace. -/
theorem stored_replace (h : Mirrors k live r) (hd : Admissible r d) (hrep : d.mtype = tReplace)
    (ho : live.lookup d.orderRef = some e)
    (hfit : (k.apply d).table.insFailCount = k.table.insFailCount) :
    inWindow .simulation (d.price - k.bandBase) = true
      ∧ (BookCore.without k.table d.orderRef).seek d.newOrderRef ≠ .full
      ∧ (k.apply d).table.resFound = true := by
  have hbacked := h.priced.sound.backed
  have htype : MsgType.ofByte d.mtype = .orderReplace := by
    rw [hrep]
    decide
  have hnew : live.lookup d.newOrderRef = none :=
    h.same.none_iff.mp (hd.admits.replace htype _ (h.same.lookup_some ho)).1
  have hwin : inWindow .simulation (d.price - k.bandBase) = true := by
    rw [h.base]
    exact inWindow_of_lt (hd.price (Or.inr hrep))
  have hamt : BookCore.modAmt d e.shares = e.shares := if_pos (Or.inr hrep)
  have hprint : (k.lookup d.orderRef).print d e.shares = k.lookup d.orderRef :=
    BookCore.print_replace hrep
  have hred := (hbacked.removed ho).1
  have hslots := BookCore.slots_removed hbacked ho hrep
  obtain ⟨hl, htable⟩ := hbacked.lookup d.orderRef
  obtain ⟨-, ha⟩ := BookCore.answers_lookup hbacked ho
  have hcount : (BookCore.reduce (k.lookup d.orderRef) d.orderRef e.shares).table.insFailCount
      = k.table.insFailCount := by
    rw [(hl.reduce ho ha (UInt32.le_refl _)).2.2, htable, ho]
  have herase : live.reduce d.orderRef e e.shares = live.erase d.orderRef :=
    if_pos (UInt32.sub_self _)
  rw [hamt, hprint] at hred hslots
  rw [herase] at hred
  rw [hbacked.apply_replace hrep ho, if_pos hwin] at hfit ⊢
  rw [← BookCore.seek_congr hslots]
  exact ⟨hwin, stored (q := BookCore.replaceCmd d e.isBid e.locate) hred
    (Finmap.lookup_erase_of_none hnew) rfl (hfit.trans hcount.symm)⟩

/-! ### The orders -/

/-- The amounts taken are the same. -/
theorem clamp_eq (d : Decoded) (e : OrderEntry) :
    Sim.RefBook.clamp d.toRefMsg e.toSimOrder
      = (BookUpdateEngineState.minU d.shares e.shares).toUInt64 := by
  have hlt : d.shares.toUInt64 > e.shares.toUInt64 ↔ e.shares < d.shares := by
    rw [gt_iff_lt, UInt64.lt_iff_toNat_lt, UInt32.toNat_toUInt64, UInt32.toNat_toUInt64,
      UInt32.lt_iff_toNat_lt]
  unfold Sim.RefBook.clamp BookUpdateEngineState.minU OrderEntry.toSimOrder Decoded.toRefMsg
  dsimp only
  by_cases h : e.shares < d.shares
  · rw [if_pos (hlt.mpr h), if_neg (UInt32.lt_asymm h)]
  · rw [if_neg fun hno => h (hlt.mp hno)]
    split
    · rfl
    · rw [UInt32.le_antisymm (UInt32.not_lt.mp h) (UInt32.not_lt.mp ‹_›)]

/-- A message about an order that is not live does nothing to the reference. -/
theorem apply_unknown (h : Mirrors k live r) (hmod : BookCore.Modifies d)
    (ho : live.lookup d.orderRef = none) : r.apply d.toRefMsg = r := by
  have hnone : r.orders.lookup d.toRefMsg.orderRef = none := h.same.lookup_none ho
  have htype : d.toRefMsg.type = d.mtype := rfl
  rw [Sim.RefBook.apply_eq, htype]
  rcases hmod with hm | hm | hm | hm | hm
  · rw [show MsgType.ofByte d.mtype = .orderExecuted by rw [hm]; decide, hnone]
  · rw [show MsgType.ofByte d.mtype = .orderExecutedPrice by rw [hm]; decide, hnone]
  · rw [show MsgType.ofByte d.mtype = .orderCancel by rw [hm]; decide, hnone]
  · rw [show MsgType.ofByte d.mtype = .orderDelete by rw [hm]; decide]
    unfold Sim.RefBook.removeOrder
    rw [hnone]
  · rw [show MsgType.ofByte d.mtype = .orderReplace by rw [hm]; decide, hnone]

/-- The orders after a message about a live one: what is left of it, and the new order of a
Replace. -/
theorem orders_apply (h : Mirrors k live r) (hmod : BookCore.Modifies d)
    (ho : live.lookup d.orderRef = some e) :
    let left := Sim.RefBook.reduceOrders r.orders d.orderRef e.toSimOrder
      (BookCore.modAmt d e.shares).toUInt64
    (r.apply d.toRefMsg).orders = if d.mtype = tReplace then
        left.insert d.newOrderRef (BookCore.replaceCmd d e.isBid e.locate).insEntry.toSimOrder
      else left := by
  intro left
  have hlook : r.orders.lookup d.toRefMsg.orderRef = some e.toSimOrder := h.same.lookup_some ho
  have htype : d.toRefMsg.type = d.mtype := rfl
  -- what is left of the order after a message with a quantity
  have hclamp (hm : ¬(d.mtype = tDelete ∨ d.mtype = tReplace)) :
      (r.reduceOrder d.orderRef (Sim.RefBook.clamp d.toRefMsg e.toSimOrder)).orders = left := by
    have hamt : BookCore.modAmt d e.shares = BookUpdateEngineState.minU d.shares e.shares :=
      if_neg hm
    have hred := (h.shows.reduceOrder hlook (Sim.RefBook.clamp_le d.toRefMsg _)).2
    unfold left
    rw [hamt, ← clamp_eq]
    exact hred
  -- and after one that removes it
  have hremove (hm : d.mtype = tDelete ∨ d.mtype = tReplace) :
      (r.removeOrder d.orderRef).orders = left := by
    have hamt : BookCore.modAmt d e.shares = e.shares := if_pos hm
    unfold left
    rw [hamt]
    exact (h.shows.removeOrder hlook).2.trans (if_pos rfl).symm
  rw [Sim.RefBook.apply_eq, htype]
  rcases hmod with hm | hm | hm | hm | hm
  · rw [show MsgType.ofByte d.mtype = .orderExecuted by rw [hm]; decide, hlook,
      if_neg (by rw [hm]; decide)]
    exact hclamp (by rw [hm]; decide)
  · rw [show MsgType.ofByte d.mtype = .orderExecutedPrice by rw [hm]; decide, hlook,
      if_neg (by rw [hm]; decide)]
    dsimp only
    split
    · exact hclamp (by rw [hm]; decide)
    · exact hclamp (by rw [hm]; decide)
  · rw [show MsgType.ofByte d.mtype = .orderCancel by rw [hm]; decide, hlook,
      if_neg (by rw [hm]; decide)]
    exact hclamp (by rw [hm]; decide)
  · rw [show MsgType.ofByte d.mtype = .orderDelete by rw [hm]; decide,
      if_neg (by rw [hm]; decide)]
    exact hremove (Or.inl hm)
  · rw [show MsgType.ofByte d.mtype = .orderReplace by rw [hm]; decide, hlook, if_pos hm]
    dsimp only
    rw [Sim.RefBook.orders_addOrder, show d.toRefMsg.orderRef = d.orderRef from rfl,
      hremove (Or.inr hm)]
    rfl

/-- A message about no order. -/
theorem apply_rest (hadd : ¬BookCore.IsAdd d) (hmod : ¬BookCore.Modifies d) :
    r.apply d.toRefMsg = if d.mtype = tTrade then r.trade d.price d.shares.toUInt64 else r := by
  unfold BookCore.Modifies at hmod
  push Not at hmod
  obtain ⟨hE, hC, hX, hD, hU⟩ := hmod
  exact (if_neg hadd).trans ((if_neg hE).trans ((if_neg hC).trans ((if_neg hX).trans
    ((if_neg hD).trans (if_neg hU)))))

/-- The same orders after a message. -/
theorem same_apply (h : Mirrors k live r) (hd : Admissible r d)
    (hfit : (k.apply d).table.insFailCount = k.table.insFailCount) :
    SameLive (k.liveAfter live d) (r.apply d.toRefMsg).orders := by
  have htype : d.toRefMsg.type = d.mtype := rfl
  unfold BookCore.liveAfter
  by_cases hadd : BookCore.IsAdd d
  · obtain ⟨-, hwin, -, hfound⟩ := h.stored_add hd hadd hfit
    rw [if_pos hadd, if_pos ⟨hwin, hfound⟩]
    have happ : r.apply d.toRefMsg
        = r.addOrder d.orderRef d.isBid d.stockLocate d.price d.shares.toUInt64 := if_pos hadd
    rw [happ, Sim.RefBook.orders_addOrder]
    exact h.same.insert d.orderRef (BookCore.addCmd d).insEntry
  rw [if_neg hadd]
  by_cases hmod : BookCore.Modifies d
  · rw [if_pos hmod]
    cases ho : live.lookup d.orderRef with
    | none =>
      rw [h.apply_unknown hmod ho]
      exact h.same
    | some e =>
      have hleft := h.same.reduce e d.orderRef (BookCore.modAmt_le d e.shares)
      rw [h.orders_apply hmod ho]
      dsimp only
      by_cases hrep : d.mtype = tReplace
      · obtain ⟨hwin, -, hfound⟩ := h.stored_replace hd hrep ho hfit
        rw [if_pos hrep, if_pos ⟨hrep, hwin, hfound⟩]
        exact hleft.insert d.newOrderRef (BookCore.replaceCmd d e.isBid e.locate).insEntry
      · rw [if_neg hrep, if_neg fun hno => hrep hno.1]
        exact hleft
  · rw [if_neg hmod]
    have happ := apply_rest (r := r) hadd hmod
    split at happ
    · rw [happ]
      exact h.same
    · rw [happ]
      exact h.same

/-! ### The trades -/

/-- A trade moves the sums alike. -/
theorem stats_trade {sums : TradeSums} {r : Sim.RefBook} (h : sums.stats = r.stats)
    (price amt : UInt32) : (sums.trade price amt).stats = (r.trade price amt.toUInt64).stats := by
  rw [Sim.RefBook.stats_trade, ← h]
  rfl

/-- A message about a live order prints its trade, and no other. -/
theorem sums_modify (h : Mirrors k live r) (ho : live.lookup d.orderRef = some e) :
    (k.modify d).sums = ((k.lookup d.orderRef).print d (BookCore.modAmt d e.shares)).sums := by
  have hreduce : (((k.lookup d.orderRef).print d (BookCore.modAmt d e.shares)).reduce d.orderRef
      (BookCore.modAmt d e.shares)).sums
      = ((k.lookup d.orderRef).print d (BookCore.modAmt d e.shares)).sums :=
    BookCore.sums_setSide ..
  rw [BookCore.modify_some h.priced.sound.backed ho]
  split
  · unfold BookCore.readd
    split
    · rw [BookCore.sums_arrive, hreduce]
    · exact hreduce
  · exact hreduce

/-- The same sums after a message. -/
theorem stats_apply (h : Mirrors k live r) :
    (k.apply d).sums.stats = (r.apply d.toRefMsg).stats := by
  have hbacked := h.priced.sound.backed
  by_cases hadd : BookCore.IsAdd d
  · have happ : r.apply d.toRefMsg
        = r.addOrder d.orderRef d.isBid d.stockLocate d.price d.shares.toUInt64 := if_pos hadd
    rw [happ, Sim.RefBook.stats_addOrder, ← h.stats, BookCore.apply_add hadd]
    split
    · rw [BookCore.sums_arrive]
    · rfl
  by_cases hmod : BookCore.Modifies d
  · have hk : k.apply d = k.modify d := (if_neg hadd).trans (if_pos hmod)
    rw [hk]
    cases ho : live.lookup d.orderRef with
    | none =>
      rw [h.apply_unknown hmod ho, BookCore.modify_none hbacked ho]
      exact h.stats
    | some e =>
      have hlook : r.orders.lookup d.toRefMsg.orderRef = some e.toSimOrder :=
        h.same.lookup_some ho
      have hprice := (BookCore.answers_lookup hbacked ho).2.price
      have htype : d.toRefMsg.type = d.mtype := rfl
      have hamt (hm : ¬(d.mtype = tDelete ∨ d.mtype = tReplace)) :
          Sim.RefBook.clamp d.toRefMsg e.toSimOrder = (BookCore.modAmt d e.shares).toUInt64 := by
        rw [clamp_eq, show BookCore.modAmt d e.shares = _ from if_neg hm]
      rw [h.sums_modify ho, Sim.RefBook.stats_apply, Sim.RefBook.prints, htype]
      unfold BookCore.print
      rcases hmod with hm | hm | hm | hm | hm
      · -- a trade at the price of the order
        rw [show MsgType.ofByte d.mtype = .orderExecuted by rw [hm]; decide, hlook, if_pos hm,
          hprice]
        dsimp only [Option.map_some]
        rw [hamt (by rw [hm]; decide)]
        exact stats_trade h.stats e.price _
      · -- a trade at the price of the message, when it is printable
        rw [show MsgType.ofByte d.mtype = .orderExecutedPrice by rw [hm]; decide, hlook,
          if_neg (by rw [hm]; decide)]
        dsimp only [Option.map_some]
        rw [hamt (by rw [hm]; decide), show d.toRefMsg.printable = d.printable from rfl]
        by_cases hp : d.printable = true
        · rw [if_pos ⟨hm, hp⟩, if_pos hp]
          exact stats_trade h.stats d.price _
        · rw [if_neg fun hno => hp hno.2, if_neg hp]
          exact h.stats
      · rw [show MsgType.ofByte d.mtype = .orderCancel by rw [hm]; decide,
          if_neg (by rw [hm]; decide), if_neg fun hno => absurd (hm.symm.trans hno.1) (by decide)]
        exact h.stats
      · rw [show MsgType.ofByte d.mtype = .orderDelete by rw [hm]; decide,
          if_neg (by rw [hm]; decide), if_neg fun hno => absurd (hm.symm.trans hno.1) (by decide)]
        exact h.stats
      · rw [show MsgType.ofByte d.mtype = .orderReplace by rw [hm]; decide,
          if_neg (by rw [hm]; decide), if_neg fun hno => absurd (hm.symm.trans hno.1) (by decide)]
        exact h.stats
  · have hk : k.apply d
        = if d.mtype = tTrade then { k with sums := k.sums.trade d.price d.shares } else k :=
      (if_neg hadd).trans (if_neg hmod)
    rw [hk, apply_rest hadd hmod]
    split
    · exact stats_trade h.stats d.price d.shares
    · exact h.stats

/-- **One message.** -/
theorem apply (h : Mirrors k live r) (hd : Admissible r d)
    (hfit : (k.apply d).table.insFailCount = k.table.insFailCount) :
    Mirrors (k.apply d) (k.liveAfter live d) (r.apply d.toRefMsg) := by
  have hbacked := h.priced.sound.backed
  have hwraps : ¬k.WrapsIn d := by
    rintro (⟨-, hw⟩ | ⟨-, -, hw⟩)
    · rw [h.baseEff] at hw
      exact not_wraps hw
    · rw [h.base] at hw
      exact not_wraps hw
  have hstale : ¬k.StaleInsert d := by
    rintro (⟨hadd, -, hfull, -⟩ | ⟨hrep, hfind, -, hfull⟩)
    · exact (h.stored_add hd hadd hfit).2.2.1 hfull
    · cases ho : live.lookup d.orderRef with
      | none =>
        rw [hbacked.stores.find_of_none ho] at hfind
        cases hfind
      | some e => exact (h.stored_replace hd hrep ho hfit).2.1 hfull
  refine ⟨h.priced.apply ?_, h.shows.apply hd.admits, h.same_apply hd hfit, ?_, h.stats_apply⟩
  · rintro (hw | hs | hh)
    · exact hwraps hw
    · exact hstale hs
    · exact h.not_hides hh
  · by_cases hadd : BookCore.IsAdd d
    · rw [BookCore.apply_add hadd]
      split
      · rw [BookCore.bandBase_arrive]
        exact h.baseEff d.price
      · exact h.base
    · rcases hbacked.bandBase_apply d with hb | hb
      · exact hb.trans h.base
      · exact (hbacked.apply_other hadd fun _ => by rw [hb]; rfl).2.trans h.base

end Mirrors

end ItchOrderbook.Rtl
