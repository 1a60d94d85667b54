import ItchOrderbook.Lib.FinmapTotal
import ItchOrderbook.Lib.TreeMapEnds
import ItchOrderbook.Sim.ReferenceModel
import Mathlib.Order.Bounds.Basic

/-!
# What the simulation's reference book shows

`RefBook` keeps its levels and its volumes beside its orders. `RefBook.Shows` says that they are
the totals over the orders: a price is in a side's map exactly when an order rests there, with the
shares and the count of the orders there, and a side's volume is the sum over the side. Every
update keeps `Shows` as long as an order added is new, has shares and leaves its level below 2^32.
-/

namespace ItchOrderbook.Sim

open Finmap (total totalAt)
open Std (ExtTreeMap)

/-- The side and the price an order rests at. -/
def Order.place (o : Order) : Bool × UInt32 := (o.isBid, o.price)

/-- The shares of an order. -/
def Order.weight (o : Order) : ℕ := o.shares.toNat

theorem Order.weight_ne_zero {o : Order} (h : o.shares ≠ 0) : o.weight ≠ 0 :=
  fun e => h (UInt64.toNat_inj.mp e)

/-- The level of so many shares in so many orders; no level without orders. -/
def levelOf (shares orders : ℕ) : Option Level :=
  if orders = 0 then none else some ⟨UInt64.ofNat shares, UInt32.ofNat orders⟩

namespace RefBook

/-! ## Fields of an updated book -/

/-- `tot_bid_vol` or `tot_ask_vol`. -/
def tot (r : RefBook) (isBid : Bool) : UInt64 := if isBid then r.totBid else r.totAsk

section Access

variable (r : RefBook) (isBid isBid' : Bool) (m : ExtTreeMap UInt32 Level) (f : UInt64 → UInt64)

@[simp] theorem side_setSide :
    (r.setSide isBid m).side isBid' = if isBid' = isBid then m else r.side isBid' := by
  cases isBid <;> cases isBid' <;> rfl

@[simp] theorem side_modifyTot : (r.modifyTot isBid f).side isBid' = r.side isBid' := by
  cases isBid <;> cases isBid' <;> rfl

@[simp] theorem tot_setSide : (r.setSide isBid m).tot isBid' = r.tot isBid' := by
  cases isBid <;> cases isBid' <;> rfl

@[simp] theorem tot_modifyTot :
    (r.modifyTot isBid f).tot isBid' = if isBid' = isBid then f (r.tot isBid) else r.tot isBid' := by
  cases isBid <;> cases isBid' <;> rfl

@[simp] theorem orders_setSide : (r.setSide isBid m).orders = r.orders := by
  cases isBid <;> rfl

@[simp] theorem orders_modifyTot : (r.modifyTot isBid f).orders = r.orders := by
  cases isBid <;> rfl

@[simp] theorem side_orders (orders : Finmap fun _ : UInt64 => Order) :
    ({ r with orders := orders } : RefBook).side isBid = r.side isBid := rfl

@[simp] theorem tot_orders (orders : Finmap fun _ : UInt64 => Order) :
    ({ r with orders := orders } : RefBook).tot isBid = r.tot isBid := rfl

end Access

/-! ## Totals over the orders -/

/-- The shares resting at a side and price. -/
def sharesAt (r : RefBook) (p : Bool × UInt32) : ℕ := totalAt Order.place Order.weight r.orders p

/-- The number of orders resting at a side and price. -/
def ordersAt (r : RefBook) (p : Bool × UInt32) : ℕ := totalAt Order.place (fun _ => 1) r.orders p

/-- The shares resting on a side. -/
def sharesOn (r : RefBook) (isBid : Bool) : ℕ := totalAt Order.isBid Order.weight r.orders isBid

/-- The levels and the volumes are the totals over the orders, all of which have shares left. -/
structure Shows (r : RefBook) : Prop where
  positive : ∀ ref o, r.orders.lookup ref = some o → o.shares ≠ 0
  bounded : ∀ p, r.sharesAt p < 2 ^ 32
  level : ∀ isBid price,
    (r.side isBid)[price]? = levelOf (r.sharesAt (isBid, price)) (r.ordersAt (isBid, price))
  tot : ∀ isBid, r.tot isBid = UInt64.ofNat (r.sharesOn isBid)

theorem shows_empty : ({} : RefBook).Shows where
  positive ref o h := by cases h
  bounded p := Nat.two_pow_pos 32
  level isBid price := by cases isBid <;> exact ExtTreeMap.getElem?_empty
  tot isBid := by cases isBid <;> rfl

variable {r r' : RefBook} {ref : UInt64} {o : Order}

theorem Shows.weight_ne_zero (h : r.Shows) :
    ∀ ref o, r.orders.lookup ref = some o → o.weight ≠ 0 :=
  fun ref o ho => Order.weight_ne_zero (h.positive ref o ho)

/-- The level an order rests at is there, with the totals. -/
theorem Shows.level_of_lookup (h : r.Shows) (ho : r.orders.lookup ref = some o) :
    (r.side o.isBid)[o.price]?
      = some ⟨UInt64.ofNat (r.sharesAt o.place), UInt32.ofNat (r.ordersAt o.place)⟩ := by
  have hpos : 1 ≤ r.ordersAt o.place := Finmap.le_totalAt Order.place (fun _ => 1) ho
  rw [h.level, levelOf]
  exact if_neg (Nat.one_le_iff_ne_zero.mp hpos)

theorem Shows.weight_le (ho : r.orders.lookup ref = some o) : o.weight ≤ r.sharesAt o.place :=
  Finmap.le_totalAt Order.place Order.weight ho

/-! ## Changing one level -/

theorem ofNat_eq_zero {n : ℕ} (h : n < 2 ^ 32) : UInt64.ofNat n = 0 ↔ n = 0 := by
  rw [← UInt64.toNat_inj, UInt64.toNat_ofNat_of_lt' (Nat.lt_trans h (by decide))]
  rfl

/-- Only the level at one place and the volume of its side change, both in step with the
orders. -/
theorem Shows.change (h : r.Shows) (isBid : Bool) (price : UInt32)
    (hpos : ∀ ref o, r'.orders.lookup ref = some o → o.shares ≠ 0)
    (hlt : r'.sharesAt (isBid, price) < 2 ^ 32)
    (hframe : ∀ p ≠ (isBid, price), r'.sharesAt p = r.sharesAt p ∧ r'.ordersAt p = r.ordersAt p)
    (hlevel : (r'.side isBid)[price]?
      = levelOf (r'.sharesAt (isBid, price)) (r'.ordersAt (isBid, price)))
    (hside : ∀ isBid' price', (isBid', price') ≠ (isBid, price) →
      (r'.side isBid')[price']? = (r.side isBid')[price']?)
    (htot : ∀ isBid', r'.tot isBid' = UInt64.ofNat (r'.sharesOn isBid')) : r'.Shows where
  positive := hpos
  bounded p := by
    by_cases hp : p = (isBid, price)
    · exact hp ▸ hlt
    · rw [(hframe p hp).1]
      exact h.bounded p
  level isBid' price' := by
    by_cases hp : (isBid', price') = (isBid, price)
    · obtain ⟨rfl, rfl⟩ := Prod.mk.inj hp
      exact hlevel
    · rw [hside isBid' price' hp, (hframe _ hp).1, (hframe _ hp).2]
      exact h.level isBid' price'
  tot := htot

/-! ## Adding an order -/

theorem orders_addOrder (r : RefBook) (ref : UInt64) (isBid : Bool) (locate : UInt16)
    (price : UInt32) (shares : UInt64) :
    (r.addOrder ref isBid locate price shares).orders
      = r.orders.insert ref ⟨isBid, locate, price, shares⟩ := by
  simp [addOrder]

/-- What adding an order does to the totals. -/
theorem totals_addOrder (hnew : r.orders.lookup ref = none) (isBid : Bool) (locate : UInt16)
    (price : UInt32) (shares : UInt64) :
    let r' := r.addOrder ref isBid locate price shares
    (∀ p, r'.sharesAt p = r.sharesAt p + if (isBid, price) = p then shares.toNat else 0)
      ∧ (∀ p, r'.ordersAt p = r.ordersAt p + if (isBid, price) = p then 1 else 0)
      ∧ ∀ isBid', r'.sharesOn isBid'
          = r.sharesOn isBid' + if isBid = isBid' then shares.toNat else 0 := by
  intro r'
  have hmem : ref ∉ r.orders := Finmap.lookup_eq_none.mp hnew
  have ho : r'.orders = _ := orders_addOrder r ref isBid locate price shares
  unfold sharesAt ordersAt sharesOn
  rw [ho]
  exact ⟨Finmap.totalAt_insert_of_notMem hmem, Finmap.totalAt_insert_of_notMem hmem,
    Finmap.totalAt_insert_of_notMem hmem⟩

theorem Shows.addOrder (h : r.Shows) (hnew : r.orders.lookup ref = none) (isBid : Bool)
    (locate : UInt16) (price : UInt32) {shares : UInt64} (h0 : shares ≠ 0)
    (hroom : r.sharesAt (isBid, price) + shares.toNat < 2 ^ 32) :
    (r.addOrder ref isBid locate price shares).Shows := by
  obtain ⟨hsh, hct, hon⟩ := totals_addOrder hnew isBid locate price shares
  refine h.change isBid price ?_ ?_ ?_ ?_ ?_ ?_
  · intro ref' o ho
    rw [orders_addOrder] at ho
    by_cases hr : ref' = ref
    · rw [hr, Finmap.lookup_insert, Option.some_inj] at ho
      exact ho ▸ h0
    · rw [Finmap.lookup_insert_of_ne _ hr] at ho
      exact h.positive ref' o ho
  · rw [hsh, if_pos rfl]
    exact hroom
  · intro p hp
    rw [hsh, hct, if_neg hp.symm, if_neg hp.symm]
    exact ⟨rfl, rfl⟩
  · -- the level, made for the order when it was not there
    have hlv : (((r.side isBid)[price]?).getD {}) =
        ⟨UInt64.ofNat (r.sharesAt (isBid, price)), UInt32.ofNat (r.ordersAt (isBid, price))⟩ := by
      rw [h.level, levelOf]
      split
      · rename_i hz
        have hz' := (Finmap.totalAt_eq_zero_iff h.weight_ne_zero (isBid, price)).mpr hz
        rw [show r.sharesAt (isBid, price) = 0 from hz', hz]
        rfl
      · rfl
    rw [hsh, hct, if_pos rfl, if_pos rfl, levelOf, if_neg (Nat.succ_ne_zero _),
      UInt64.ofNat_add, UInt64.ofNat_toNat, UInt32.ofNat_add]
    simp only [RefBook.addOrder, side_modifyTot, side_setSide, side_orders, if_true,
      ExtTreeMap.getElem?_insert_self, hlv]
    rfl
  · intro isBid' price' hne
    simp only [RefBook.addOrder, side_modifyTot, side_setSide, side_orders]
    split
    · rename_i hb
      have hp : price' ≠ price := fun e => hne (by rw [hb, e])
      rw [ExtTreeMap.getElem?_insert, if_neg (by simpa using hp.symm), hb]
    · rfl
  · intro isBid'
    rw [hon]
    simp only [RefBook.addOrder, tot_modifyTot, tot_setSide, tot_orders, h.tot]
    by_cases hb : isBid' = isBid
    · rw [if_pos hb, if_pos hb.symm, UInt64.ofNat_add, UInt64.ofNat_toNat, hb]
    · rw [if_neg hb, if_neg (Ne.symm hb), Nat.add_zero]

/-! ## Reducing an order -/

/-- The orders after an order has lost part or all of its shares. -/
def reduceOrders (orders : Finmap fun _ : UInt64 => Order) (ref : UInt64) (o : Order)
    (amt : UInt64) : Finmap fun _ : UInt64 => Order :=
  if o.shares = amt then orders.erase ref
  else orders.insert ref { o with shares := o.shares - amt }

/-- The level an order leaves part or all of its shares from. -/
def takeLevel (lv : Level) (amt : UInt64) (gone : Bool) : Level where
  shares := lv.shares - amt
  count := if gone then (if lv.count > 0 then lv.count - 1 else lv.count) else lv.count

/-- A reduction that is not clamped, at a level that is there. -/
theorem reduceOrder_eq {amt : UInt64} {lv : Level} (ho : r.orders.lookup ref = some o)
    (hlv : (r.side o.isBid)[o.price]? = some lv) (hle : amt ≤ o.shares) :
    r.reduceOrder ref amt =
      { (r.setSide o.isBid
          (if o.shares = amt ∧ lv.shares - amt = 0 then (r.side o.isBid).erase o.price
          else (r.side o.isBid).insert o.price
            (takeLevel lv amt (o.shares == amt)))).modifyTot o.isBid (· - amt) with
        orders := reduceOrders r.orders ref o amt } := by
  have hamt : (if amt > o.shares then o.shares else amt) = amt := if_neg (UInt64.not_lt.mpr hle)
  have hleft : o.shares - amt = 0 ↔ o.shares = amt := by
    rw [UInt64.sub_eq_iff_eq_add, UInt64.zero_add]
  simp only [reduceOrder, ho, hamt, hlv, hleft]
  by_cases hgone : o.shares = amt
  · simp only [hgone, if_true, true_and, beq_self_eq_true, reduceOrders, takeLevel]
  · simp only [hgone, if_false, false_and, beq_eq_false_iff_ne.mpr hgone, reduceOrders,
      takeLevel, Bool.false_eq_true]

/-- Removing an order is reducing it by all its shares. -/
theorem removeOrder_eq_reduceOrder {lv : Level} (ho : r.orders.lookup ref = some o)
    (hlv : (r.side o.isBid)[o.price]? = some lv) :
    r.removeOrder ref = r.reduceOrder ref o.shares := by
  rw [reduceOrder_eq ho hlv (UInt64.le_refl _)]
  simp only [removeOrder, ho, hlv, true_and, beq_self_eq_true, takeLevel, if_true, reduceOrders]

/-- What a reduction does to the totals. -/
theorem totals_reduceOrders {amt : UInt64} (ho : r.orders.lookup ref = some o)
    (hle : amt ≤ o.shares) (hr' : r'.orders = reduceOrders r.orders ref o amt) :
    (∀ p, r'.sharesAt p + (if o.place = p then amt.toNat else 0) = r.sharesAt p)
      ∧ (∀ p, r'.ordersAt p + (if o.place = p then (if o.shares = amt then 1 else 0) else 0)
          = r.ordersAt p)
      ∧ ∀ isBid, r'.sharesOn isBid + (if o.isBid = isBid then amt.toNat else 0)
          = r.sharesOn isBid := by
  unfold sharesAt ordersAt sharesOn
  rw [hr', reduceOrders]
  by_cases hgone : o.shares = amt
  · subst hgone
    simp only [if_true]
    exact ⟨Finmap.totalAt_erase ho, Finmap.totalAt_erase ho, Finmap.totalAt_erase ho⟩
  · -- the order keeps its place with the rest of its shares
    have hw : (o.shares - amt).toNat + amt.toNat = o.shares.toNat := by
      have := UInt64.le_iff_toNat_le.mp hle
      rw [UInt64.toNat_sub_of_le _ _ hle]
      omega
    simp only [hgone, if_false]
    refine ⟨fun p => ?_, fun p => ?_, fun isBid => ?_⟩
    · have := Finmap.totalAt_insert_of_lookup Order.place Order.weight
        { o with shares := o.shares - amt } ho rfl p
      simp only [Order.weight] at this ⊢
      split at this
      · simp_all only [if_true]
        omega
      · simp_all only [if_false]
        omega
    · have := Finmap.totalAt_insert_of_lookup Order.place (fun _ => 1)
        { o with shares := o.shares - amt } ho rfl p
      simp only [ite_self]
      omega
    · have := Finmap.totalAt_insert_of_lookup Order.isBid Order.weight
        { o with shares := o.shares - amt } ho rfl isBid
      simp only [Order.weight] at this ⊢
      split at this
      · simp_all only [if_true]
        omega
      · simp_all only [if_false]
        omega

/-- The level after a reduction, as numbers. -/
theorem takeLevel_ofNat {shares orders : ℕ} {amt : UInt64} (gone : Bool)
    (hs : amt.toNat ≤ shares) (hc : 1 ≤ orders) (hc' : orders < 2 ^ 32) :
    takeLevel ⟨UInt64.ofNat shares, UInt32.ofNat orders⟩ amt gone
      = ⟨UInt64.ofNat (shares - amt.toNat),
         UInt32.ofNat (orders - if gone then 1 else 0)⟩ := by
  have hpos : UInt32.ofNat orders > 0 := by
    rw [gt_iff_lt, UInt32.lt_iff_toNat_lt, UInt32.toNat_ofNat_of_lt' hc']
    exact hc
  have hsub : UInt64.ofNat shares - amt = UInt64.ofNat (shares - amt.toNat) := by
    rw [UInt64.ofNat_sub hs, UInt64.ofNat_toNat]
  cases gone with
  | false => simp [takeLevel, hsub]
  | true =>
    have hcount : UInt32.ofNat orders - 1 = UInt32.ofNat (orders - 1) := by
      rw [UInt32.ofNat_sub hc]
      rfl
    simp [takeLevel, hsub, hpos, hcount]

theorem Shows.reduceOrder (h : r.Shows) {amt : UInt64} (ho : r.orders.lookup ref = some o)
    (hle : amt ≤ o.shares) :
    (r.reduceOrder ref amt).Shows
      ∧ (r.reduceOrder ref amt).orders = reduceOrders r.orders ref o amt := by
  have heq := reduceOrder_eq ho (h.level_of_lookup ho) hle
  have hr' : (r.reduceOrder ref amt).orders = reduceOrders r.orders ref o amt := by rw [heq]
  refine ⟨?_, hr'⟩
  obtain ⟨hsh, hct, hon⟩ := totals_reduceOrders ho hle hr'
  have hpos : ∀ ref' o', (r.reduceOrder ref amt).orders.lookup ref' = some o' → o'.shares ≠ 0 := by
    intro ref' o' ho'
    rw [hr', reduceOrders] at ho'
    by_cases hr : ref' = ref
    · split at ho'
      · rw [hr, Finmap.lookup_erase] at ho'
        cases ho'
      · rw [hr, Finmap.lookup_insert, Option.some_inj] at ho'
        rw [← ho']
        intro e
        rw [UInt64.sub_eq_iff_eq_add, UInt64.zero_add] at e
        exact absurd e ‹_›
    · refine h.positive ref' o' ?_
      split at ho'
      · rwa [Finmap.lookup_erase_ne hr] at ho'
      · rwa [Finmap.lookup_insert_of_ne _ hr] at ho'
  have hshp := hsh o.place
  have hctp := hct o.place
  rw [if_pos rfl] at hshp hctp
  have hlt : (r.reduceOrder ref amt).sharesAt o.place < 2 ^ 32 := by
    have := h.bounded o.place
    omega
  have hamt : amt.toNat ≤ r.sharesAt o.place := by omega
  have hc1 : 1 ≤ r.ordersAt o.place := Finmap.le_totalAt Order.place (fun _ => 1) ho
  have hc2 : r.ordersAt o.place < 2 ^ 32 :=
    Nat.lt_of_le_of_lt (Finmap.count_le_totalAt h.weight_ne_zero o.place) (h.bounded o.place)
  refine h.change o.isBid o.price hpos hlt ?_ ?_ ?_ ?_
  · intro p hp
    have hp' : o.place ≠ p := fun e => hp e.symm
    have h1 := hsh p
    have h2 := hct p
    rw [if_neg hp', Nat.add_zero] at h1 h2
    exact ⟨h1, h2⟩
  · -- the level stays exactly when an order does
    have hzero : (r.reduceOrder ref amt).sharesAt o.place = 0
        ↔ (r.reduceOrder ref amt).ordersAt o.place = 0 :=
      Finmap.totalAt_eq_zero_iff
        (fun ref' o' ho' => Order.weight_ne_zero (hpos ref' o' ho')) o.place
    have hleft : UInt64.ofNat (r.sharesAt o.place) - amt = 0
        ↔ (r.reduceOrder ref amt).sharesAt o.place = 0 := by
      rw [← ofNat_eq_zero hlt, ← hshp, UInt64.ofNat_add, UInt64.ofNat_toNat, UInt64.add_sub_cancel]
    have hlevel : ((r.reduceOrder ref amt).side o.isBid)[o.price]?
        = if o.shares = amt ∧ (r.reduceOrder ref amt).sharesAt o.place = 0 then none
          else some ⟨UInt64.ofNat (r.sharesAt o.place - amt.toNat),
            UInt32.ofNat (r.ordersAt o.place - if o.shares == amt then 1 else 0)⟩ := by
      rw [← takeLevel_ofNat _ hamt hc1 hc2]
      conv_lhs => rw [heq]
      simp only [side_orders, side_modifyTot, side_setSide, if_true, hleft]
      split
      · exact ExtTreeMap.getElem?_erase_self
      · exact ExtTreeMap.getElem?_insert_self
    show _ = levelOf ((r.reduceOrder ref amt).sharesAt o.place)
      ((r.reduceOrder ref amt).ordersAt o.place)
    simp only [hlevel, levelOf, ← hzero]
    rw [← hshp, ← hctp, Nat.add_sub_cancel]
    by_cases hgone : o.shares = amt
    · simp [hgone]
    · have hne : (r.reduceOrder ref amt).sharesAt o.place ≠ 0 := by
        rw [if_neg hgone, Nat.add_zero] at hctp
        rw [Ne, hzero, hctp]
        exact Nat.one_le_iff_ne_zero.mp hc1
      simp [hgone, hne]
  · intro isBid' price' hne
    rw [heq]
    simp only [side_orders, side_modifyTot, side_setSide]
    split
    · rename_i hb
      have hp : price' ≠ o.price := fun e => hne (by rw [hb, e])
      split
      · rw [ExtTreeMap.getElem?_erase, if_neg (by simpa using hp.symm), hb]
      · rw [ExtTreeMap.getElem?_insert, if_neg (by simpa using hp.symm), hb]
    · rfl
  · intro isBid'
    have hsum := hon isBid'
    have htot : (r.reduceOrder ref amt).tot isBid'
        = if isBid' = o.isBid then r.tot o.isBid - amt else r.tot isBid' := by
      rw [heq]
      simp only [tot_orders, tot_modifyTot, tot_setSide]
    rw [htot, h.tot, h.tot]
    by_cases hb : isBid' = o.isBid
    · subst hb
      rw [if_pos rfl] at hsum ⊢
      rw [← hsum, UInt64.ofNat_add, UInt64.ofNat_toNat, UInt64.add_sub_cancel]
    · rw [if_neg (Ne.symm hb), Nat.add_zero] at hsum
      rw [if_neg hb, hsum]

/-- Removing an order keeps the totals in step, and leaves the other orders. -/
theorem Shows.removeOrder (h : r.Shows) (ho : r.orders.lookup ref = some o) :
    (r.removeOrder ref).Shows ∧ (r.removeOrder ref).orders = r.orders.erase ref := by
  rw [removeOrder_eq_reduceOrder ho (h.level_of_lookup ho)]
  obtain ⟨hshows, horders⟩ := h.reduceOrder ho (UInt64.le_refl _)
  exact ⟨hshows, horders.trans (if_pos rfl)⟩

/-- A trade moves the statistics only. -/
theorem Shows.trade (h : r.Shows) (price : UInt32) (amt : UInt64) : (r.trade price amt).Shows :=
  ⟨h.positive, h.bounded, h.level, h.tot⟩

/-! ## One message -/

/-- The quantity of a modify message, clamped to what the order has left. -/
def clamp (m : RefMsg) (o : Order) : UInt64 :=
  if m.shares.toUInt64 > o.shares then o.shares else m.shares.toUInt64

theorem clamp_le (m : RefMsg) (o : Order) : clamp m o ≤ o.shares := by
  unfold clamp
  split
  · exact UInt64.le_refl _
  · exact UInt64.not_lt.mp ‹_›

/-- `apply`, by the type a type byte stands for. -/
theorem apply_eq (r : RefBook) (m : RefMsg) : r.apply m =
    match MsgType.ofByte m.type with
    | .addOrder | .addOrderMPID =>
      r.addOrder m.orderRef m.isBid m.locate m.price m.shares.toUInt64
    | .orderExecuted =>
      match r.orders.lookup m.orderRef with
      | none => r
      | some o => (r.reduceOrder m.orderRef (clamp m o)).trade o.price (clamp m o)
    | .orderExecutedPrice =>
      match r.orders.lookup m.orderRef with
      | none => r
      | some o =>
        if m.printable then (r.reduceOrder m.orderRef (clamp m o)).trade m.price (clamp m o)
        else r.reduceOrder m.orderRef (clamp m o)
    | .orderCancel =>
      match r.orders.lookup m.orderRef with
      | none => r
      | some o => r.reduceOrder m.orderRef (clamp m o)
    | .orderDelete => r.removeOrder m.orderRef
    | .orderReplace =>
      match r.orders.lookup m.orderRef with
      | none => r
      | some o =>
        (r.removeOrder m.orderRef).addOrder m.newOrderRef o.isBid o.locate m.price
          m.shares.toUInt64
    | .trade => r.trade m.price m.shares.toUInt64
    | .systemEvent | .unknown => r := by
  unfold apply MsgType.ofByte
  -- both test the type byte in one order, except that the book takes A and F together
  by_cases hA : m.type = 'A'.toUInt8
  · rw [if_pos (Or.inl hA), if_pos hA]
  by_cases hF : m.type = 'F'.toUInt8
  · rw [if_pos (Or.inr hF), if_neg hA, if_pos hF]
  rw [if_neg (not_or.mpr ⟨hA, hF⟩), if_neg hA, if_neg hF]
  split
  · rfl
  split
  · rfl
  split
  · rfl
  split
  · rfl
  split
  · rfl
  split
  · rfl
  · by_cases hS : m.type = 'S'.toUInt8
    · rw [if_pos hS]
    · rw [if_neg hS]

/-- What a message that brings an order has to carry: a reference that is not live, shares, and
no more of them than its level takes. -/
structure Admits (r : RefBook) (m : RefMsg) : Prop where
  add : MsgType.ofByte m.type = .addOrder ∨ MsgType.ofByte m.type = .addOrderMPID →
    r.orders.lookup m.orderRef = none ∧ m.shares ≠ 0
      ∧ r.sharesAt (m.isBid, m.price) + m.shares.toNat < 2 ^ 32
  replace : MsgType.ofByte m.type = .orderReplace →
    ∀ o, r.orders.lookup m.orderRef = some o →
      r.orders.lookup m.newOrderRef = none ∧ m.shares ≠ 0
        ∧ (r.removeOrder m.orderRef).sharesAt (o.isBid, m.price) + m.shares.toNat < 2 ^ 32

instance (r : RefBook) (m : RefMsg) : Decidable (r.Admits m) :=
  decidable_of_iff ((MsgType.ofByte m.type = .addOrder ∨ MsgType.ofByte m.type = .addOrderMPID →
      r.orders.lookup m.orderRef = none ∧ m.shares ≠ 0
        ∧ r.sharesAt (m.isBid, m.price) + m.shares.toNat < 2 ^ 32)
    ∧ (MsgType.ofByte m.type = .orderReplace → ∀ o ∈ r.orders.lookup m.orderRef,
      r.orders.lookup m.newOrderRef = none ∧ m.shares ≠ 0
        ∧ (r.removeOrder m.orderRef).sharesAt (o.isBid, m.price) + m.shares.toNat < 2 ^ 32))
    ⟨fun h => ⟨h.1, h.2⟩, fun h => ⟨h.add, h.replace⟩⟩

theorem toUInt64_ne_zero {n : UInt32} (h : n ≠ 0) : n.toUInt64 ≠ 0 := by
  intro e
  have := congrArg UInt64.toNat e
  rw [UInt32.toNat_toUInt64] at this
  exact h (UInt32.toNat_inj.mp this)

/-- One message keeps the levels and the volumes the totals over the orders. -/
theorem Shows.apply {m : RefMsg} (h : r.Shows) (hm : r.Admits m) : (r.apply m).Shows := by
  have hadd (hnew : r.orders.lookup m.orderRef = none ∧ m.shares ≠ 0
      ∧ r.sharesAt (m.isBid, m.price) + m.shares.toNat < 2 ^ 32) :
      (r.addOrder m.orderRef m.isBid m.locate m.price m.shares.toUInt64).Shows :=
    h.addOrder hnew.1 _ _ _ (toUInt64_ne_zero hnew.2.1) (by
      rw [UInt32.toNat_toUInt64]
      exact hnew.2.2)
  rw [apply_eq]
  cases ht : MsgType.ofByte m.type with
  | addOrder => exact hadd (hm.add (Or.inl ht))
  | addOrderMPID => exact hadd (hm.add (Or.inr ht))
  | trade => exact h.trade _ _
  | systemEvent => exact h
  | unknown => exact h
  | orderExecuted =>
    cases ho : r.orders.lookup m.orderRef with
    | none => exact h
    | some o => exact (h.reduceOrder ho (clamp_le m o)).1.trade _ _
  | orderExecutedPrice =>
    cases ho : r.orders.lookup m.orderRef with
    | none => exact h
    | some o =>
      dsimp only
      split
      · exact (h.reduceOrder ho (clamp_le m o)).1.trade _ _
      · exact (h.reduceOrder ho (clamp_le m o)).1
  | orderCancel =>
    cases ho : r.orders.lookup m.orderRef with
    | none => exact h
    | some o => exact (h.reduceOrder ho (clamp_le m o)).1
  | orderDelete =>
    cases ho : r.orders.lookup m.orderRef with
    | none =>
      rw [RefBook.removeOrder, ho]
      exact h
    | some o => exact (h.removeOrder ho).1
  | orderReplace =>
    cases ho : r.orders.lookup m.orderRef with
    | none => exact h
    | some o =>
      -- the old order leaves, then the new one arrives
      obtain ⟨hnew, h0, hroom⟩ := hm.replace ht o ho
      obtain ⟨hshows, horders⟩ := h.removeOrder ho
      refine hshows.addOrder ?_ _ _ _ (toUInt64_ne_zero h0) (by rwa [UInt32.toNat_toUInt64])
      rw [horders]
      exact Finmap.lookup_erase_of_none hnew

/-! ## Trades -/

/-- The price and the size of the trade a message prints. -/
def prints (r : RefBook) (m : RefMsg) : Option (UInt32 × UInt64) :=
  match MsgType.ofByte m.type with
  | .orderExecuted => (r.orders.lookup m.orderRef).map fun o => (o.price, clamp m o)
  | .orderExecutedPrice =>
    if m.printable then (r.orders.lookup m.orderRef).map fun o => (m.price, clamp m o) else none
  | .trade => some (m.price, m.shares.toUInt64)
  | _ => none

/-- VWAP sums and trade count. -/
def stats (r : RefBook) : UInt64 × UInt64 × UInt64 := (r.vwapNum, r.vwapDen, r.tradeCount)

@[simp] theorem stats_setSide (isBid : Bool) (m : ExtTreeMap UInt32 Level) :
    (r.setSide isBid m).stats = r.stats := by
  cases isBid <;> rfl

@[simp] theorem stats_modifyTot (isBid : Bool) (f : UInt64 → UInt64) :
    (r.modifyTot isBid f).stats = r.stats := by
  cases isBid <;> rfl

theorem stats_orders (orders : Finmap fun _ : UInt64 => Order) :
    ({ r with orders := orders } : RefBook).stats = r.stats := rfl

theorem stats_addOrder (r : RefBook) (ref : UInt64) (isBid : Bool) (locate : UInt16)
    (price : UInt32) (shares : UInt64) :
    (r.addOrder ref isBid locate price shares).stats = r.stats := by
  unfold addOrder
  rw [stats_modifyTot, stats_setSide, stats_orders]

theorem stats_reduceOrder (r : RefBook) (ref : UInt64) (amt : UInt64) :
    (r.reduceOrder ref amt).stats = r.stats := by
  unfold reduceOrder
  split
  · rfl
  rename_i o _
  generalize (if amt > o.shares then o.shares else amt) = a
  dsimp only
  split
  · rfl
  split
  all_goals rw [stats_orders, stats_modifyTot, stats_setSide]

theorem stats_removeOrder (r : RefBook) (ref : UInt64) :
    (r.removeOrder ref).stats = r.stats := by
  unfold removeOrder
  split
  · rfl
  dsimp only
  rw [stats_orders]
  split
  · rfl
  · rw [stats_modifyTot, stats_setSide]

theorem stats_trade (r : RefBook) (price : UInt32) (amt : UInt64) :
    (r.trade price amt).stats
      = (r.stats.1 + price.toUInt64 * amt, r.stats.2.1 + amt, r.stats.2.2 + 1) := rfl

/-- The statistics move by the trade printed. -/
theorem stats_apply (r : RefBook) (m : RefMsg) :
    (r.apply m).stats =
      match r.prints m with
      | none => r.stats
      | some (price, amt) =>
        (r.stats.1 + price.toUInt64 * amt, r.stats.2.1 + amt, r.stats.2.2 + 1) := by
  rw [apply_eq, prints]
  cases ht : MsgType.ofByte m.type with
  | addOrder => exact stats_addOrder ..
  | addOrderMPID => exact stats_addOrder ..
  | trade => rfl
  | systemEvent => rfl
  | unknown => rfl
  | orderDelete => exact stats_removeOrder ..
  | orderExecuted =>
    cases ho : r.orders.lookup m.orderRef with
    | none => rfl
    | some o =>
      dsimp only [Option.map_some]
      rw [stats_trade, stats_reduceOrder]
  | orderExecutedPrice =>
    cases ho : r.orders.lookup m.orderRef with
    | none =>
      dsimp only [Option.map_none]
      rw [ite_self]
    | some o =>
      dsimp only [Option.map_some]
      by_cases hp : m.printable
      · rw [if_pos hp, if_pos hp, stats_trade, stats_reduceOrder]
      · rw [if_neg hp, if_neg hp, stats_reduceOrder]
  | orderCancel =>
    cases ho : r.orders.lookup m.orderRef with
    | none => rfl
    | some o => exact stats_reduceOrder ..
  | orderReplace =>
    cases ho : r.orders.lookup m.orderRef with
    | none => rfl
    | some o =>
      dsimp only
      rw [stats_addOrder, stats_removeOrder]

/-! ## Queries -/

theorem Shows.mem_side_iff (h : r.Shows) (isBid : Bool) (p : UInt32) :
    p ∈ r.side isBid ↔ r.sharesAt (isBid, p) ≠ 0 := by
  rw [ExtTreeMap.mem_iff_isSome_getElem?, h.level, levelOf]
  have hz : r.sharesAt (isBid, p) = 0 ↔ r.ordersAt (isBid, p) = 0 :=
    Finmap.totalAt_eq_zero_iff h.weight_ne_zero (isBid, p)
  rw [Ne, hz]
  split <;> simp_all

theorem Shows.levelShares_eq (h : r.Shows) (isBid : Bool) (p : UInt32) :
    r.levelShares isBid p = UInt64.ofNat (r.sharesAt (isBid, p)) := by
  have hz : r.sharesAt (isBid, p) = 0 ↔ r.ordersAt (isBid, p) = 0 :=
    Finmap.totalAt_eq_zero_iff h.weight_ne_zero (isBid, p)
  rw [levelShares, h.level, levelOf]
  split
  · rw [hz.mpr ‹_›]
    rfl
  · rfl

theorem Shows.levelCount_eq (h : r.Shows) (isBid : Bool) (p : UInt32) :
    r.levelCount isBid p = UInt32.ofNat (r.ordersAt (isBid, p)) := by
  rw [levelCount, h.level, levelOf]
  split
  · rw [‹r.ordersAt (isBid, p) = 0›]
    rfl
  · rfl

/-- The level of a price with shares, as the map has it. -/
theorem Shows.level_of_shares (h : r.Shows) {isBid : Bool} {p : UInt32}
    (hp : r.sharesAt (isBid, p) ≠ 0) :
    (r.side isBid)[p]?
      = some ⟨UInt64.ofNat (r.sharesAt (isBid, p)), UInt32.ofNat (r.ordersAt (isBid, p))⟩ := by
  have hz : r.sharesAt (isBid, p) = 0 ↔ r.ordersAt (isBid, p) = 0 :=
    Finmap.totalAt_eq_zero_iff h.weight_ne_zero (isBid, p)
  rw [h.level, levelOf, if_neg (fun e => hp (hz.mpr e))]

/-- The highest price with shares is the best bid. -/
theorem Shows.best_bid (h : r.Shows) {p : UInt32}
    (hp : IsGreatest {q | r.sharesAt (true, q) ≠ 0} p) :
    r.bestBidValid = true ∧ r.bestBidPrice = p
      ∧ r.bestBidShares = UInt64.ofNat (r.sharesAt (true, p)) := by
  have hkey : r.bids.maxKey? = some p := by
    rw [ExtTreeMap.maxKey?_eq_some_iff_mem_and_forall]
    exact ⟨(h.mem_side_iff true p).mpr hp.1, fun q hq =>
      Std.isLE_compare.mpr (hp.2 ((h.mem_side_iff true q).mp hq))⟩
  refine ⟨?_, ?_, ?_⟩
  · rw [bestBidValid, Bool.not_eq_true', ← Bool.not_eq_true, ExtTreeMap.isEmpty_iff,
      ← ExtTreeMap.maxKey?_eq_none_iff, hkey]
    exact Option.some_ne_none p
  · rw [bestBidPrice, hkey, Option.getD_some]
  · rw [bestBidShares, ExtTreeMap.maxEntry?_of_maxKey? hkey (h.level_of_shares hp.1)]
    rfl

/-- The lowest price with shares is the best ask. -/
theorem Shows.best_ask (h : r.Shows) {p : UInt32}
    (hp : IsLeast {q | r.sharesAt (false, q) ≠ 0} p) :
    r.bestAskValid = true ∧ r.bestAskPrice = p
      ∧ r.bestAskShares = UInt64.ofNat (r.sharesAt (false, p)) := by
  have hkey : r.asks.minKey? = some p := by
    rw [ExtTreeMap.minKey?_eq_some_iff_mem_and_forall]
    exact ⟨(h.mem_side_iff false p).mpr hp.1, fun q hq =>
      Std.isLE_compare.mpr (hp.2 ((h.mem_side_iff false q).mp hq))⟩
  refine ⟨?_, ?_, ?_⟩
  · rw [bestAskValid, Bool.not_eq_true', ← Bool.not_eq_true, ExtTreeMap.isEmpty_iff,
      ← ExtTreeMap.minKey?_eq_none_iff, hkey]
    exact Option.some_ne_none p
  · rw [bestAskPrice, hkey, Option.getD_some]
  · rw [bestAskShares, ExtTreeMap.minEntry?_of_minKey? hkey (h.level_of_shares hp.1)]
    rfl

theorem Shows.side_eq_empty (h : r.Shows) {isBid : Bool}
    (hp : ∀ p, r.sharesAt (isBid, p) = 0) :
    r.side isBid = ∅ := by
  apply ExtTreeMap.ext_getElem?
  intro p
  have hmem : p ∉ r.side isBid := fun hin => (h.mem_side_iff isBid p).mp hin (hp p)
  rw [ExtTreeMap.getElem?_eq_none hmem, ExtTreeMap.getElem?_empty]

/-- No bids: no best bid. -/
theorem Shows.no_bid (h : r.Shows) (hp : ∀ p, r.sharesAt (true, p) = 0) :
    r.bestBidValid = false ∧ r.bestBidPrice = 0 ∧ r.bestBidShares = 0 := by
  have he : r.bids = ∅ := h.side_eq_empty hp
  have hkey : r.bids.maxKey? = none := ExtTreeMap.maxKey?_eq_none_iff.mpr he
  refine ⟨?_, ?_, ?_⟩
  · rw [bestBidValid, he]
    rfl
  · rw [bestBidPrice, hkey, Option.getD_none]
  · rw [bestBidShares, ExtTreeMap.maxEntry?_of_maxKey?_eq_none hkey]
    rfl

/-- No asks: no best ask. -/
theorem Shows.no_ask (h : r.Shows) (hp : ∀ p, r.sharesAt (false, p) = 0) :
    r.bestAskValid = false ∧ r.bestAskPrice = 0 ∧ r.bestAskShares = 0 := by
  have he : r.asks = ∅ := h.side_eq_empty hp
  have hkey : r.asks.minKey? = none := ExtTreeMap.minKey?_eq_none_iff.mpr he
  refine ⟨?_, ?_, ?_⟩
  · rw [bestAskValid, he]
    rfl
  · rw [bestAskPrice, hkey, Option.getD_none]
  · rw [bestAskShares, ExtTreeMap.minEntry?_of_minKey?_eq_none hkey]
    rfl

end RefBook

end ItchOrderbook.Sim
