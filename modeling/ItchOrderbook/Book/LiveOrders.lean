import ItchOrderbook.Book.BookEngine

/-!
# A book as its set of live orders

What a book is for, apart from how it is stored: the live orders are the whole state, a
level's shares and order count are totals over them, and the best prices are read off the
levels. `Tracks` says that one `OrderBook` shows exactly the live orders of its locate.
-/

namespace ItchOrderbook

open Finmap (total)

/-- The order rests in that book, on that side, at that price. -/
def Value.RestsAt (v : Value) (locate : UInt16) (s : Side) (price : UInt32) : Prop :=
  v.locate = locate ∧ v.side = s.code ∧ v.price = price

instance (v : Value) (locate : UInt16) (s : Side) (price : UInt32) :
    Decidable (v.RestsAt locate s price) := by
  unfold Value.RestsAt
  infer_instance

namespace LiveOrders

/-- The shares resting at a level. -/
def sharesAt (live : LiveOrders) (locate : UInt16) (s : Side) (price : UInt32) : ℕ :=
  total (fun _ v => if v.RestsAt locate s price then v.shares.toNat else 0) live

/-- The number of orders resting at a level. -/
def ordersAt (live : LiveOrders) (locate : UInt16) (s : Side) (price : UInt32) : ℕ :=
  total (fun _ v => if v.RestsAt locate s price then 1 else 0) live

/-- Every live order has shares left and rests on a side. -/
def Positive (live : LiveOrders) : Prop :=
  ∀ ref v, live.lookup ref = some v → v.shares ≠ 0 ∧ ∃ s : Side, v.side = s.code

variable {live : LiveOrders} {ref : UInt64} {v : Value}

/-- Among orders that all have shares left, no shares at a level means no orders there. -/
theorem Positive.sharesAt_eq_zero_iff (h : live.Positive) (locate : UInt16) (s : Side)
    (price : UInt32) : live.sharesAt locate s price = 0 ↔ live.ordersAt locate s price = 0 := by
  rw [sharesAt, ordersAt, Finmap.total_eq_zero_iff, Finmap.total_eq_zero_iff]
  refine forall₂_congr fun ref v => imp_congr_right fun hv => ?_
  have hne : v.shares.toNat ≠ 0 := fun e => (h ref v hv).1 (UInt32.toNat_inj.mp e)
  split <;> simp_all

theorem Positive.erase (h : live.Positive) (ref : UInt64) : Positive (live.erase ref) := by
  intro r v hv
  by_cases hr : r = ref
  · rw [hr, Finmap.lookup_erase] at hv
    cases hv
  · rw [Finmap.lookup_erase_ne hr] at hv
    exact h r v hv

theorem Positive.insert (h : live.Positive) (ref : UInt64) {v : Value} (hv : v.shares ≠ 0)
    (hs : ∃ s : Side, v.side = s.code) : Positive (live.insert ref v) := by
  intro r w hw
  by_cases hr : r = ref
  · rw [hr, Finmap.lookup_insert, Option.some_inj] at hw
    exact hw ▸ ⟨hv, hs⟩
  · rw [Finmap.lookup_insert_of_ne _ hr] at hw
    exact h r w hw

/-! ## How an order moves the levels

`Gains live live' v shares orders`: going from `live` to `live'` adds that many shares and
orders at the level `v` rests at, and nothing anywhere else. -/

structure Gains (live live' : LiveOrders) (v : Value) (shares orders : ℕ) : Prop where
  shares_eq : ∀ locate s price, live'.sharesAt locate s price
    = live.sharesAt locate s price + (if v.RestsAt locate s price then shares else 0)
  orders_eq : ∀ locate s price, live'.ordersAt locate s price
    = live.ordersAt locate s price + (if v.RestsAt locate s price then orders else 0)

/-- A fresh order brings its shares and itself. -/
theorem gains_insert (h : ref ∉ live) (v : Value) :
    Gains live (live.insert ref v) v v.shares.toNat 1 :=
  ⟨fun _ _ _ => Finmap.total_insert_of_notMem _ v h,
   fun _ _ _ => Finmap.total_insert_of_notMem _ v h⟩

/-- An order that leaves takes its shares and itself. -/
theorem gains_erase (h : live.lookup ref = some v) :
    Gains (live.erase ref) live v v.shares.toNat 1 :=
  ⟨fun _ _ _ => (Finmap.total_erase _ h).symm, fun _ _ _ => (Finmap.total_erase _ h).symm⟩

/-- An order that keeps part of its shares takes the rest, and stays. -/
theorem gains_reduce (h : live.lookup ref = some v) {qty : UInt32} (hq : qty ≤ v.shares) :
    Gains (live.insert ref { v with shares := v.shares - qty }) live v qty.toNat 0 := by
  have hsub : (v.shares - qty).toNat + qty.toNat = v.shares.toNat := by
    rw [UInt32.toNat_sub_of_le _ _ hq]
    have := UInt32.le_iff_toNat_le.mp hq
    omega
  have hrests : ∀ locate s price,
      ({ v with shares := v.shares - qty } : Value).RestsAt locate s price
        ↔ v.RestsAt locate s price := fun _ _ _ => Iff.rfl
  constructor
  · intro locate s price
    have := Finmap.total_insert_of_lookup
      (fun _ w => if w.RestsAt locate s price then w.shares.toNat else 0)
      { v with shares := v.shares - qty } h
    rw [sharesAt, sharesAt]
    by_cases hr : v.RestsAt locate s price
    · simp only [hrests, hr, if_true] at this ⊢
      omega
    · simp only [hrests, hr, if_false] at this ⊢
      omega
  · intro locate s price
    have := Finmap.total_insert_of_lookup
      (fun _ w => if w.RestsAt locate s price then 1 else 0)
      { v with shares := v.shares - qty } h
    rw [ordersAt, ordersAt]
    by_cases hr : v.RestsAt locate s price
    · simp only [hrests, hr, if_true] at this ⊢
      omega
    · simp only [hrests, hr, if_false] at this ⊢
      omega

end LiveOrders

namespace OrderBook

open LiveOrders

/-- `b` is well formed and shows exactly the live orders of `locate`. -/
structure Tracks (b : OrderBook) (live : LiveOrders) (locate : UInt16) : Prop where
  wellFormed : b.WellFormed
  shares : ∀ s p, (b.levels s p).totalShares.toNat = live.sharesAt locate s p
  orders : ∀ s p, (b.levels s p).orderCount.toNat = live.ordersAt locate s p

variable {b : OrderBook} {live live' : LiveOrders} {locate : UInt16} {v : Value}

theorem tracks_new (priceLevels : UInt32) (locate : UInt16) :
    (new priceLevels).Tracks ∅ locate where
  wellFormed := wellFormed_new priceLevels
  shares s p := by cases s <;> rfl
  orders s p := by cases s <;> rfl

/-- A change of another book's orders is invisible. -/
theorem Tracks.frame {shares orders : ℕ} (h : b.Tracks live locate)
    (hg : Gains live live' v shares orders) (hne : v.locate ≠ locate) :
    b.Tracks live' locate where
  wellFormed := h.wellFormed
  shares s p := by
    rw [h.shares, hg.shares_eq, if_neg (fun hr => hne hr.1), Nat.add_zero]
  orders s p := by
    rw [h.orders, hg.orders_eq, if_neg (fun hr => hne hr.1), Nat.add_zero]

/-- The same, for a change the other way. -/
theorem Tracks.frame_symm {shares orders : ℕ} (h : b.Tracks live locate)
    (hg : Gains live' live v shares orders) (hne : v.locate ≠ locate) :
    b.Tracks live' locate where
  wellFormed := h.wellFormed
  shares s p := by
    rw [h.shares, hg.shares_eq, if_neg (fun hr => hne hr.1), Nat.add_zero]
  orders s p := by
    rw [h.orders, hg.orders_eq, if_neg (fun hr => hne hr.1), Nat.add_zero]

/-- Adding shares that `can_add` admits tracks an order that gains them. -/
theorem Tracks.add {s : Side} {shares : UInt32} (h : b.Tracks live locate)
    (hcan : b.canAdd s.code v.price shares = true) (hloc : v.locate = locate)
    (hside : v.side = s.code) (hg : Gains live live' v shares.toNat 1) :
    (b.add s.code v.price shares).2.Tracks live' locate := by
  obtain ⟨-, -, -, -, hsh, hct⟩ := (canAdd_iff b s v.price shares).mp hcan
  refine ⟨h.wellFormed.add _ _ _, fun s' p => ?_, fun s' p => ?_⟩
  · rw [levels_add hcan, setLevel, hg.shares_eq, ← h.shares]
    by_cases hlvl : s' = s ∧ p = v.price
    · obtain ⟨rfl, rfl⟩ := hlvl
      rw [if_pos ⟨rfl, rfl⟩, if_pos ⟨hloc, hside, rfl⟩, UInt32.toNat_add]
      exact Nat.mod_eq_of_lt hsh
    · rw [if_neg hlvl, if_neg, Nat.add_zero]
      exact fun hr => hlvl ⟨Side.code_inj.mp (hr.2.1.symm.trans hside), hr.2.2.symm⟩
  · rw [levels_add hcan, setLevel, hg.orders_eq, ← h.orders]
    by_cases hlvl : s' = s ∧ p = v.price
    · obtain ⟨rfl, rfl⟩ := hlvl
      rw [if_pos ⟨rfl, rfl⟩, if_pos ⟨hloc, hside, rfl⟩, UInt32.toNat_add, UInt32.toNat_one]
      exact Nat.mod_eq_of_lt hct
    · rw [if_neg hlvl, if_neg, Nat.add_zero]
      exact fun hr => hlvl ⟨Side.code_inj.mp (hr.2.1.symm.trans hside), hr.2.2.symm⟩

/-- Removing shares that `can_remove` admits tracks an order that loses them. -/
theorem Tracks.remove {s : Side} {shares : UInt32} {gone : Bool} (h : b.Tracks live locate)
    (hcan : b.canRemove s.code v.price shares gone = true) (hloc : v.locate = locate)
    (hside : v.side = s.code)
    (hg : Gains live' live v shares.toNat (if gone then 1 else 0)) :
    (b.remove s.code v.price shares gone).2.Tracks live' locate := by
  obtain ⟨-, -, -, hsh, hct, -⟩ := (canRemove_iff b s v.price shares gone).mp hcan
  refine ⟨h.wellFormed.remove _ _ _ _, fun s' p => ?_, fun s' p => ?_⟩
  · have hs := hg.shares_eq locate s' p
    rw [← h.shares] at hs
    rw [levels_remove hcan, setLevel]
    by_cases hlvl : s' = s ∧ p = v.price
    · obtain ⟨rfl, rfl⟩ := hlvl
      rw [if_pos ⟨hloc, hside, rfl⟩] at hs
      rw [if_pos ⟨rfl, rfl⟩, PriceLevel.take, UInt32.toNat_sub_of_le _ _ hsh]
      omega
    · rw [if_neg (fun hr => hlvl ⟨Side.code_inj.mp (hr.2.1.symm.trans hside), hr.2.2.symm⟩)] at hs
      rw [if_neg hlvl]
      omega
  · have ho := hg.orders_eq locate s' p
    rw [← h.orders] at ho
    rw [levels_remove hcan, setLevel]
    by_cases hlvl : s' = s ∧ p = v.price
    · obtain ⟨rfl, rfl⟩ := hlvl
      rw [if_pos ⟨hloc, hside, rfl⟩] at ho
      rw [if_pos ⟨rfl, rfl⟩, PriceLevel.take]
      cases gone with
      | false => simpa using ho
      | true =>
        have hle : (1 : UInt32) ≤ (b.levels s' v.price).orderCount := by
          have hne : (b.levels s' v.price).orderCount.toNat ≠ 0 := fun e =>
            hct rfl (UInt32.toNat_inj.mp e)
          rw [UInt32.le_iff_toNat_le, UInt32.toNat_one]
          omega
        simp only [if_true, UInt32.toNat_sub_of_le _ _ hle, UInt32.toNat_one] at ho ⊢
        omega
    · rw [if_neg (fun hr => hlvl ⟨Side.code_inj.mp (hr.2.1.symm.trans hside), hr.2.2.symm⟩)] at ho
      rw [if_neg hlvl]
      omega

/-- A level holds at least what one of its orders holds. -/
theorem Tracks.shares_le {ref : UInt64} {s : Side} (h : b.Tracks live locate)
    (hv : live.lookup ref = some v) (hloc : v.locate = locate) (hside : v.side = s.code) :
    v.shares ≤ (b.levels s v.price).totalShares := by
  have := (gains_erase hv).shares_eq locate s v.price
  rw [if_pos ⟨hloc, hside, rfl⟩, ← h.shares] at this
  rw [UInt32.le_iff_toNat_le]
  omega

/-- Part or all of a live order can be removed from the book that tracks it. -/
theorem Tracks.canRemove {ref : UInt64} {s : Side} {qty : UInt32} (h : b.Tracks live locate)
    (hpos : live.Positive) (hv : live.lookup ref = some v) (hloc : v.locate = locate)
    (hside : v.side = s.code) (h0 : qty ≠ 0) (hq : qty ≤ v.shares) :
    b.canRemove s.code v.price qty (v.shares == qty) = true := by
  have hle : qty ≤ (b.levels s v.price).totalShares :=
    UInt32.le_trans hq (h.shares_le hv hloc hside)
  have hlevel : b.levels s v.price ≠ {} := fun e => by
    rw [e, UInt32.le_zero_iff] at hle
    exact h0 hle
  -- the level without this order: empty of shares exactly when empty of orders
  have hsh := (gains_erase hv).shares_eq locate s v.price
  have hct := (gains_erase hv).orders_eq locate s v.price
  have hzero := (hpos.erase ref).sharesAt_eq_zero_iff locate s v.price
  rw [if_pos ⟨hloc, hside, rfl⟩, ← h.shares] at hsh
  rw [if_pos ⟨hloc, hside, rfl⟩, ← h.orders] at hct
  have hct0 : (b.levels s v.price).orderCount ≠ 0 := fun e => by
    rw [e] at hct
    simp at hct
  rw [canRemove_iff]
  refine ⟨fun e => hlevel (h.wellFormed.outside s _ (Or.inl e)), ?_, h0, hle, fun _ => hct0, ?_⟩
  · exact UInt32.not_lt.mp fun e => hlevel (h.wellFormed.outside s _ (Or.inr e))
  · have hct1 : (1 : UInt32) ≤ (b.levels s v.price).orderCount := by
      rw [UInt32.le_iff_toNat_le, UInt32.toNat_one]
      omega
    rw [← UInt32.toNat_inj, ← UInt32.toNat_inj, PriceLevel.take,
      UInt32.toNat_sub_of_le _ _ hle, UInt32.toNat_zero]
    by_cases hgone : v.shares = qty
    · simp only [hgone, beq_self_eq_true, if_true, UInt32.toNat_sub_of_le _ _ hct1,
        UInt32.toNat_one] at hsh ⊢
      omega
    · have hlt : qty.toNat ≠ v.shares.toNat := fun e => hgone (UInt32.toNat_inj.mp e.symm)
      have := UInt32.le_iff_toNat_le.mp hq
      simp only [beq_eq_false_iff_ne.mpr hgone, Bool.false_eq_true, if_false]
      omega

end OrderBook

end ItchOrderbook
