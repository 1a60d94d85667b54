import ItchOrderbook.Book.EngineInvariant
import ItchOrderbook.Book.OrderRefTableSpec

/-!
# When an erase returns

The backward shift of `erase` leaves its loop at an empty slot only, and it never empties one
itself. So it returns from a table with room and from no full one (`Refines.shift_returns_iff`). An
insertion fills the last slot like any other; the engine then runs into the loop with the next
message that takes an order out of the table (`BookEngine.Removes`).
-/

namespace ItchOrderbook

open LinearProbing (occupied)

namespace OrderRefTable

/-- The loop of `erase` ends, given enough time. -/
def EraseReturns (t : OrderRefTable) (ref : UInt64) : Prop :=
  ∀ found, t.findIndex ref = some found → ∃ fuel, (shiftLoop fuel t found found).isSome

/-! ## A full table -/

section Full

variable {t : OrderRefTable} {m : RefMap} {ref : UInt64}

/-- Without an empty slot the shift goes on for ever. Induction on the fuel. -/
theorem shiftLoop_full (fuel : ℕ) {t : OrderRefTable} {i j : UInt32} (h : t.Sized)
    (hfull : ∀ x : UInt32, x.toNat < t.slotCount → t.keys x ≠ 0) :
    shiftLoop fuel t i j = none := by
  induction fuel generalizing t i j with
  | zero => rfl
  | succ fuel ih =>
    have hocc := hfull _ (h.and_mask_lt (j + 1))
    unfold shiftLoop
    simp only [if_neg hocc]
    split
    · exact ih h hfull
    · -- the slot written takes the key of an occupied one
      refine ih (h.congr rfl rfl) fun x hx => ?_
      show Function.update t.keys i _ x ≠ 0
      rw [Function.update_apply]
      split
      · exact hocc
      · exact hfull x hx

theorem Refines.keys_of_full (h : t.Refines m) (hfull : m.live.size = m.capacity) (x : UInt32)
    (hx : x.toNat < t.slotCount) : t.keys x ≠ 0 := by
  rw [h.represents.size_eq, h.capacity, LinearProbing.occupied_eq_iff] at hfull
  exact fun h0 => hfull x.toNat hx (slots_eq_none hx h0)

theorem erase_of_none (h : t.findIndex ref = none) : t.erase ref = some (false, t) := by
  rw [OrderRefTable.erase, h]

/-- A live reference is found at a slot. -/
theorem Refines.findIndex_of_live (h : t.Refines m) (hlive : ref ∈ m.live) :
    ∃ found, t.findIndex ref = some found := by
  have hspec := h.findIndex_spec ref
  cases hf : t.findIndex ref with
  | some found => exact ⟨found, rfl⟩
  | none =>
    rw [hf] at hspec
    exact absurd hlive (Finmap.lookup_eq_none.mp hspec)

/-- No live reference leaves a full table. -/
theorem Refines.erase_full (h : t.Refines m) (hfull : m.live.size = m.capacity)
    (hlive : ref ∈ m.live) : t.erase ref = none ∧ ¬t.EraseReturns ref := by
  obtain ⟨found, hf⟩ := h.findIndex_of_live hlive
  have hloop (fuel : ℕ) : shiftLoop fuel t found found = none :=
    shiftLoop_full fuel h.sized (h.keys_of_full hfull)
  refine ⟨?_, fun hret => ?_⟩
  · rw [OrderRefTable.erase, hf]
    dsimp only
    rw [hloop]
  · obtain ⟨fuel, hs⟩ := hret found hf
    rw [hloop] at hs
    cases hs

/-- An erase that the model answers has returned. -/
theorem eraseReturns_of_isSome (h : (t.erase ref).isSome) : t.EraseReturns ref := by
  intro found hf
  refine ⟨t.cap.toNat, ?_⟩
  rw [erase, hf] at h
  dsimp only at h
  cases hs : shiftLoop t.cap.toNat t found found with
  | some r => rfl
  | none =>
    rw [hs] at h
    cases h

/-- **When the backward shift returns**: the reference is not in the table, or there is an empty
slot. The fuel of the model is enough. -/
theorem Refines.eraseReturns_iff (h : t.Refines m) (ref : UInt64) :
    (t.EraseReturns ref ↔ t.find ref = none ∨ t.size < t.capacity)
      ∧ ((t.erase ref).isSome ↔ t.EraseReturns ref) := by
  have hsize : t.size < t.capacity ↔ m.live.size < m.capacity := by
    rw [h.size_eq, h.capacity]
  rw [hsize, h.find_eq]
  by_cases hlive : ref ∈ m.live
  · have hsome : m.find ref ≠ none := fun hn => Finmap.lookup_eq_none.mp hn hlive
    rcases Nat.lt_or_eq_of_le m.size_le with hroom | hfull
    · obtain ⟨t', ht', -⟩ := h.erase hroom ref
      have hs : (t.erase ref).isSome := by rw [ht']; rfl
      exact ⟨⟨fun _ => Or.inr hroom, fun _ => eraseReturns_of_isSome hs⟩,
        ⟨eraseReturns_of_isSome, fun _ => hs⟩⟩
    · obtain ⟨hnone, hnot⟩ := h.erase_full hfull hlive
      refine ⟨⟨fun hr => (hnot hr).elim, ?_⟩, ⟨fun hs => ?_, fun hr => (hnot hr).elim⟩⟩
      · rintro (hn | hlt)
        · exact (hsome hn).elim
        · exact absurd hfull hlt.ne
      · rw [hnone] at hs
        cases hs
  · have hnone : m.find ref = none := Finmap.lookup_eq_none.mpr hlive
    have hf : t.findIndex ref = none := by
      have hfind := h.find_eq ref
      rw [hnone, find, Option.map_eq_none_iff] at hfind
      exact hfind
    have hs : (t.erase ref).isSome := by rw [erase_of_none hf]; rfl
    exact ⟨⟨fun _ => Or.inl hnone, fun _ => eraseReturns_of_isSome hs⟩,
      ⟨eraseReturns_of_isSome, fun _ => hs⟩⟩

/-- A write through the pointer that `find` returned. -/
theorem Refines.store (h : t.Refines m) (ref : UInt64) (v : Value) :
    (t.store ref v).Refines (m.store ref v) := by
  have hspec := h.findIndex_spec ref
  unfold OrderRefTable.store RefMap.store
  cases hf : t.findIndex ref with
  | none =>
    rw [hf] at hspec
    rw [dif_neg (Finmap.lookup_eq_none.mp hspec)]
    exact h
  | some i =>
    rw [hf] at hspec
    obtain ⟨hi, hkey, h0⟩ := hspec
    have hne : t.keys i ≠ 0 := by rw [hkey]; exact h0
    have hold := slots_eq_some hi hne
    have huniq := h.slot_unique hi hne
    have hlook := h.lookup_of_keys hi hne
    rw [hkey] at hold huniq hlook
    rw [dif_pos (Finmap.mem_iff.mpr ⟨_, hlook⟩)]
    have hwrite : { t with vals := Function.update t.vals i v } = t.write i ref v := by
      rw [write, ← hkey, Function.update_eq_self]
    show Refines { t with vals := Function.update t.vals i v } _
    rw [hwrite]
    refine ⟨h.sized.congr rfl rfl, h.capacity, ?_, ?_, ?_⟩
    · rw [slots_fill hi h0]
      exact h.probed.overwrite hold v
    · rw [slots_fill hi h0]
      exact h.represents.overwrite hi hold huniq v
    · exact h.size_eq.trans (Finmap.size_insert_of_lookup v hlook).symm

end Full

/-! ## Reachable tables -/

open RefTable (Call Reply)

/-- A call that returns leaves a table that stands for a map. -/
theorem Refines.call_some {t t' : OrderRefTable} {m : RefMap} (h : t.Refines m) {c : Call}
    {r : Reply} (hc : RefTable.call t c = some (r, t')) : ∃ m', t'.Refines m' := by
  cases c with
  | insert ref v =>
    obtain ⟨-, href, -⟩ := h.insert ref v
    obtain rfl : (t.insert ref v).2 = t' := congrArg Prod.snd (Option.some.inj hc)
    exact ⟨_, href⟩
  | find ref =>
    obtain rfl : t = t' := congrArg Prod.snd (Option.some.inj hc)
    exact ⟨m, h⟩
  | erase ref =>
    change (t.erase ref).bind _ = _ at hc
    obtain ⟨⟨ok, t₁⟩, he, hp⟩ := Option.bind_eq_some_iff.mp hc
    obtain rfl : t₁ = t' := congrArg Prod.snd (Option.some.inj hp)
    by_cases hlive : ref ∈ m.live
    · rcases Nat.lt_or_eq_of_le m.size_le with hroom | hfull
      · obtain ⟨t₂, ht₂, href⟩ := h.erase hroom ref
        rw [ht₂, Option.some_inj] at he
        cases he
        exact ⟨_, href⟩
      · rw [(h.erase_full hfull hlive).1] at he
        cases he
    · have hf : t.findIndex ref = none := by
        have hfind := h.find_eq ref
        rw [RefMap.find, Finmap.lookup_eq_none.mpr hlive, find, Option.map_eq_none_iff] at hfind
        exact hfind
      rw [erase_of_none hf, Option.some_inj] at he
      cases he
      exact ⟨m, h⟩

/-- Calls that return leave a table that stands for a map. -/
theorem Refines.calls_some {t t' : OrderRefTable} {m : RefMap} (h : t.Refines m) {cs : List Call}
    {rs : List Reply} (hc : RefTable.calls t cs = some (rs, t')) : ∃ m', t'.Refines m' := by
  induction cs generalizing t m rs with
  | nil =>
    obtain rfl : t = t' := congrArg Prod.snd (Option.some.inj hc)
    exact ⟨m, h⟩
  | cons c cs ih =>
    change (RefTable.call t c).bind _ = _ at hc
    obtain ⟨⟨r, t₁⟩, hfirst, hrest⟩ := Option.bind_eq_some_iff.mp hc
    change (RefTable.calls t₁ cs).bind _ = _ at hrest
    obtain ⟨⟨rs', t₂⟩, hcs, hp⟩ := Option.bind_eq_some_iff.mp hrest
    obtain rfl : t₂ = t' := congrArg Prod.snd (Option.some.inj hp)
    obtain ⟨m₁, h₁⟩ := h.call_some hfirst
    exact ih h₁ hcs

/-- Rounding up ends at a power of two, when it ends. Induction on the steps left. -/
theorem roundUp_pow {cap n : UInt32} {fuel j : ℕ} (hj : j < 32)
    (h : roundUp cap fuel (UInt32.ofNat (2 ^ j)) = some n) : ∃ k < 32, n.toNat = 2 ^ k := by
  have hpow {j : ℕ} (hj : j < 32) : (UInt32.ofNat (2 ^ j)).toNat = 2 ^ j :=
    UInt32.toNat_ofNat_of_lt' (Nat.pow_lt_pow_right (by decide) hj)
  induction fuel generalizing j with
  | zero => cases h
  | succ fuel ih =>
    rw [roundUp] at h
    split at h
    · rename_i hlt
      by_cases hlast : j = 31
      · -- the shift has lost the bit, and 0 stays 0
        subst hlast
        have hzero (fuel : ℕ) : roundUp cap fuel 0 = none := by
          induction fuel with
          | zero => rfl
          | succ fuel ih' =>
            have hpos : (0 : UInt32) < cap :=
              UInt32.lt_of_le_of_lt (UInt32.zero_le) hlt
            rw [roundUp, if_pos hpos]
            exact ih'
        rw [show UInt32.ofNat (2 ^ 31) <<< 1 = 0 from by decide, hzero] at h
        cases h
      · have hshift : UInt32.ofNat (2 ^ j) <<< 1 = UInt32.ofNat (2 ^ (j + 1)) := by
          have hall : ∀ j < 32, UInt32.ofNat (2 ^ j) <<< 1 = UInt32.ofNat (2 ^ (j + 1)) := by decide
          exact hall j hj
        rw [hshift] at h
        exact ih (by omega) h
    · cases h
      exact ⟨j, hj, hpow hj⟩

/-- A fresh table, of any capacity, stands for an empty map. -/
theorem refines_new {capacityPow2 : UInt32} {t₀ : OrderRefTable} (h : new capacityPow2 = some t₀) :
    ∃ k, t₀.Refines (RefMap.new (2 ^ k)) := by
  obtain ⟨n, hn, rfl⟩ := Option.map_eq_some_iff.mp h
  obtain ⟨k, -, hk⟩ := roundUp_pow (j := 0) (by decide) hn
  exact ⟨k, refines_empty hk⟩

end OrderRefTable

/-! ## The engine -/

/-- The engine over another store. -/
def BookEngine.over {T T' : Type} (e : BookEngine T) (refs : T') : BookEngine T' where
  priceLevels := e.priceLevels
  refs := refs
  books := e.books
  ctr := e.ctr
  lastStatus := e.lastStatus

namespace BookEngine

section Over

variable {T T' : Type} (e : BookEngine T) (r : T')

@[simp] theorem over_count (f : Counters → Counters) : (e.over r).count f = (e.count f).over r := rfl

@[simp] theorem over_withStatus (st : ApplyStatus) :
    (e.over r).withStatus st = (e.withStatus st).over r := rfl

@[simp] theorem over_withRefs (r' : T') : (e.over r).withRefs r' = e.over r' := rfl

@[simp] theorem withRefs_over (t : T) : (e.withRefs t).over r = e.over r := rfl

@[simp] theorem over_setBook (locate : UInt16) (b : OrderBook) :
    (e.over r).setBook locate b = (e.setBook locate b).over r := rfl

@[simp] theorem bookOf_over (locate : UInt16) : (e.over r).bookOf locate = e.bookOf locate := rfl

@[simp] theorem refs_over : (e.over r).refs = r := rfl

@[simp] theorem priceLevels_over : (e.over r).priceLevels = e.priceLevels := rfl

@[simp] theorem over_getOrMake (locate : UInt16) :
    ((e.over r).getOrMake locate).1 = (e.getOrMake locate).1.over r := by
  unfold getOrMake BookEngine.over setBook
  cases e.books locate <;> rfl

@[simp] theorem over_reject (st : ApplyStatus) :
    (e.over r).reject st = ((e.reject st).1.over r, none) := rfl

@[simp] theorem over_accept (locate : UInt16) :
    (e.over r).accept locate = ((e.accept locate).1.over r, some locate) := rfl

end Over

/-- The message takes an order out of the table. -/
inductive Removes (e : BookEngine OrderRefTable) (m : DecodedMessage) : Prop where
  | delete (ht : m.type = .orderDelete) (v : Value) (hv : e.refs.find m.orderRef = some v)
  | reduce (ht : m.type.IsReduce) (v : Value) (hv : e.refs.find m.orderRef = some v)
      (hall : m.shares = v.shares)
  | replace (ht : m.type = .orderReplace) (v : Value) (hv : e.refs.find m.orderRef = some v)
      (hnew : m.newOrderRef ≠ 0 ∧ m.newOrderRef ≠ m.orderRef ∧ e.refs.find m.newOrderRef = none)
      (hprice : m.price ≠ 0 ∧ m.price < e.priceLevels) (hsh : m.shares ≠ 0)
      (hcan : (e.bookOf v.locate).canReplace v.side v.price v.shares m.price m.shares = true)

/-- How a step over the table and one over the map end: the first not at all, or both with engines
that differ in their stores only. -/
inductive Ends {A : Type} (endless : Prop) :
    Option ((BookEngine OrderRefTable × Option UInt16) × A) →
      (BookEngine RefMap × Option UInt16) × A → Prop where
  | loops {y : (BookEngine RefMap × Option UInt16) × A} (h : endless) : Ends endless none y
  | returns {e : BookEngine OrderRefTable} {r : RefMap} {l : Option UInt16} {a : A}
      (hr : e.refs.Refines r) (h : ¬endless) : Ends endless (some ((e, l), a)) ((e.over r, l), a)

/-- The table is full and the message takes an order out of it. -/
def Endless (e : BookEngine OrderRefTable) (m : DecodedMessage) : Prop :=
  e.Removes m ∧ e.refs.size = e.refs.capacity

section Handlers

variable {e : BookEngine OrderRefTable} {r : RefMap} {m : DecodedMessage}

@[simp] theorem refTable_find_table (t : OrderRefTable) (ref : UInt64) :
    RefTable.find t ref = t.find ref := rfl

@[simp] theorem refTable_insert_table (t : OrderRefTable) (ref : UInt64) (v : Value) :
    RefTable.insert t ref v = t.insert ref v := rfl

@[simp] theorem refTable_store_table (t : OrderRefTable) (ref : UInt64) (v : Value) :
    RefTable.store t ref v = t.store ref v := rfl

@[simp] theorem refTable_erase_table (t : OrderRefTable) (ref : UInt64) :
    RefTable.erase t ref = t.erase ref := rfl

/-- An erase of a live order, from a table that is full or has room. -/
theorem erase_ends {t : OrderRefTable} (h : t.Refines r) {ref : UInt64} (hlive : ref ∈ r.live) :
    (t.size = t.capacity ∧ t.erase ref = none)
      ∨ t.size ≠ t.capacity ∧ ∃ t', t.erase ref = some ((r.erase ref).1, t')
        ∧ t'.Refines (r.erase ref).2 := by
  have hsize : t.size = t.capacity ↔ r.live.size = r.capacity := by rw [h.size_eq, h.capacity]
  rcases Nat.lt_or_eq_of_le r.size_le with hroom | hfull
  · exact Or.inr ⟨fun hf => absurd (hsize.mp hf) hroom.ne, h.erase hroom ref⟩
  · exact Or.inl ⟨hsize.mpr hfull, (h.erase_full hfull hlive).1⟩

/-- `on_add` erases nothing. -/
theorem onAdd_ends (h : e.refs.Refines r) (ht : m.type.IsAdd) :
    Ends (e.Endless m) ((onAdd e m).map (·, ({} : ExecResult)))
      (Id.run (onAdd (e.over r) m), {}) := by
  have hno : ¬e.Endless m := by
    rintro ⟨hr, -⟩
    cases hr with
    | delete ht' => rcases ht with h | h <;> rw [h] at ht' <;> cases ht'
    | reduce ht' => rcases ht with h | h <;> rw [h] at ht' <;> revert ht' <;> decide
    | replace ht' => rcases ht with h | h <;> rw [h] at ht' <;> cases ht'
  simp only [onAdd, over_count, priceLevels_count, priceLevels_over, refs_count, refs_over,
    getOrMake_snd, bookOf_count, bookOf_over, over_getOrMake, refs_getOrMake, h.find_eq,
    RefMap.refTable_find, RefMap.refTable_insert, refTable_find_table, refTable_insert_table]
  split
  · exact .returns h hno
  split
  · exact .returns h hno
  cases hcan : (e.bookOf m.stockLocate).canAdd m.side m.price m.shares with
  | false => exact .returns (by simpa using h) hno
  | true =>
    obtain ⟨hok, href, -⟩ := h.insert m.orderRef ⟨m.price, m.shares, m.stockLocate, m.side⟩
    simp only [Bool.not_true, Bool.false_eq_true, if_false, hok, OrderBook.add_fst, hcan]
    split
    · exact .returns href hno
    · exact .returns href hno

/-- What the live orders of the map say of the table. -/
theorem Endless.find (h : e.refs.Refines r) (hno : e.Endless m) :
    ∃ v, r.find m.orderRef = some v := by
  obtain ⟨hr, -⟩ := hno
  cases hr with
  | delete _ v hv => exact ⟨v, h.find_eq _ ▸ hv⟩
  | reduce _ v hv => exact ⟨v, h.find_eq _ ▸ hv⟩
  | replace _ v hv => exact ⟨v, h.find_eq _ ▸ hv⟩

/-- `on_reduce` erases an order that loses all its shares. -/
theorem onReduce_ends (h : e.refs.Refines r) (hinv : (e.over r).Inv) (ht : m.type.IsReduce)
    (isExec : Bool) :
    Ends (e.Endless m) (onReduce e m isExec) (Id.run (onReduce (e.over r) m isExec)) := by
  -- of the messages that take an order out, this one takes all its shares
  have hall (hl : e.Endless m) : ∃ v, r.find m.orderRef = some v ∧ m.shares = v.shares := by
    obtain ⟨hr, -⟩ := hl
    cases hr with
    | delete ht' => exact absurd ht (by rw [ht']; decide)
    | reduce _ v hv hall => exact ⟨v, h.find_eq _ ▸ hv, hall⟩
    | replace ht' => exact absurd ht (by rw [ht']; decide)
  simp only [onReduce, over_count, refs_count, refs_over,
    getOrMake_snd, bookOf_count, bookOf_over, over_getOrMake, refs_getOrMake, h.find_eq,
    RefMap.refTable_find, RefMap.refTable_store, RefMap.refTable_erase, refTable_find_table,
    refTable_store_table, refTable_erase_table]
  by_cases hbad : m.orderRef = 0 ∨ m.shares = 0
  · rw [if_pos hbad, if_pos hbad]
    refine .returns h fun hl => ?_
    obtain ⟨v, hv, hsh⟩ := hall hl
    rcases hbad with h0 | h0
    · rw [h0, RefMap.find_zero] at hv
      cases hv
    · exact (hinv.positive _ v hv).1 (hsh.symm.trans h0)
  rw [if_neg hbad, if_neg hbad]
  rw [not_or] at hbad
  cases hfind : r.find m.orderRef with
  | none =>
    refine .returns h fun hl => ?_
    obtain ⟨v, hv, -⟩ := hall hl
    rw [hfind] at hv
    cases hv
  | some v =>
    have hsame (hl : e.Endless m) : m.shares = v.shares := by
      obtain ⟨w, hw, hsh⟩ := hall hl
      rw [hfind, Option.some_inj] at hw
      exact hw ▸ hsh
    by_cases hover : m.shares > v.shares
    · simp only [if_pos hover]
      refine .returns h fun hl => ?_
      rw [hsame hl] at hover
      exact absurd hover (UInt32.lt_irrefl _)
    have hrem := reduce_removed hinv hfind hbad.2 (UInt32.not_lt.mp hover)
    rw [bookOf_over] at hrem
    simp only [if_neg hover, OrderBook.remove_fst, hrem, Bool.not_true, Bool.false_eq_true,
      if_false]
    generalize hw : ({ v with shares := v.shares - m.shares } : Value) = w
    have hstore := h.store m.orderRef w
    cases hgone : v.shares == m.shares with
    | false =>
      simp only [Bool.false_eq_true, if_false]
      exact .returns hstore fun hl => beq_eq_false_iff_ne.mp hgone (hsame hl).symm
    | true =>
      simp only [if_true, refs_withRefs]
      have hlive : m.orderRef ∈ (r.store m.orderRef w).live := by
        rw [RefMap.live_store _ hfind]
        exact Finmap.mem_iff.mpr ⟨_, Finmap.lookup_insert _⟩
      have hsize : (e.refs.store m.orderRef w).size = e.refs.size
          ∧ (e.refs.store m.orderRef w).capacity = e.refs.capacity := by
        unfold OrderRefTable.store
        split <;> exact ⟨rfl, rfl⟩
      rcases erase_ends hstore hlive with ⟨hfull, hnone⟩ | ⟨hroom, t', ht', href⟩
      · rw [hsize.1, hsize.2] at hfull
        rw [hnone]
        exact .loops ⟨.reduce ht v (h.find_eq _ ▸ hfind) (beq_iff_eq.mp hgone).symm, hfull⟩
      · rw [hsize.1, hsize.2] at hroom
        rw [ht']
        exact .returns href fun hl => hroom hl.2

/-- `on_delete` erases the order. -/
theorem onDelete_ends (h : e.refs.Refines r) (hinv : (e.over r).Inv) (ht : m.type = .orderDelete) :
    Ends (e.Endless m) ((onDelete e m).map (·, ({} : ExecResult)))
      (Id.run (onDelete (e.over r) m), {}) := by
  simp only [onDelete, over_count, refs_count, refs_over,
    getOrMake_snd, bookOf_count, bookOf_over, over_getOrMake, refs_getOrMake, h.find_eq,
    RefMap.refTable_find, RefMap.refTable_erase, refTable_find_table, refTable_erase_table]
  cases hfind : r.find m.orderRef with
  | none =>
    refine .returns h fun hl => ?_
    obtain ⟨v, hv⟩ := hl.find h
    rw [hfind] at hv
    cases hv
  | some v =>
    have hrem := reduce_removed hinv hfind (hinv.positive _ v hfind).1 (UInt32.le_refl _)
    rw [beq_self_eq_true, bookOf_over] at hrem
    simp only [OrderBook.remove_fst, hrem, Bool.not_true, Bool.false_eq_true, if_false]
    rcases erase_ends h (RefMap.mem_live_of_find hfind) with ⟨hfull, hnone⟩ | ⟨hroom, t', ht', href⟩
    · rw [hnone]
      exact .loops ⟨.delete ht v (h.find_eq _ ▸ hfind), hfull⟩
    · rw [ht']
      exact .returns href fun hl => hroom hl.2

/-- `on_replace` erases the old order once its guards have passed; the insertion that follows finds
the slot that has become free. -/
theorem onReplace_ends (h : e.refs.Refines r) (hinv : (e.over r).Inv)
    (ht : m.type = .orderReplace) :
    Ends (e.Endless m) ((onReplace e m).map (·, ({} : ExecResult)))
      (Id.run (onReplace (e.over r) m), {}) := by
  have hguards (hl : e.Endless m) : ∃ v, r.find m.orderRef = some v
      ∧ (m.newOrderRef ≠ 0 ∧ m.newOrderRef ≠ m.orderRef ∧ r.find m.newOrderRef = none)
      ∧ (m.price ≠ 0 ∧ m.price < e.priceLevels) ∧ m.shares ≠ 0
      ∧ (e.bookOf v.locate).canReplace v.side v.price v.shares m.price m.shares = true := by
    obtain ⟨hr, -⟩ := hl
    cases hr with
    | delete ht' => rw [ht] at ht'; cases ht'
    | reduce ht' => exact absurd ht' (by rw [ht]; decide)
    | replace _ v hv hnew hprice hsh hcan =>
      rw [h.find_eq] at hv
      rw [h.find_eq] at hnew
      exact ⟨v, hv, hnew, hprice, hsh, hcan⟩
  simp only [onReplace, over_count, refs_count, refs_over, priceLevels_count, priceLevels_over,
    getOrMake_snd, bookOf_count, bookOf_over, over_getOrMake, refs_getOrMake, h.find_eq,
    RefMap.refTable_find, RefMap.refTable_erase, RefMap.refTable_insert, refTable_find_table,
    refTable_erase_table, refTable_insert_table, pure_bind]
  cases hfind : r.find m.orderRef with
  | none =>
    refine .returns h fun hl => ?_
    obtain ⟨v, hv⟩ := hl.find h
    rw [hfind] at hv
    cases hv
  | some old =>
    have hold (hl : e.Endless m) := by
      have hg := hguards hl
      rw [hfind] at hg
      exact hg
    dsimp only
    by_cases hbad : m.newOrderRef = 0 ∨ m.newOrderRef = m.orderRef ∨ m.price = 0
        ∨ m.price ≥ e.priceLevels ∨ m.shares = 0
    · rw [if_pos hbad, if_pos hbad]
      refine .returns h fun hl => ?_
      obtain ⟨v, -, ⟨h0, hne, -⟩, ⟨hp, hlt⟩, hsh, -⟩ := hold hl
      rcases hbad with hb | hb | hb | hb | hb
      · exact h0 hb
      · exact hne hb
      · exact hp hb
      · exact absurd hlt (UInt32.not_lt.mpr hb)
      · exact hsh hb
    rw [if_neg hbad, if_neg hbad]
    simp only [not_or, ge_iff_le, UInt32.not_le] at hbad
    obtain ⟨href0, hne, hprice, hlt, hsh⟩ := hbad
    cases hfind' : r.find m.newOrderRef with
    | some v =>
      refine .returns h fun hl => ?_
      obtain ⟨-, -, ⟨-, -, hnone⟩, -⟩ := hold hl
      rw [hfind'] at hnone
      cases hnone
    | none =>
      simp only [Option.isSome_none, Bool.false_eq_true, if_false]
      cases hcan : (e.bookOf old.locate).canReplace old.side old.price old.shares m.price
          m.shares with
      | false =>
        simp only [Bool.not_false, if_true]
        refine .returns (by simpa [reject] using h) fun hl => ?_
        obtain ⟨v, hv, -, -, -, hc⟩ := hold hl
        rw [Option.some_inj] at hv
        rw [← hv, hcan] at hc
        cases hc
      | true =>
        simp only [Bool.not_true, Bool.false_eq_true, if_false]
        rcases erase_ends h (RefMap.mem_live_of_find hfind) with
          ⟨hfull, hnone⟩ | ⟨hroom, t', ht', href⟩
        · rw [hnone]
          exact .loops ⟨.replace ht old (h.find_eq _ ▸ hfind)
            ⟨href0, hne, (h.find_eq _).trans hfind'⟩ ⟨hprice, hlt⟩ hsh hcan, hfull⟩
        · rw [ht']
          obtain ⟨hok, hins, -⟩ := href.insert m.newOrderRef
            ⟨m.price, m.shares, old.locate, old.side⟩
          obtain ⟨s, hs⟩ := (hinv.positive _ old hfind).2
          -- the slot just freed is room for the new reference
          have hfresh : (r.erase m.orderRef).2.find m.newOrderRef = none := by
            unfold RefMap.find
            rw [RefMap.live_erase, Finmap.lookup_erase_ne hne]
            exact hfind'
          have hroom' := RefMap.insert_fst_of_fresh ⟨m.price, m.shares, old.locate, old.side⟩ href0
            hfresh
          rw [decide_eq_true (RefMap.size_erase_lt hfind)] at hroom'
          rw [hs] at hcan
          have hrep := OrderBook.replace_of_canReplace hcan
          rw [← hs] at hrep
          simp only [hroom', Bool.not_true, Bool.false_eq_true, if_false, hrep]
          show Ends _ (Option.map _ (if (!(t'.insert m.newOrderRef _).1) = true then _ else _)) _
          rw [hok, hroom']
          exact .returns hins fun hl => hroom hl.2

/-- The status of the engine has no part in it. -/
theorem endless_withStatus (st : ApplyStatus) : (e.withStatus st).Endless m ↔ e.Endless m := by
  constructor
  · rintro ⟨hr, hs⟩
    refine ⟨?_, hs⟩
    cases hr with
    | delete ht v hv => exact .delete ht v hv
    | reduce ht v hv hall => exact .reduce ht v hv hall
    | replace ht v hv hnew hprice hsh hcan => exact .replace ht v hv hnew hprice hsh hcan
  · rintro ⟨hr, hs⟩
    refine ⟨?_, hs⟩
    cases hr with
    | delete ht v hv => exact .delete ht v hv
    | reduce ht v hv hall => exact .reduce ht v hv hall
    | replace ht v hv hnew hprice hsh hcan => exact .replace ht v hv hnew hprice hsh hcan

/-- A message of no order erases nothing. -/
theorem not_endless (hd : m.type ≠ .orderDelete) (hr : ¬m.type.IsReduce)
    (hU : m.type ≠ .orderReplace) : ¬e.Endless m := by
  rintro ⟨hrem, -⟩
  cases hrem with
  | delete ht => exact hd ht
  | reduce ht => exact hr ht
  | replace ht => exact hU ht

/-- **One message** over the table, against the same over the map. -/
theorem apply_ends (h : e.refs.Refines r) (hinv : (e.over r).Inv) (m : DecodedMessage) :
    Ends (e.Endless m) (e.apply m) ((e.over r).step m) := by
  have hinv' : ((e.withStatus .ignored).over r).Inv := ⟨hinv.positive, hinv.tracks⟩
  rw [← endless_withStatus .ignored]
  unfold step apply
  rw [over_withStatus]
  have h' : (e.withStatus .ignored).refs.Refines r := h
  generalize e.withStatus .ignored = e at h' hinv'
  have hmap (x : Option (BookEngine OrderRefTable × Option UInt16)) :
      (do pure (← x, ({} : ExecResult))) = x.map (·, ({} : ExecResult)) := by
    cases x <;> rfl
  cases ht : m.type with
  | addOrder =>
    show Ends _ (do pure (← onAdd e m, ({} : ExecResult))) _
    rw [hmap]
    exact onAdd_ends h' (Or.inl ht)
  | addOrderMPID =>
    show Ends _ (do pure (← onAdd e m, ({} : ExecResult))) _
    rw [hmap]
    exact onAdd_ends h' (Or.inr ht)
  | orderExecuted => exact onReduce_ends h' hinv' (Or.inl (Or.inl ht)) true
  | orderExecutedPrice => exact onReduce_ends h' hinv' (Or.inl (Or.inr ht)) true
  | orderCancel => exact onReduce_ends h' hinv' (Or.inr ht) false
  | orderDelete =>
    show Ends _ (do pure (← onDelete e m, ({} : ExecResult))) _
    rw [hmap]
    exact onDelete_ends h' hinv' ht
  | orderReplace =>
    show Ends _ (do pure (← onReplace e m, ({} : ExecResult))) _
    rw [hmap]
    exact onReplace_ends h' hinv' ht
  | trade =>
    exact .returns h' (not_endless (by simp [ht]) (by rw [ht]; decide) (by simp [ht]))
  | systemEvent =>
    exact .returns h' (not_endless (by simp [ht]) (by rw [ht]; decide) (by simp [ht]))
  | unknown =>
    exact .returns h' (not_endless (by simp [ht]) (by rw [ht]; decide) (by simp [ht]))

end Handlers

/-! ## Runs of the engine -/

/-- The engine after a sequence of messages, when all of them return. -/
def runs (e : BookEngine OrderRefTable) (ms : List DecodedMessage) :
    Option (BookEngine OrderRefTable) := ms.foldlM (fun e m => (e.apply m).map (·.1.1)) e

/-- An engine whose table stands for a map. -/
def Backed (e : BookEngine OrderRefTable) : Prop := ∃ r, e.refs.Refines r ∧ (e.over r).Inv

theorem Backed.apply {e : BookEngine OrderRefTable} (h : e.Backed) (m : DecodedMessage) :
    ((e.apply m).isSome ↔ ¬e.Endless m) ∧ ∀ x, e.apply m = some x → x.1.1.Backed := by
  obtain ⟨r, href, hinv⟩ := h
  have hends := apply_ends href hinv m
  have hnext := hinv.next m
  unfold next at hnext
  generalize BookEngine.apply e m = x at hends ⊢
  generalize (e.over r).step m = y at hends hnext
  cases hends with
  | loops hl => exact ⟨⟨fun h => (by cases h), fun h => (h hl).elim⟩, fun x hx => (by cases hx)⟩
  | returns hr hl =>
    refine ⟨⟨fun _ => hl, fun _ => rfl⟩, fun x hx => ?_⟩
    cases hx
    exact ⟨_, hr, hnext⟩

/-- Messages that return leave such an engine. Induction on the messages. -/
theorem Backed.runs {e e' : BookEngine OrderRefTable} (h : e.Backed) {ms : List DecodedMessage}
    (hrun : e.runs ms = some e') : e'.Backed := by
  induction ms generalizing e with
  | nil =>
    obtain rfl : e = e' := Option.some.inj hrun
    exact h
  | cons m ms ih =>
    change ((e.apply m).map (·.1.1)).bind (fun e => BookEngine.runs e ms) = _ at hrun
    obtain ⟨e₁, hstep, hrest⟩ := Option.bind_eq_some_iff.mp hrun
    obtain ⟨x, hx, rfl⟩ := Option.map_eq_some_iff.mp hstep
    exact ih ((h.apply m).2 x hx) hrest

/-- **When an erase returns.** Of any reachable table: when the reference is not in it or a slot is
empty. Of any reachable engine: every message returns but one that takes an order out of a full
table. -/
theorem erase_returns_iff {capacity : UInt32} {t₀ : OrderRefTable}
    (hnew : OrderRefTable.new capacity = some t₀) :
    (∀ cs rs t, RefTable.calls t₀ cs = some (rs, t) → ∀ ref,
        (t.EraseReturns ref ↔ t.find ref = none ∨ t.size < t.capacity)
          ∧ ((t.erase ref).isSome ↔ t.EraseReturns ref))
      ∧ ∀ priceLevels ms e, (new priceLevels t₀).runs ms = some e → ∀ m,
        (e.apply m).isSome ↔ ¬e.Endless m := by
  obtain ⟨k, href⟩ := OrderRefTable.refines_new hnew
  refine ⟨fun cs rs t hc ref => ?_, fun priceLevels ms e hrun m => ?_⟩
  · obtain ⟨m, h⟩ := href.calls_some hc
    exact h.eraseReturns_iff ref
  · have hback : (new priceLevels t₀).Backed := ⟨_, href, inv_new priceLevels (2 ^ k)⟩
    exact ((hback.runs hrun).apply m).1

/-- Two slots, one order. -/
theorem erase_returns_iff_two :
    let t := (OrderRefTable.insert (.empty 2) 1 {}).2
    t.EraseReturns 1 ∧ (t.erase 1).isSome := by
  intro t
  have hnew : OrderRefTable.new 2 = some (.empty 2) := rfl
  obtain ⟨hiff, hsome⟩ := (erase_returns_iff hnew).1 [.insert 1 {}] [.inserted true] t rfl 1
  have hret : t.EraseReturns 1 := hiff.mpr (Or.inr (by decide))
  exact ⟨hret, hsome.mpr hret⟩

/-- One slot: the order that fills it cannot be erased, and its Delete does not return. -/
theorem erase_full_endless :
    let t := (OrderRefTable.insert (.empty 1) 1 {}).2
    let add : DecodedMessage :=
      { type := .addOrder, stockLocate := 1, orderRef := 1, price := 10, shares := 10
        side := sideBuy }
    RefTable.calls (.empty 1) [.insert 1 {}] = some ([.inserted true], t) ∧ ¬t.EraseReturns 1
      ∧ ∃ e, (new 100 (.empty 1)).runs [add] = some e
        ∧ e.apply { type := .orderDelete, stockLocate := 1, orderRef := 1 } = none := by
  intro t add
  refine ⟨rfl, fun hret => ?_, _, rfl, ?_⟩
  · obtain ⟨fuel, hs⟩ := hret 0 (by decide)
    have hloop := OrderRefTable.shiftLoop_full fuel (t := t) (i := 0) (j := 0)
      ⟨⟨0, by decide, rfl⟩, rfl⟩ (fun x hx => ?_)
    · rw [hloop] at hs
      cases hs
    · obtain rfl : x = 0 := UInt32.toNat_inj.mp (Nat.lt_one_iff.mp hx)
      decide
  · exact Option.isNone_iff_eq_none.mp (by decide +kernel)

end BookEngine

end ItchOrderbook
