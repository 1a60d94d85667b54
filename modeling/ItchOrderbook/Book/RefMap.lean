import ItchOrderbook.Lib.FinmapTotal

/-!
# The order-reference store, abstractly

A modify message names an order by its 64-bit reference only; the store answers what that
order was. `RefTable` is what the rest of the program uses of such a store, and `RefMap` is
its meaning: a finite map of bounded capacity from nonzero references to resting orders.

Erasing runs in a monad `M`, since the open-addressing table's backward-shift loop need not
return; for the finite map `M` is `Id`.
-/

namespace ItchOrderbook

/-- What the store keeps of a resting order (`OrderRefTable::Value`, less its padding). -/
structure Value where
  price : UInt32 := 0
  shares : UInt32 := 0
  locate : UInt16 := 0
  side : UInt8 := 0
  deriving DecidableEq, Repr

/-- The live orders by reference. -/
abbrev LiveOrders := Finmap fun _ : UInt64 => Value

/-- The interface of the order-reference store. `store` is a write through the pointer that
`find` returned. -/
class RefTable (T : Type) (M : outParam (Type → Type)) where
  find : T → UInt64 → Option Value
  insert : T → UInt64 → Value → Bool × T
  store : T → UInt64 → Value → T
  erase : T → UInt64 → M (Bool × T)
  size : T → ℕ

namespace RefTable

/-- A call on the store. -/
inductive Call where
  | insert (ref : UInt64) (v : Value)
  | find (ref : UInt64)
  | erase (ref : UInt64)
  deriving DecidableEq, Repr

def Call.isErase : Call → Bool
  | .erase _ => true
  | _ => false

/-- What a call returns. -/
inductive Reply where
  | inserted (ok : Bool)
  | found (v : Option Value)
  | erased (ok : Bool)
  deriving DecidableEq, Repr

variable {T : Type} {M : Type → Type} [Monad M] [RefTable T M]

/-- One call: what it returns, and the store after it. -/
def call (t : T) : Call → M (Reply × T)
  | .insert ref v => let (ok, t) := insert t ref v; pure (.inserted ok, t)
  | .find ref => pure (.found (find t ref), t)
  | .erase ref => do
    let (ok, t) ← erase t ref
    pure (.erased ok, t)

/-- A sequence of calls. -/
def calls (t : T) : List Call → M (List Reply × T)
  | [] => pure ([], t)
  | c :: cs => do
    let (r, t) ← call t c
    let (rs, t) ← calls t cs
    pure (r :: rs, t)

end RefTable

/-- A finite map of bounded capacity from nonzero references to resting orders. -/
structure RefMap where
  capacity : ℕ
  live : LiveOrders
  zero_notMem : (0 : UInt64) ∉ live
  size_le : live.size ≤ capacity

namespace RefMap

/-- The empty store. -/
def new (capacity : ℕ) : RefMap :=
  ⟨capacity, ∅, Finmap.notMem_empty, Nat.zero_le _⟩

def find (r : RefMap) (ref : UInt64) : Option Value := r.live.lookup ref

def size (r : RefMap) : ℕ := r.live.size

/-- Rebind a live reference. -/
def overwrite (r : RefMap) (ref : UInt64) (v : Value) (h : ref ∈ r.live) : RefMap where
  capacity := r.capacity
  live := r.live.insert ref v
  zero_notMem := by
    rw [Finmap.mem_insert, not_or]
    exact ⟨fun h0 => r.zero_notMem (h0 ▸ h), r.zero_notMem⟩
  size_le := by
    obtain ⟨b, hb⟩ := Finmap.mem_iff.mp h
    rw [Finmap.size_insert_of_lookup v hb]
    exact r.size_le

/-- Bind a fresh nonzero reference while there is room. -/
def add (r : RefMap) (ref : UInt64) (v : Value) (h0 : ref ≠ 0) (h : ref ∉ r.live)
    (hroom : r.live.size < r.capacity) : RefMap where
  capacity := r.capacity
  live := r.live.insert ref v
  zero_notMem := by
    rw [Finmap.mem_insert, not_or]
    exact ⟨fun h0' => h0 h0'.symm, r.zero_notMem⟩
  size_le := by
    rw [Finmap.size_insert_of_notMem v h]
    exact hroom

/-- Insert or overwrite; `false` for the reserved reference 0 and for a fresh reference when
the map is full. -/
def insert (r : RefMap) (ref : UInt64) (v : Value) : Bool × RefMap :=
  if h0 : ref = 0 then (false, r)
  else if h : ref ∈ r.live then (true, r.overwrite ref v h)
  else if hroom : r.live.size < r.capacity then (true, r.add ref v h0 h hroom)
  else (false, r)

def store (r : RefMap) (ref : UInt64) (v : Value) : RefMap :=
  if h : ref ∈ r.live then r.overwrite ref v h else r

/-- Remove a reference; `true` when it was live. -/
def erase (r : RefMap) (ref : UInt64) : Bool × RefMap :=
  (decide (ref ∈ r.live),
   { capacity := r.capacity
     live := r.live.erase ref
     zero_notMem := fun h => r.zero_notMem (Finmap.mem_erase.mp h).2
     size_le := (Finmap.size_erase_le _ _).trans r.size_le })

instance : RefTable RefMap Id where
  find := find
  insert := insert
  store := store
  erase := erase
  size := size

@[simp] theorem refTable_find (r : RefMap) (ref : UInt64) :
    RefTable.find r ref = r.find ref := rfl
@[simp] theorem refTable_insert (r : RefMap) (ref : UInt64) (v : Value) :
    RefTable.insert r ref v = r.insert ref v := rfl
@[simp] theorem refTable_store (r : RefMap) (ref : UInt64) (v : Value) :
    RefTable.store r ref v = r.store ref v := rfl
@[simp] theorem refTable_erase (r : RefMap) (ref : UInt64) :
    RefTable.erase r ref = (pure (r.erase ref) : Id (Bool × RefMap)) := rfl

/-! ## The operations as maps -/

@[ext] theorem ext {r s : RefMap} (hc : r.capacity = s.capacity) (hl : r.live = s.live) :
    r = s := by
  cases r; cases s; cases hc; cases hl; rfl

@[simp] theorem live_new (capacity : ℕ) : (new capacity).live = ∅ := rfl

theorem find_zero (r : RefMap) : r.find 0 = none :=
  Finmap.lookup_eq_none.mpr r.zero_notMem

theorem mem_live_of_find {r : RefMap} {ref : UInt64} {v : Value} (h : r.find ref = some v) :
    ref ∈ r.live := Finmap.mem_iff.mpr ⟨v, h⟩

theorem notMem_live_of_find {r : RefMap} {ref : UInt64} (h : r.find ref = none) :
    ref ∉ r.live := Finmap.lookup_eq_none.mp h

@[simp] theorem live_erase (r : RefMap) (ref : UInt64) :
    (r.erase ref).2.live = r.live.erase ref := rfl

@[simp] theorem capacity_erase (r : RefMap) (ref : UInt64) :
    (r.erase ref).2.capacity = r.capacity := rfl

theorem live_store {r : RefMap} {ref : UInt64} {v : Value} (w : Value)
    (h : r.find ref = some v) : (r.store ref w).live = r.live.insert ref w := by
  simp [store, mem_live_of_find h, overwrite]

@[simp] theorem capacity_store (r : RefMap) (ref : UInt64) (w : Value) :
    (r.store ref w).capacity = r.capacity := by
  unfold store
  split <;> rfl

/-- Erasing forgets what was stored just before. -/
theorem erase_live_store (r : RefMap) (ref : UInt64) (w : Value) :
    (r.store ref w).live.erase ref = r.live.erase ref := by
  unfold store
  split
  · exact Finmap.erase_insert_self r.live ref w
  · rfl

theorem insert_zero (r : RefMap) (v : Value) : r.insert 0 v = (false, r) := by
  simp [insert]

theorem insert_of_mem {r : RefMap} {ref : UInt64} (h : ref ∈ r.live) (v : Value) :
    r.insert ref v = (true, r.overwrite ref v h) := by
  have h0 : ref ≠ 0 := fun e => r.zero_notMem (e ▸ h)
  simp [insert, h0, h]

theorem insert_of_room {r : RefMap} {ref : UInt64} (h0 : ref ≠ 0) (h : ref ∉ r.live)
    (hroom : r.live.size < r.capacity) (v : Value) :
    r.insert ref v = (true, r.add ref v h0 h hroom) := by
  simp [insert, h0, h, hroom]

theorem insert_of_full {r : RefMap} {ref : UInt64} (h : ref ∉ r.live)
    (hfull : r.live.size = r.capacity) (v : Value) : r.insert ref v = (false, r) := by
  simp [insert, h, hfull]

@[simp] theorem capacity_insert (r : RefMap) (ref : UInt64) (v : Value) :
    (r.insert ref v).2.capacity = r.capacity := by
  unfold insert
  repeat' split
  all_goals rfl

/-- No call changes the capacity. -/
theorem capacity_calls (r : RefMap) (cs : List RefTable.Call) :
    (RefTable.calls r cs : Id (List RefTable.Reply × RefMap)).2.capacity = r.capacity := by
  induction cs generalizing r with
  | nil => rfl
  | cons c cs ih =>
    cases c with
    | insert ref v => exact (ih _).trans (r.capacity_insert ref v)
    | find ref => exact ih r
    | erase ref => exact (ih _).trans (r.capacity_erase ref)

/-- When an insertion is refused. -/
theorem insert_eq_false_iff (r : RefMap) (ref : UInt64) (v : Value) :
    (r.insert ref v).1 = false ↔ ref = 0 ∨ (r.find ref = none ∧ r.size = r.capacity) := by
  by_cases h0 : ref = 0
  · simp [h0, insert_zero]
  cases hf : r.find ref with
  | some w => simp [insert_of_mem (Finmap.mem_iff.mpr ⟨w, hf⟩), h0]
  | none =>
    have hmem : ref ∉ r.live := Finmap.lookup_eq_none.mp hf
    rcases Nat.lt_or_eq_of_le r.size_le with hlt | heq
    · simp [insert_of_room h0 hmem hlt, h0, size, hlt.ne]
    · simp [insert_of_full hmem heq, h0, size, heq]

theorem erase_of_notMem {r : RefMap} {ref : UInt64} (h : ref ∉ r.live) :
    r.erase ref = (false, r) := by
  have hl := Finmap.erase_of_lookup_eq_none (Finmap.lookup_eq_none.mpr h)
  simp [erase, h, hl]

/-- Inserting a fresh nonzero reference succeeds exactly when there is room. -/
theorem insert_fst_of_fresh {r : RefMap} {ref : UInt64} (v : Value) (h0 : ref ≠ 0)
    (h : r.find ref = none) : (r.insert ref v).1 = decide (r.live.size < r.capacity) := by
  simp only [insert, h0, notMem_live_of_find h, dite_false]
  split <;> simp_all

/-- What a successful insertion of a fresh reference leaves. -/
theorem insert_snd_of_fresh {r : RefMap} {ref : UInt64} {v : Value}
    (h : r.find ref = none) (hok : (r.insert ref v).1 = true) :
    (r.insert ref v).2.live = r.live.insert ref v
      ∧ (r.insert ref v).2.capacity = r.capacity := by
  have hmem := notMem_live_of_find h
  unfold insert at hok ⊢
  split at hok
  · cases hok
  · rename_i h0
    simp only [h0, hmem, dite_false] at hok ⊢
    split at hok
    · rename_i hroom
      simp [hroom, add]
    · cases hok

/-- A refused insertion leaves the map as it was. -/
theorem insert_snd_of_false {r : RefMap} {ref : UInt64} {v : Value}
    (hok : (r.insert ref v).1 = false) : (r.insert ref v).2 = r := by
  unfold insert at hok ⊢
  split at hok
  · rename_i h0; simp [h0]
  · rename_i h0
    split at hok
    · cases hok
    · rename_i h
      split at hok
      · cases hok
      · rename_i hroom; simp [h0, h, hroom]

/-- A map that has just lost a live reference has room. -/
theorem size_erase_lt {r : RefMap} {ref : UInt64} {v : Value} (h : r.find ref = some v) :
    (r.erase ref).2.live.size < (r.erase ref).2.capacity := by
  have := Finmap.size_erase (show r.live.lookup ref = some v from h)
  have := r.size_le
  simp only [live_erase, capacity_erase]
  omega

end RefMap

end ItchOrderbook
