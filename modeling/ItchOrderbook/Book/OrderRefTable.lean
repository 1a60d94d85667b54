import ItchOrderbook.Book.RefMap
import Mathlib.Logic.Function.Basic
import Mathlib.Data.UInt

/-!
# The order-reference table (`class OrderRefTable`, `sw/book/order_ref_table.hpp`)

Open addressing with linear probing over `cap` slots, `cap` a power of two, and deletion by
backward shift. The two vectors are functions of the slot index; every index the code uses is
masked, so it is below `cap`. The probe is the scalar one.

The loop of `erase` has no bound of its own. It runs on fuel here, and `cap` steps of fuel are
enough for it to return if it returns at all: by then it has looked at every slot.
-/

namespace ItchOrderbook

/-- `hash_order_ref`. -/
def hashOrderRef (ref : UInt64) : UInt64 :=
  let ref := (~~~ref) + (ref <<< 21)
  let ref := ref ^^^ (ref >>> 24)
  let ref := (ref + (ref <<< 3)) + (ref <<< 8)
  let ref := ref ^^^ (ref >>> 14)
  let ref := (ref + (ref <<< 2)) + (ref <<< 4)
  let ref := ref ^^^ (ref >>> 28)
  ref + (ref <<< 31)

/-- `OrderRefTable::Stats`. -/
structure ProbeStats where
  probe1 : UInt64 := 0
  probe2 : UInt64 := 0
  probeGt2 : UInt64 := 0
  collisions : UInt64 := 0
  totalInserts : UInt64 := 0
  deriving DecidableEq, Repr

/-- `class OrderRefTable`. A key of 0 marks an empty slot. -/
structure OrderRefTable where
  keys : UInt32 → UInt64
  vals : UInt32 → Value
  cap : UInt32
  mask : UInt32
  size : ℕ := 0
  stats : ProbeStats := {}

namespace OrderRefTable

/-- `while (n < capacity_pow2) n <<= 1`. A capacity above `2 ^ 31` shifts `n` out to 0, and the
loop never ends. -/
def roundUp (capacityPow2 : UInt32) : ℕ → UInt32 → Option UInt32
  | 0, _ => none
  | fuel + 1, n => if n < capacityPow2 then roundUp capacityPow2 fuel (n <<< 1) else some n

/-- `n` empty slots. -/
def empty (n : UInt32) : OrderRefTable :=
  { keys := fun _ => 0, vals := fun _ => {}, cap := n, mask := n - 1 }

/-- `init`, with the capacity rounded up to a power of two. -/
def new (capacityPow2 : UInt32) : Option OrderRefTable := (roundUp capacityPow2 33 1).map empty

/-- `keys_[i] = key; vals_[i] = v`. -/
def write (t : OrderRefTable) (i : UInt32) (key : UInt64) (v : Value) : OrderRefTable :=
  { t with keys := Function.update t.keys i key, vals := Function.update t.vals i v }

/-- The slot where the search for a reference starts. -/
def home (t : OrderRefTable) (ref : UInt64) : UInt32 := (hashOrderRef ref).toUInt32 &&& t.mask

/-- `record_probes`. -/
def recordProbes (s : ProbeStats) (probes : UInt32) : ProbeStats :=
  let s := { s with totalInserts := s.totalInserts + 1 }
  let s :=
    if probes = 1 then { s with probe1 := s.probe1 + 1 }
    else if probes = 2 then { s with probe2 := s.probe2 + 1 }
    else { s with probeGt2 := s.probeGt2 + 1 }
  if probes > 1 then { s with collisions := s.collisions + 1 } else s

/-- How the search of `insert` ends. -/
inductive InsertSlot where
  | empty (i probes : UInt32)
  | present (i : UInt32)
  | full
  deriving DecidableEq, Repr

/-- The loop of `insert`; `left` is how often it may still go round before
`++probes > cap_`. -/
def insertLoop (t : OrderRefTable) (ref : UInt64) : ℕ → UInt32 → UInt32 → InsertSlot
  | 0, _, _ => .full
  | left + 1, i, probes =>
    if t.keys i = 0 then .empty i probes
    else if t.keys i = ref then .present i
    else insertLoop t ref left ((i + 1) &&& t.mask) (probes + 1)

/-- `insert`. -/
def insert (t : OrderRefTable) (ref : UInt64) (v : Value) : Bool × OrderRefTable :=
  if ref = 0 then (false, t)
  else match t.insertLoop ref t.cap.toNat (t.home ref) 1 with
  | .full => (false, t)
  | .present i => (true, { t with vals := Function.update t.vals i v })
  | .empty i probes =>
    (true, { t.write i ref v with size := t.size + 1, stats := recordProbes t.stats probes })

/-- `probe_scalar`, with `left` of its iterations to go. -/
def probeScalar (t : OrderRefTable) (ref : UInt64) : ℕ → UInt32 → Option UInt32
  | 0, _ => none
  | left + 1, i =>
    if t.keys i = ref then some i
    else if t.keys i = 0 then none
    else probeScalar t ref left ((i + 1) &&& t.mask)

/-- `find_index`; `none` is -1. -/
def findIndex (t : OrderRefTable) (ref : UInt64) : Option UInt32 :=
  if ref = 0 then none else t.probeScalar ref (t.cap.toNat + 1) (t.home ref)

/-- `find`. -/
def find (t : OrderRefTable) (ref : UInt64) : Option Value := (t.findIndex ref).map t.vals

/-- A write through the pointer that `find` returned. -/
def store (t : OrderRefTable) (ref : UInt64) (v : Value) : OrderRefTable :=
  match t.findIndex ref with
  | none => t
  | some i => { t with vals := Function.update t.vals i v }

/-- `in_gap`: `k` lies cyclically in `(i, j]`. -/
def inGap (i j k : UInt32) : Bool :=
  if i ≤ j then decide (i < k ∧ k ≤ j) else decide (i < k ∨ k ≤ j)

/-- The loop of `erase`, with the hole at `i` and the scan at `j`: the table and the hole it
ends with. -/
def shiftLoop : ℕ → OrderRefTable → UInt32 → UInt32 → Option (OrderRefTable × UInt32)
  | 0, _, _, _ => none
  | fuel + 1, t, i, j =>
    let j := (j + 1) &&& t.mask
    if t.keys j = 0 then some (t, i)
    else if inGap i j (t.home (t.keys j)) then shiftLoop fuel t i j
    else shiftLoop fuel (t.write i (t.keys j) (t.vals j)) j j

/-- `erase`; `none` when the loop does not return. -/
def erase (t : OrderRefTable) (ref : UInt64) : Option (Bool × OrderRefTable) :=
  match t.findIndex ref with
  | none => some (false, t)
  | some found =>
    match shiftLoop t.cap.toNat t found found with
    | none => none
    | some (t, i) => some (true, { t.write i 0 {} with size := t.size - 1 })

instance : RefTable OrderRefTable Option where
  find := find
  insert := insert
  store := store
  erase := erase
  size := size

end OrderRefTable

end ItchOrderbook
