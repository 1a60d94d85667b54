import ItchOrderbook.Rtl.Package
import Mathlib.Logic.Function.Basic

/-!
# Order-reference hash table (`rtl/order_ref_table.sv`)

Open addressing with linear probing, one probe a cycle. A deletion leaves a tombstone, which a
search walks past; an insertion reuses the first tombstone it has seen. The memory reads
asynchronously, as written.
-/

namespace ItchOrderbook.Rtl

/-- `order_entry_t`. -/
structure OrderEntry where
  valid : Bool := false
  tomb : Bool := false
  isBid : Bool := false
  locate : UInt16 := 0
  shares : UInt32 := 0
  price : UInt32 := 0
  oref : UInt64 := 0
  deriving DecidableEq, Repr

/-- `OP_INSERT`, `OP_LOOKUP`, `OP_DELETE`. -/
inductive TblOp where
  | insert
  | lookup
  | delete
  deriving DecidableEq, Repr

/-- The command inputs, `cmd_op` to `cmd_locate`; also the registers `op_q` to `locate_q` they are
latched in. -/
structure TblCmd where
  op : TblOp := .insert
  unique : Bool := false
  ref : UInt64 := 0
  price : UInt32 := 0
  shares : UInt32 := 0
  isBid : Bool := false
  locate : UInt16 := 0
  deriving DecidableEq, Repr

/-- `ins_entry`: the entry every INSERT writes. -/
def TblCmd.insEntry (q : TblCmd) : OrderEntry where
  valid := true
  isBid := q.isBid
  locate := q.locate
  shares := q.shares
  price := q.price
  oref := q.ref

/-- `tomb_entry`. -/
def tombEntry : OrderEntry := { tomb := true }

/-- `state_t` of the table. -/
inductive TblPhase where
  | idle
  | hash
  | home
  | probe
  | done
  deriving DecidableEq, Repr

/-- The registers and the memory of the table. -/
structure OrderRefTableState (c : Build) where
  mem : BitVec c.hashW → OrderEntry := fun _ => {}
  state : TblPhase := .idle
  q : TblCmd := {}
  idx : BitVec c.hashW := 0
  hash : BitVec c.hashW := 0
  probes : UInt32 := 0
  haveTomb : Bool := false
  tombIdx : BitVec c.hashW := 0
  done : Bool := false
  resFound : Bool := false
  resPrice : UInt32 := 0
  resShares : UInt32 := 0
  resIsBid : Bool := false
  resLocate : UInt16 := 0
  lkProbe1 : Bool := false
  lkProbe2 : Bool := false
  lkProbeGt2 : Bool := false
  insFailCount : UInt32 := 0

namespace OrderRefTableState

variable {c : Build}

/-- The result registers of a match. -/
def withResult (t : OrderRefTableState c) (e : OrderEntry) : OrderRefTableState c :=
  { t with
    resFound := true, resPrice := e.price, resShares := e.shares, resIsBid := e.isBid
    resLocate := e.locate }

/-- `mem[i] <= e`. -/
def write (t : OrderRefTableState c) (i : BitVec c.hashW) (e : OrderEntry) :
    OrderRefTableState c := { t with mem := Function.update t.mem i e }

/-- The probe-depth pulses of a LOOKUP that ends in this cycle. -/
def withProbes (t : OrderRefTableState c) (op : TblOp) (probes : UInt32) : OrderRefTableState c :=
  if op = .lookup then
    { t with
      lkProbe1 := probes = 1, lkProbe2 := probes = 2, lkProbeGt2 := probes > 2 }
  else t

/-- `S_PROBE` of an INSERT, over the state with the pulses cleared. -/
def probeInsert (t n : OrderRefTableState c) : OrderRefTableState c :=
  let cur := t.mem t.idx
  if cur.valid ∧ cur.oref = t.q.ref then
    -- adds require a new reference; modify traffic updates it in place
    if t.q.unique then { n with resFound := false, state := .done }
    else { n.write t.idx t.q.insEntry with resFound := true, state := .done }
  else if !cur.valid ∧ !cur.tomb then
    { n.write (if t.haveTomb then t.tombIdx else t.idx) t.q.insEntry with
      resFound := true, state := .done }
  else
    let n :=
      if cur.tomb ∧ !t.haveTomb then { n with haveTomb := true, tombIdx := t.idx } else n
    let n := { n with idx := t.idx + 1, probes := t.probes + 1 }
    if maxProbe ≤ t.probes.toNat then
      if t.haveTomb then
        { n.write t.tombIdx t.q.insEntry with resFound := true, state := .done }
      else
        -- `res_found` keeps what the previous command left in it
        { n with insFailCount := t.insFailCount + 1, state := .done }
    else n

/-- `S_PROBE` of a LOOKUP or DELETE, over the state with the pulses cleared. -/
def probeFind (t n : OrderRefTableState c) : OrderRefTableState c :=
  let cur := t.mem t.idx
  if cur.valid ∧ cur.oref = t.q.ref then
    let n := n.withResult cur
    let n := if t.q.op = .delete then n.write t.idx tombEntry else n
    { n.withProbes t.q.op t.probes with state := .done }
  else if !cur.valid ∧ !cur.tomb then
    { ({ n with resFound := false } : OrderRefTableState c).withProbes t.q.op t.probes with
      state := .done }
  else
    let n := { n with idx := t.idx + 1, probes := t.probes + 1 }
    if maxProbe ≤ t.probes.toNat then { n with resFound := false, state := .done } else n

/-- `done` and the probe-depth pulses deasserted, as every cycle begins. -/
def clearPulses (t : OrderRefTableState c) : OrderRefTableState c :=
  { t with done := false, lkProbe1 := false, lkProbe2 := false, lkProbeGt2 := false }

/-- `rst`. Neither the memory nor the request registers are reset. -/
def reset (t : OrderRefTableState c) : OrderRefTableState c :=
  { t.clearPulses with state := .idle, resFound := false, insFailCount := 0 }

/-- One clock edge without `rst`. -/
def step (t : OrderRefTableState c) (cmdValid : Bool) (cmd : TblCmd) : OrderRefTableState c :=
  let n := t.clearPulses
  match t.state with
  | .idle => if cmdValid then { n with q := cmd, state := .hash } else n
  | .hash => { n with hash := hashRef c t.q.ref, state := .home }
  | .home => { n with idx := t.hash, probes := 1, haveTomb := false, state := .probe }
  | .probe => if t.q.op = .insert then t.probeInsert n else t.probeFind n
  | .done => { n with done := true, state := .idle }

/-- `busy`. -/
def busy (t : OrderRefTableState c) : Bool := t.state != .idle

end OrderRefTableState

end ItchOrderbook.Rtl
