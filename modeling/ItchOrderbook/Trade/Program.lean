import Mathlib.Data.Int.Notation
import Mathlib.Data.Nat.Notation
import Mathlib.Logic.Function.Basic

/-!
# Strategy bytecode (`struct Program`, `sw/trade/program.hpp`, `.cpp`)

The loader of OBP1 files: a little-endian reader with bounds checks, and the semantic
validation. Constants and defaults are kept as the bits of the `float`s they are; names as the
bytes they are made of. Errors are the texts the source throws.
-/

namespace ItchOrderbook

/-- `enum Op`. -/
inductive Op where
  | pushConst | pushParam | pushSeries | pushSeriesLag
  | pushCtx | load | store
  | add | sub | mul | div | neg
  | abs | min2 | max2 | sqrt | log
  | gt | lt | ge | le | eq | ne
  | and | or | not
  | sma | ema | rsi | atr | highest | lowest | stddev
  | delay | crossover | crossunder
  | smaRaw | highestRaw | lowestRaw | stddevRaw | delayRaw
  | sigEl | sigXl | sigEs | sigXs
  | setStop | setTp | setTrail | setSize
  | halt
  deriving DecidableEq, Repr

namespace Op

/-- The operations in the order of their numbers. -/
def all : List Op :=
  [pushConst, pushParam, pushSeries, pushSeriesLag, pushCtx, load, store,
    add, sub, mul, div, neg, abs, min2, max2, sqrt, log,
    gt, lt, ge, le, eq, ne, and, or, not,
    sma, ema, rsi, atr, highest, lowest, stddev, delay, crossover, crossunder,
    smaRaw, highestRaw, lowestRaw, stddevRaw, delayRaw,
    sigEl, sigXl, sigEs, sigXs, setStop, setTp, setTrail, setSize, halt]

/-- The operation with a number, none from `OP_COUNT` on. -/
def ofCode (n : UInt32) : Option Op := all[n.toNat]?

/-- `required_stack`. -/
def requiredStack : Op → ℤ
  | pushConst | pushParam | pushSeries | pushSeriesLag | pushCtx | load | halt => 0
  | store | neg | abs | sqrt | log | atr | smaRaw | highestRaw | lowestRaw | stddevRaw | delayRaw
  | sigEl | sigXl | sigEs | sigXs | setStop | setTp | setTrail | setSize | not => 1
  | _ => 2

/-- `stack_delta`. -/
def stackDelta : Op → ℤ
  | pushConst | pushParam | pushSeries | pushSeriesLag | pushCtx | load => 1
  | store | sigEl | sigXl | sigEs | sigXs | setStop | setTp | setTrail | setSize => -1
  | add | sub | mul | div | min2 | max2 | gt | lt | ge | le | eq | ne | and | or
  | sma | ema | rsi | highest | lowest | stddev | delay | crossover | crossunder => -1
  | _ => 0

end Op

/-! ## State kinds -/

def skEma : Int32 := 0
def skWilder1 : Int32 := 1
def skWilder2 : Int32 := 2
def skRing : Int32 := 3
def skPrev2 : Int32 := 4
def skRaw : Int32 := 5

/-- `expected_state_kind`, none for -1. -/
def Op.expectedStateKind : Op → Option Int32
  | .ema => some skEma
  | .atr => some skWilder1
  | .rsi => some skWilder2
  | .sma | .highest | .lowest | .stddev | .delay => some skRing
  | .crossover | .crossunder => some skPrev2
  | .smaRaw | .highestRaw | .lowestRaw | .stddevRaw | .delayRaw => some skRaw
  | _ => none

def vmMaxStack : UInt32 := 32
def vmMaxCode : UInt32 := 6144
def vmMaxStateFloats : UInt32 := 8192
def vmMaxWindow : Int32 := 4096
def nSeries : UInt32 := 5
def nCtx : UInt32 := 4

/-- `struct Program`. -/
structure Program where
  code : List UInt32 := []
  consts : List UInt32 := []
  stateKind : List Int32 := []
  stateOff : List Int32 := []
  stateCap : List Int32 := []
  stateAux : List Int32 := []
  paramDefaults : List UInt32 := []
  paramNames : List (List UInt8) := []
  nLocals : UInt32 := 0
  stateFloats : UInt32 := 0
  maxStack : UInt32 := 0
  deriving DecidableEq, Repr

/-- The number of an instruction's operation. -/
def opCode (ins : UInt32) : UInt32 := ins >>> 24

/-- The operand of an instruction. -/
def operand (ins : UInt32) : UInt32 := ins &&& 0xFFFFFF

/-- `fail`, with the text formatted. -/
def fail {α : Type} (text : String) : Except String α := .error s!"obp1: {text}"

/-- `if (bad) fail(text)`. -/
def failIf (bad : Prop) [Decidable bad] (text : String) : Except String Unit :=
  if bad then fail text else return

/-! ## The reader (`struct Reader`) -/

/-- A function of the reader, over the bytes left. -/
abbrev Reader := StateT (List UInt8) (Except String)

namespace Reader

def need (n : ℕ) (what : String) : Reader Unit := do
  failIf ((← get).length < n) s!"truncated at {what}"

/-- Reading past the end of the input, which no text of the source stands for. -/
def overrun : String := "read past the end"

/-- The bytes taken off the front. Copying more than there are is undefined in the source; here
it is a failure of its own. -/
def take (n : ℕ) : Reader (List UInt8) := do
  let p ← get
  if p.length < n then throw overrun
  set (p.drop n)
  pure (p.take n)

/-- Bytes in memory as an integer, the first one lowest. -/
def littleEndian : List UInt8 → UInt32
  | [] => 0
  | b :: bs => b.toUInt32 ||| littleEndian bs <<< 8

def u32 (what : String) : Reader UInt32 := do
  need 4 what
  return littleEndian (← take 4)

def u16 (what : String) : Reader UInt32 := do
  need 2 what
  return littleEndian (← take 2)

/-- `n` elements of four bytes each. -/
def elements : ℕ → List UInt8 → List UInt32
  | 0, _ => []
  | n + 1, p => littleEndian (p.take 4) :: elements n (p.drop 4)

/-- `array`: the size is checked before it is multiplied. -/
def array (n : UInt32) (what : String) : Reader (List UInt32) := do
  failIf (n.toNat > (← get).length / 4) s!"truncated at {what}"
  need (n.toNat * 4) what
  return elements n.toNat (← take (n.toNat * 4))

/-- An array of `int32_t`. -/
def intArray (n : UInt32) (what : String) : Reader (List Int32) := do
  return (← array n what).map UInt32.toInt32

/-- The loop over the parameter names. -/
def names : ℕ → Reader (List (List UInt8))
  | 0 => pure []
  | n + 1 => do
    let ln ← u16 "param name len"
    need ln.toNat "param name"
    let name ← take ln.toNat
    return name :: (← names n)

end Reader

namespace Program

/-- The counts in the header that are not kept. -/
structure Counts where
  nCode : UInt32
  nConsts : UInt32
  nState : UInt32
  nParams : UInt32
  deriving DecidableEq, Repr

/-- The header. -/
def readHeader : Reader (Counts × Program) := do
  Reader.need 4 "magic"
  let magic ← Reader.take 4
  failIf (magic ≠ ['O'.toUInt8, 'B'.toUInt8, 'P'.toUInt8, '1'.toUInt8]) "bad magic"
  let version ← Reader.u32 "version"
  failIf (version ≠ 1) s!"unsupported version {version}"
  let nCode ← Reader.u32 "n_code"
  let nConsts ← Reader.u32 "n_consts"
  let nState ← Reader.u32 "n_state"
  let nParams ← Reader.u32 "n_params"
  let nLocals ← Reader.u32 "n_locals"
  let stateFloats ← Reader.u32 "state_floats"
  let maxStack ← Reader.u32 "max_stack"
  return (⟨nCode, nConsts, nState, nParams⟩, { nLocals, stateFloats, maxStack })

/-- The limits on what the header announces. -/
def checkHeader (c : Counts) (prog : Program) : Except String Unit := do
  failIf (prog.maxStack > vmMaxStack) s!"max_stack {prog.maxStack} exceeds VM limit {vmMaxStack}"
  failIf (c.nCode = 0) "empty code"
  failIf (c.nCode > vmMaxCode) s!"code size {c.nCode} exceeds VM limit {vmMaxCode}"
  failIf (prog.stateFloats > vmMaxStateFloats)
    s!"state_floats {prog.stateFloats} exceeds VM limit {vmMaxStateFloats}"
  failIf (c.nParams > 65535) s!"parameter count {c.nParams} exceeds limit 65535"

/-- The arrays and the names. -/
def readBody (c : Counts) (prog : Program) : Reader Program := do
  let code ← Reader.array c.nCode "code"
  let consts ← Reader.array c.nConsts "consts"
  let stateKind ← Reader.intArray c.nState "state_kind"
  let stateOff ← Reader.intArray c.nState "state_off"
  let stateCap ← Reader.intArray c.nState "state_cap"
  let stateAux ← Reader.intArray c.nState "state_aux"
  let paramDefaults ← Reader.array c.nParams "param_defaults"
  let paramNames ← Reader.names c.nParams.toNat
  return { prog with
    code, consts, stateKind, stateOff, stateCap, stateAux, paramDefaults, paramNames }

/-! ## Semantic validation -/

/-- `state_size`: the floats a slot needs in the state block. -/
def stateSize (kind cap : Int32) : Except String UInt32 := do
  failIf ((kind = skRing ∨ kind = skRaw) ∧ (cap ≤ 0 ∨ cap > vmMaxWindow))
    s!"bad state cap {cap.toUInt32} for kind {kind.toUInt32}"
  if kind = skEma then return 2
  else if kind = skWilder1 then return 2
  else if kind = skWilder2 then return 4
  else if kind = skRing then return 1 + cap.toUInt32
  else if kind = skPrev2 then return 3
  else if kind = skRaw then return 0
  else fail s!"bad state kind {kind.toUInt32} (cap {cap.toUInt32})"

/-- The loop that marks the offsets of slot `i`, from `off` on. -/
def markSlot (i : ℕ) : (size : ℕ) → (off : UInt32) → (ℕ → Bool) → Except String (ℕ → Bool)
  | 0, _, occupied => return occupied
  | size + 1, off, occupied => do
    failIf (occupied off.toNat) s!"state slot {i} overlaps offset {off}"
    markSlot i size (off + 1) (Function.update occupied off.toNat true)

/-- The checks of state slot `i`. -/
def checkSlot (prog : Program) (i : ℕ) (occupied : ℕ → Bool) : Except String (ℕ → Bool) := do
  let kind := prog.stateKind.getD i 0
  let off := prog.stateOff.getD i 0
  let aux := prog.stateAux.getD i 0
  let size ← stateSize kind (prog.stateCap.getD i 0)
  failIf (off < 0 ∨ off.toUInt32 + size > prog.stateFloats)
    s!"state slot {i} overruns state_floats {prog.stateFloats}"
  let occupied ← markSlot i size.toNat off.toUInt32 occupied
  failIf (kind = skRaw ∧ aux.toUInt32 >>> 16 ≥ nSeries)
    s!"state slot {i} has bad raw series {aux.toUInt32 >>> 16}"
  return occupied

/-- The loop over the slots from `i` on. -/
def checkSlots (prog : Program) : (todo i : ℕ) → (ℕ → Bool) → Except String Unit
  | 0, _, _ => return
  | todo + 1, i, occupied => do
    let occupied ← checkSlot prog i occupied
    checkSlots prog todo (i + 1) occupied

/-- `std::isfinite` on the bits of a `float`. -/
def isfinite (bits : UInt32) : Bool := bits >>> 23 &&& 0xFF != 0xFF

/-- A loop over `float`s that all have to be finite, from index `i` on. -/
def checkFinite (text : ℕ → String) : (i : ℕ) → List UInt32 → Except String Unit
  | _, [] => return
  | i, x :: xs => do
    failIf (isfinite x = false) (text i)
    checkFinite text (i + 1) xs

def checkConsts : List UInt32 → Except String Unit :=
  checkFinite (fun i => s!"const {i} is not finite") 0

def checkDefaults : List UInt32 → Except String Unit :=
  checkFinite (fun i => s!"param {i} default is not finite") 0

/-- The operand of instruction `i`. -/
def checkOperand (prog : Program) (c : Counts) (i : ℕ) (op : Op) (arg : UInt32) :
    Except String Unit :=
  match op with
  | .pushConst => failIf (arg ≥ c.nConsts) s!"op {i}: const {arg} out of range"
  | .pushParam => failIf (arg ≥ c.nParams) s!"op {i}: param {arg} out of range"
  | .pushSeries => failIf (arg ≥ nSeries) s!"op {i}: series {arg} out of range"
  | .pushSeriesLag => failIf (arg >>> 16 ≥ nSeries) s!"op {i}: lag series {arg >>> 16} out of range"
  | .pushCtx => failIf (arg ≥ nCtx) s!"op {i}: ctx {arg} out of range"
  | .load | .store => failIf (arg ≥ prog.nLocals) s!"op {i}: local {arg} out of range"
  | .sma | .ema | .rsi | .atr | .highest | .lowest | .stddev | .delay | .crossover | .crossunder
  | .smaRaw | .highestRaw | .lowestRaw | .stddevRaw | .delayRaw =>
    failIf (arg ≥ c.nState) s!"op {i}: state slot {arg} out of range"
  | _ => return

/-- The check of a state slot's kind. -/
def checkKind (prog : Program) (i : ℕ) (op : Op) (arg : UInt32) : Except String Unit :=
  match op.expectedStateKind with
  | some expected =>
    failIf (prog.stateKind.getD arg.toNat 0 ≠ expected) s!"op {i}: state kind mismatch at slot {arg}"
  | none => return

/-- The checks of instruction `i`, with the depth before it and the largest depth so far. -/
def checkInstr (prog : Program) (c : Counts) (i : ℕ) (ins : UInt32) (depth observedMax : ℤ) :
    Except String (ℤ × ℤ) :=
  let arg := operand ins
  match Op.ofCode (opCode ins) with
  | none => fail s!"op {i}: bad opcode {opCode ins}"
  | some op => do
    checkOperand prog c i op arg
    checkKind prog i op arg
    failIf (depth < op.requiredStack) s!"op {i}: stack underflow (needs {op.requiredStack})"
    let depth := depth + op.stackDelta
    failIf (depth > vmMaxStack.toNat) s!"op {i}: stack depth exceeds {vmMaxStack}"
    let observedMax := if depth > observedMax then depth else observedMax
    failIf (op = .halt ∧ i + 1 ≠ c.nCode.toNat)
      s!"op {i}: HALT must be final (code size {c.nCode})"
    return (depth, observedMax)

/-- The loop over the code from instruction `i` on: the final depth and the largest one. -/
def checkCode (prog : Program) (c : Counts) :
    (i : ℕ) → List UInt32 → (depth observedMax : ℤ) → Except String (ℤ × ℤ)
  | _, [], depth, observedMax => return (depth, observedMax)
  | i, ins :: code, depth, observedMax => do
    let (depth, observedMax) ← checkInstr prog c i ins depth observedMax
    checkCode prog c (i + 1) code depth observedMax

/-- Everything after the last byte is read. -/
def validate (c : Counts) (prog : Program) : Except String Unit := do
  checkSlots prog c.nState.toNat 0 fun _ => false
  checkConsts prog.consts
  checkDefaults prog.paramDefaults
  failIf (Op.ofCode (opCode (prog.code.getLastD 0)) ≠ some .halt) "code does not end in HALT"
  let (depth, observedMax) ← checkCode prog c 0 prog.code 0 0
  failIf (depth ≠ 0) s!"final stack depth {UInt32.ofInt depth} (expected 0)"
  failIf (prog.maxStack ≠ UInt32.ofInt observedMax)
    s!"max_stack {prog.maxStack} does not match observed {UInt32.ofInt observedMax}"

/-- `Program::parse`. -/
def parse (bytes : List UInt8) : Except String Program := do
  let ((c, prog), p) ← readHeader.run bytes
  checkHeader c prog
  let (prog, p) ← (readBody c prog).run p
  failIf (p.length ≠ 0) s!"{UInt32.ofNat p.length} trailing bytes"
  validate c prog
  return prog

end Program

end ItchOrderbook
