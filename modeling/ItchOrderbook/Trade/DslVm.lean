import ItchOrderbook.Trade.BarBuilder
import ItchOrderbook.Trade.FloatOps
import ItchOrderbook.Trade.Program

/-!
# The strategy VM (`class StrategyVM`, `sw/trade/dsl_vm.hpp`, `.cpp`)

One call of `step` runs the bytecode once for a completed bar. The source indexes raw arrays; the
model checks every index, so that a run that returns is one whose accesses were all in range and
a run that fails names the array. The stack is the part of `stack` below `sp`, top first, so `sp`
is its length; `limit` is the number of cells it may use, which is `VM_MAX_STACK` in `step`.
`int` is `ℤ`: window operands are assumed to convert.
-/

namespace ItchOrderbook

open FloatOps

/-- An access out of range, by the array it was made to. -/
inductive Fault where
  | stackUnderflow | stackOverflow
  | constant | param | seriesId | bar | local | slot | state
  deriving DecidableEq, Repr

/-- `struct Signals`. -/
structure Signals (F : Type) where
  el : Bool
  xl : Bool
  es : Bool
  xs : Bool
  stop : F
  tp : F
  trail : F
  size : F
  deriving DecidableEq, Repr

/-- What `Signals sig;` starts from. -/
def Signals.initial {F : Type} [FloatOps F] : Signals F where
  el := false
  xl := false
  es := false
  xs := false
  stop := zero
  tp := zero
  trail := zero
  size := one

/-- `struct VmCtx`. -/
structure VmCtx (F : Type) where
  position : F
  entryPx : F
  equity : F

/-- What the instructions of one `step` work on. -/
structure Machine (F : Type) where
  stack : List F
  sig : Signals F
  state : List F
  locals : List F
  deriving DecidableEq, Repr

/-- The stack pointer. -/
def Machine.sp {F : Type} (m : Machine F) : ℕ := m.stack.length

/-- What they read besides. -/
structure StepEnv (F : Type) where
  prog : Program
  params : List F
  bars : BarSeries F
  t : ℕ
  ctx : VmCtx F

/-- A piece of an instruction. -/
abbrev Vm (F : Type) := StateT (Machine F) (Except Fault)

namespace Vm

variable {F : Type}

/-! ## Accesses -/

/-- `xs[i]`. -/
def fetch {α : Type} (fault : Fault) (xs : List α) (i : ℤ) : Vm F α :=
  match if 0 ≤ i then xs[i.toNat]? else none with
  | some x => pure x
  | none => throw fault

/-- `stack[sp++] = x`. -/
def push (limit : ℕ) (x : F) : Vm F Unit := do
  let m ← get
  if m.stack.length < limit then set { m with stack := x :: m.stack } else throw .stackOverflow

/-- `stack[--sp]`. -/
def pop : Vm F F := do
  let m ← get
  match m.stack with
  | [] => throw .stackUnderflow
  | x :: rest => do
    set { m with stack := rest }
    return x

/-- Reads `stack[sp - 1]`. -/
def top : Vm F F := do
  let m ← get
  match m.stack with
  | [] => throw .stackUnderflow
  | x :: _ => return x

/-- `stack[sp - 1] = x`. -/
def setTop (x : F) : Vm F Unit := do
  let m ← get
  match m.stack with
  | [] => throw .stackUnderflow
  | _ :: rest => set { m with stack := x :: rest }

/-- Reads `state[i]`. -/
def readState (i : ℤ) : Vm F F := do
  fetch .state (← get).state i

/-- `state[i] = x`. -/
def writeState (i : ℤ) (x : F) : Vm F Unit := do
  let m ← get
  let _ ← fetch .state m.state i
  set { m with state := m.state.set i.toNat x }

/-- `locals[arg]`. -/
def readLocal (arg : UInt32) : Vm F F := do
  fetch .local (← get).locals arg.toNat

/-- `locals[arg] = x`. -/
def writeLocal (arg : UInt32) (x : F) : Vm F Unit := do
  let m ← get
  let _ ← fetch .local m.locals arg.toNat
  set { m with locals := m.locals.set arg.toNat x }

/-- The series with a number; the source takes volume for every number from 4 on. -/
def series (env : StepEnv F) (sid : ℤ) : List F :=
  if sid = 0 then env.bars.o
  else if sid = 1 then env.bars.h
  else if sid = 2 then env.bars.l
  else if sid = 3 then env.bars.c
  else env.bars.v

/-- `s[idx > 0 ? idx : 0]`, where the series number is checked as well. -/
def readSeries (env : StepEnv F) (sid idx : ℤ) : Vm F F :=
  if 0 ≤ sid ∧ sid < nSeries.toNat then fetch .bar (series env sid) (max idx 0)
  else throw .seriesId

/-- `prog_.state_off[arg]`. -/
def stateOff (env : StepEnv F) (arg : UInt32) : Vm F ℤ :=
  Int32.toInt <$> fetch .slot env.prog.stateOff arg.toNat

/-- `prog_.state_cap[arg]`. -/
def stateCap (env : StepEnv F) (arg : UInt32) : Vm F ℤ :=
  Int32.toInt <$> fetch .slot env.prog.stateCap arg.toNat

/-- `prog_.state_aux[arg]`. -/
def stateAux (env : StepEnv F) (arg : UInt32) : Vm F Int32 :=
  fetch .slot env.prog.stateAux arg.toNat

/-! ## Shapes of instructions -/

/-- Pushes one value. -/
def pushes (limit : ℕ) (value : Vm F F) : Vm F Unit := do
  push limit (← value)

/-- Pops an operand and pushes a value. -/
def pop1 (limit : ℕ) (value : F → Vm F F) : Vm F Unit := do
  let n ← pop
  push limit (← value n)

/-- Pops two operands and pushes a value. -/
def pop2 (limit : ℕ) (value : F → F → Vm F F) : Vm F Unit := do
  let n ← pop
  let x ← pop
  push limit (← value n x)

/-- Replaces the top. -/
def unary (f : F → F) : Vm F Unit := do
  let x ← top
  setTop (f x)

/-- `y = stack[--sp]; stack[sp - 1] = f(stack[sp - 1], y)`. -/
def binary (f : F → F → F) : Vm F Unit := do
  let y ← pop
  let x ← top
  setTop (f x y)

variable [FloatMath F]

/-- `sig.x = sig.x || (stack[--sp] != 0.0f)`: the operand is popped only if the flag is not set
yet. -/
def signal (flag : Signals F → Bool) (raise : Bool → Signals F → Signals F) : Vm F Unit := do
  if flag (← get).sig then
    modify fun m => { m with sig := raise true m.sig }
  else
    let x ← pop
    modify fun m => { m with sig := raise (!eq x zero) m.sig }

/-- `sig.x = stack[--sp]`, `OP_SET_SIZE` with its clamps. -/
def config (assign : F → Signals F → Signals F) : Vm F Unit := do
  let x ← pop
  modify fun m => { m with sig := assign x m.sig }

/-! ## Indicators -/

/-- `n_eff`, at least one. -/
def nEff (n : F) : ℤ := max (toInt n) 1

/-- `OP_EMA`, on `[count, value]`. -/
def ema (env : StepEnv F) (arg : UInt32) (n x : F) : Vm F F := do
  let st ← stateOff env arg
  let count ← readState st
  let value ← readState (st + 1)
  let alpha := ofBits 0x40000000 / ofInt (nEff n + 1)
  let value := if eq count zero then x else value + alpha * (x - value)
  writeState (st + 1) value
  writeState st (count + one)
  return value

/-- The averages and the result of `OP_RSI`. -/
def rsiNext (n : ℤ) (count : ℤ) (x prev ag al : F) : F × F × F :=
  if count = 0 then (ag, al, ofBits 0x42480000)
  else
    let delta := x - prev
    let g := if lt zero delta then delta else zero
    let lo := if lt zero (-delta) then -delta else zero
    let ag := if count = 1 then g else ag + (g - ag) / ofInt n
    let al := if count = 1 then lo else al + (lo - al) / ofInt n
    let denom := ag + al
    (ag, al, if eq denom zero then ofBits 0x42480000 else ofBits 0x42C80000 * (ag / denom))

/-- `OP_RSI`, on `[count, prev_x, ag, al]`. -/
def rsi (env : StepEnv F) (arg : UInt32) (n x : F) : Vm F F := do
  let st ← stateOff env arg
  let count := toInt (← readState st)
  let prev ← readState (st + 1)
  let ag ← readState (st + 2)
  let al ← readState (st + 3)
  let next := rsiNext (nEff n) count x prev ag al
  writeState (st + 2) next.1
  writeState (st + 3) next.2.1
  writeState (st + 1) x
  writeState st (ofInt (count + 1))
  return next.2.2

/-- The true range of bar `t`. -/
def trueRange (env : StepEnv F) : Vm F F := do
  let h ← readSeries env 1 env.t
  let l ← readSeries env 2 env.t
  if env.t = 0 then return h - l
  else
    let pc ← readSeries env 3 (env.t - 1)
    let a := h - l
    let b1 := fabs (h - pc)
    let c1 := fabs (l - pc)
    let m := if lt c1 b1 then b1 else c1
    return if lt m a then a else m

/-- `OP_ATR`, on `[count, value]`. -/
def atr (env : StepEnv F) (arg : UInt32) (n : F) : Vm F F := do
  let st ← stateOff env arg
  let tr ← trueRange env
  let count ← readState st
  let value ← readState (st + 1)
  let value := if eq count zero then tr else value + (tr - value) / ofInt (nEff n)
  writeState (st + 1) value
  writeState st (count + one)
  return value

/-- `OP_CROSSOVER` and `OP_CROSSUNDER`, on `[count, pa, pb]`; `crosses x y pa pb` is the test of
the last two bars. -/
def cross (crosses : F → F → F → F → Bool) (env : StepEnv F) (arg : UInt32) (y x : F) :
    Vm F F := do
  let st ← stateOff env arg
  let count := toInt (← readState st)
  let pa ← readState (st + 1)
  let pb ← readState (st + 2)
  writeState (st + 1) x
  writeState (st + 2) y
  writeState st (ofInt (count + 1))
  return ofBool (decide (1 ≤ count) && crosses x y pa pb)

/-! ## Windows -/

/-- What is computed over a window. -/
inductive Window where
  | sma | highest | lowest | stddev
  deriving DecidableEq, Repr

/-- The sum of the elements, first to last. -/
def sumOf (k : ℤ) (elem : ℤ → Vm F F) : Vm F F :=
  (List.range k.toNat).foldlM (fun acc (i : ℕ) => do return acc + (← elem i)) zero

/-- The first element that no later one is `better` than. -/
def extremeOf (better : F → F → Bool) (k : ℤ) (elem : ℤ → Vm F F) : Vm F F := do
  let first ← elem 0
  (List.range (k - 1).toNat).foldlM (fun acc (i : ℕ) => do
    let xi ← elem (i + 1)
    return if better xi acc then xi else acc) first

/-- The result over the window of `k` elements. -/
def Window.eval (window : Window) (k : ℤ) (elem : ℤ → Vm F F) : Vm F F :=
  match window with
  | .sma => do return (← sumOf k elem) / ofInt k
  | .highest => extremeOf (fun xi acc => lt acc xi) k elem
  | .lowest => extremeOf (fun xi acc => lt xi acc) k elem
  | .stddev => do
    let mean := (← sumOf k elem) / ofInt k
    let ss ← (List.range k.toNat).foldlM (fun ss (i : ℕ) => do
      let d := (← elem i) - mean
      return ss + d * d) zero
    let var := ss / ofInt k
    return if lt zero var then FloatMath.sqrtf var else zero

/-- Puts a value into the ring `[count, buf...]` and returns the new count. -/
def ringPush (st cap : ℤ) (x : F) : Vm F ℤ := do
  let count := toInt (← readState st)
  writeState (st + (1 + count.tmod cap)) x
  writeState st (ofInt (count + 1))
  return count + 1

/-- `OP_SMA`, `OP_HIGHEST`, `OP_LOWEST`, `OP_STDDEV`. -/
def ringWindow (window : Window) (env : StepEnv F) (arg : UInt32) (n x : F) : Vm F F := do
  let st ← stateOff env arg
  let cap ← stateCap env arg
  let count ← ringPush st cap x
  let k := min count (min (nEff n) cap)
  window.eval k fun i => readState (st + (1 + (count - k + i).tmod cap))

/-- `OP_DELAY`. -/
def delay (env : StepEnv F) (arg : UInt32) (kk x : F) : Vm F F := do
  let st ← stateOff env arg
  let cap ← stateCap env arg
  let count ← ringPush st cap x
  let kEff := min (max (toInt kk) 0) (cap - 1)
  let back := min kEff (min count cap - 1)
  readState (st + (1 + (count - 1 - back).tmod cap))

/-- Element `j` of the series and lag in `aux`. -/
def readRaw (env : StepEnv F) (aux : Int32) (j : ℤ) : Vm F F :=
  readSeries env (aux >>> 16).toInt (j - (aux &&& 0xFFFF).toInt)

/-- `OP_SMA_RAW`, `OP_HIGHEST_RAW`, `OP_LOWEST_RAW`, `OP_STDDEV_RAW`. -/
def rawWindow (window : Window) (env : StepEnv F) (arg : UInt32) (n : F) : Vm F F := do
  let cap ← stateCap env arg
  let aux ← stateAux env arg
  let k := min ((env.t : ℤ) + 1) (min (nEff n) cap)
  window.eval k fun i => readRaw env aux (env.t - k + 1 + i)

/-- `OP_DELAY_RAW`. -/
def delayRaw (env : StepEnv F) (arg : UInt32) (kk : F) : Vm F F := do
  let cap ← stateCap env arg
  let aux ← stateAux env arg
  let kEff := min (max (toInt kk) 0) (cap - 1)
  let back := min kEff (min ((env.t : ℤ) + 1) cap - 1)
  readRaw env aux (env.t - back)

/-! ## Instructions -/

/-- One case of the `switch`. -/
def execOp (limit : ℕ) (env : StepEnv F) (op : Op) (arg : UInt32) : Vm F Unit :=
  match op with
  | .pushConst => pushes limit (ofBits <$> fetch .constant env.prog.consts arg.toNat)
  | .pushParam => pushes limit (fetch .param env.params arg.toNat)
  | .pushSeries => pushes limit (readSeries env arg.toNat env.t)
  | .pushSeriesLag =>
    pushes limit (readSeries env (arg >>> 16).toNat (env.t - (arg &&& 0xFFFF).toNat))
  | .pushCtx =>
    pushes limit (pure (
      if arg = 0 then ofInt env.t
      else if arg = 1 then env.ctx.position
      else if arg = 2 then env.ctx.entryPx
      else env.ctx.equity))
  | .load => pushes limit (readLocal arg)
  | .store => do writeLocal arg (← pop)
  | .add => binary fun x y => x + y
  | .sub => binary fun x y => x - y
  | .mul => binary fun x y => x * y
  | .div => binary fun x y => if eq y zero then zero else x / y
  | .neg => unary fun x => -x
  | .abs => unary fabs
  | .min2 => binary fun x y => if lt x y then x else y
  | .max2 => binary fun x y => if lt y x then x else y
  | .sqrt => unary fun x => if lt zero x then FloatMath.sqrtf x else zero
  | .log => unary fun x => if lt zero x then FloatMath.logf x else zero
  | .gt => binary fun x y => ofBool (lt y x)
  | .lt => binary fun x y => ofBool (lt x y)
  | .ge => binary fun x y => ofBool (le y x)
  | .le => binary fun x y => ofBool (le x y)
  | .eq => binary fun x y => ofBool (eq x y)
  | .ne => binary fun x y => ofBool (!eq x y)
  | .and => binary fun x y => ofBool (!eq x zero && !eq y zero)
  | .or => binary fun x y => ofBool (!eq x zero || !eq y zero)
  | .not => unary fun x => ofBool (eq x zero)
  | .sma => pop2 limit (ringWindow .sma env arg)
  | .ema => pop2 limit (ema env arg)
  | .rsi => pop2 limit (rsi env arg)
  | .atr => pop1 limit (atr env arg)
  | .highest => pop2 limit (ringWindow .highest env arg)
  | .lowest => pop2 limit (ringWindow .lowest env arg)
  | .stddev => pop2 limit (ringWindow .stddev env arg)
  | .delay => pop2 limit (delay env arg)
  | .crossover => pop2 limit (cross (fun x y pa pb => lt y x && le pa pb) env arg)
  | .crossunder => pop2 limit (cross (fun x y pa pb => lt x y && le pb pa) env arg)
  | .smaRaw => pop1 limit (rawWindow .sma env arg)
  | .highestRaw => pop1 limit (rawWindow .highest env arg)
  | .lowestRaw => pop1 limit (rawWindow .lowest env arg)
  | .stddevRaw => pop1 limit (rawWindow .stddev env arg)
  | .delayRaw => pop1 limit (delayRaw env arg)
  | .sigEl => signal (·.el) fun b sig => { sig with el := b }
  | .sigXl => signal (·.xl) fun b sig => { sig with xl := b }
  | .sigEs => signal (·.es) fun b sig => { sig with es := b }
  | .sigXs => signal (·.xs) fun b sig => { sig with xs := b }
  | .setStop => config fun x sig => { sig with stop := x }
  | .setTp => config fun x sig => { sig with tp := x }
  | .setTrail => config fun x sig => { sig with trail := x }
  | .setSize => config fun x sig =>
    let s := if lt x zero then zero else x
    { sig with size := if lt one s then one else s }
  | .halt => return

/-- One instruction; a number without an operation does nothing. -/
def exec (limit : ℕ) (env : StepEnv F) (ins : UInt32) (m : Machine F) :
    Except Fault (Machine F) :=
  match Op.ofCode (opCode ins) with
  | some op => (·.2) <$> (execOp limit env op (operand ins)).run m
  | none => return m

/-- The loop over the code, which `OP_HALT` ends. -/
def loop (limit : ℕ) (env : StepEnv F) : List UInt32 → Machine F → Except Fault (Machine F)
  | [], m => return m
  | ins :: code, m =>
    if Op.ofCode (opCode ins) = some .halt then return m
    else exec limit env ins m >>= loop limit env code

end Vm

/-! ## The VM -/

/-- `class StrategyVM`. -/
structure StrategyVM (F : Type) where
  prog : Program
  params : List F
  state : List F
  locals : List F

namespace StrategyVM

variable {F : Type} [FloatMath F]

/-- The constructor; no parameters means the program's own. -/
def new (prog : Program) (params : List F) : Except String (StrategyVM F) :=
  let params := if params.isEmpty then prog.paramDefaults.map ofBits else params
  if params.length ≠ prog.paramDefaults.length then
    throw "StrategyVM: wrong number of params"
  else return {
    prog
    params
    state := List.replicate prog.stateFloats.toNat zero
    locals := List.replicate (if prog.nLocals > 0 then prog.nLocals.toNat else 1) zero }

/-- What a call of `step` reads. -/
def env (vm : StrategyVM F) (bars : BarSeries F) (t : ℕ) (ctx : VmCtx F) : StepEnv F :=
  ⟨vm.prog, vm.params, bars, t, ctx⟩

/-- The machine before the first instruction. -/
def start (vm : StrategyVM F) : Machine F := ⟨[], Signals.initial, vm.state, vm.locals⟩

/-- `step`. -/
def step (vm : StrategyVM F) (bars : BarSeries F) (t : ℕ) (ctx : VmCtx F) :
    Except Fault (Signals F × StrategyVM F) := do
  let m ← Vm.loop vmMaxStack.toNat (vm.env bars t ctx) vm.prog.code vm.start
  return (m.sig, { vm with state := m.state, locals := m.locals })

end StrategyVM

end ItchOrderbook
