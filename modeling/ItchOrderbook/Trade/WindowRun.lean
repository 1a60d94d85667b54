import ItchOrderbook.Trade.StackSafety
import ItchOrderbook.Trade.WindowAgreement

/-!
# Ring indicators in a run

`step` is called once for each bar from bar 0 on. Where one instruction keeps a ring and no other
one names its slot, that ring is filled by one value a bar (`steps_filled`), so the opcode pushes
what the raw opcode pushes (`ring_eq_raw`).
-/

namespace ItchOrderbook

open CheckedState FloatOps Program

namespace Vm

variable {F : Type} [FloatMath F] {prog : Program} {env : StepEnv F} {m : Machine F} {k : ℕ}

/-- A stretch of code that does not name slot `k`. -/
theorem run_spares [CountsBack F] (he : EnvOk prog env) (hp : Accepted prog)
    (hk : k < prog.stateKind.length) {limit : ℕ} {code : List UInt32}
    (hcode : ∀ ins ∈ code, ins ∈ prog.code ∧ ¬Names ins k) (hm : Good prog m) {m' : Machine F}
    (h : StraightLine.run (exec limit env) code m = .ok m') :
    Good prog m' ∧ SameSlot prog k m m' := by
  refine StraightLine.run_invariant (P := fun m' => Good prog m' ∧ SameSlot prog k m m')
    (fun ins hins m₁ m₂ hP hexec => ?_) ⟨hm, SameSlot.of_state rfl⟩ h
  obtain ⟨hmem, hno⟩ := hcode ins hins
  obtain ⟨i, hi⟩ := List.getElem?_of_mem hmem
  obtain ⟨op, hok, -⟩ := hp.instr i ins hi
  exact ⟨(exec_ok he hp hok hP.1 hexec).1, hP.2.trans (exec_frame he hp hi hk hno hP.1 hexec)⟩

omit [FloatMath F] in
/-- Pushing with room. -/
theorem push_run {limit : ℕ} {y : F} (h : m.stack.length < limit) :
    (push limit y).run m = .ok ((), { m with stack := y :: m.stack }) := by
  show (if m.stack.length < limit then _ else _ : Vm F Unit) m = _
  rw [if_pos h]
  rfl

omit [FloatMath F] in
/-- A push that returns has pushed. -/
theorem push_ok {limit : ℕ} {y : F} {u : Unit} {m' : Machine F}
    (h : (push limit y).run m = .ok (u, m')) : m' = { m with stack := y :: m.stack } := by
  by_cases hroom : m.stack.length < limit
  · rw [push_run hroom] at h
    cases h
    rfl
  · have hfull : (push limit y).run m = .error .stackOverflow := by
      show (if m.stack.length < limit then _ else _ : Vm F Unit) m = _
      rw [if_neg hroom]
      rfl
    rw [hfull] at h
    cases h

omit [FloatMath F] in
theorem pop_run {y : F} {rest : List F} (h : m.stack = y :: rest) :
    (pop : Vm F F).run m = .ok (y, { m with stack := rest }) := by
  have hget : (get : Vm F (Machine F)).run m = .ok (m, m) := rfl
  rw [pop, run_bind hget, h]
  rfl

omit [FloatMath F] in
/-- An instruction that pops `n` and pushes what it computes. -/
theorem pop1_run {limit : ℕ} {value : F → Vm F F} {n y : F} {rest : List F}
    (hstack : m.stack = n :: rest) (h : Returns (value n) { m with stack := rest } y) :
    (pop1 limit value).run m = (push limit y).run { m with stack := rest } := by
  rw [pop1, run_bind (pop_run hstack), run_bind h]

omit [FloatMath F] in
theorem pop2_run {limit : ℕ} {value : F → F → Vm F F} {n x y : F} {rest : List F}
    {m' : Machine F} (hstack : m.stack = n :: x :: rest)
    (h : (value n x).run { m with stack := rest } = .ok (y, m')) :
    (pop2 limit value).run m = (push limit y).run m' := by
  have hpop : (pop : Vm F F).run { m with stack := x :: rest } = .ok (x, { m with stack := rest }) :=
    pop_run rfl
  rw [pop2, run_bind (pop_run hstack), run_bind hpop, run_bind h]

omit [FloatMath F] in
/-- The slot of a ring opcode. -/
theorem Indicator.ring_slot (ind : Indicator) {ins : UInt32} {depth : ℤ}
    (hi : InstrOk prog ind.ring ins depth) :
    (operand ins).toNat < prog.stateKind.length ∧
      prog.stateKind.getD (operand ins).toNat 0 = skRing := by
  refine ⟨?_, hi.kindOk _ ind.ring_kind⟩
  have h := hi.operandOk
  cases ind with
  | window w => cases w <;> exact h
  | delay => exact h

omit [FloatMath F] in
/-- The slot of a raw opcode. -/
theorem Indicator.raw_slot (ind : Indicator) {ins : UInt32} {depth : ℤ}
    (hi : InstrOk prog ind.raw ins depth) :
    (operand ins).toNat < prog.stateKind.length ∧
      prog.stateKind.getD (operand ins).toNat 0 = skRaw := by
  refine ⟨?_, hi.kindOk _ ind.raw_kind⟩
  have h := hi.operandOk
  cases ind with
  | window w => cases w <;> exact h
  | delay => exact h

/-- The ring opcode after `t` values, with the next one under its operand: it pushes the value of
the indicator if there is room, and its ring holds one value more. -/
theorem exec_ring [ExactCounts F] (ind : Indicator) (he : EnvOk prog env) (hp : Accepted prog)
    {op : Op} {ins : UInt32} {depth : ℤ} (hi : InstrOk prog op ins depth) (hop : op = ind.ring)
    (hm : Good prog m) {t : ℕ} {x : ℕ → F} (hfill : Filled prog (operand ins).toNat t x m)
    (ht : t < 2 ^ 24) {n : F} {rest : List F} (hstack : m.stack = n :: x t :: rest) :
    ∃ st, Filled prog (operand ins).toNat (t + 1) x { m with state := st } ∧ ∀ limit,
      exec limit env ins m = (·.2) <$>
        (push limit (ind.value (slotCap prog (operand ins).toNat).toNat t n x)).run
          { m with stack := rest, state := st } := by
  subst hop
  obtain ⟨harg, hkind⟩ := ind.ring_slot hi
  have hrest : Filled prog (operand ins).toNat t x { m with stack := rest } :=
    ⟨hfill.count, hfill.cells⟩
  have hgood : Good prog { m with stack := rest } := hm.congr rfl rfl
  obtain ⟨st, hrun, hfill'⟩ := ring_returns ind he hp harg hkind hgood hrest ht n
  refine ⟨st, ⟨hfill'.count, hfill'.cells⟩, fun limit => ?_⟩
  rw [exec, hi.opcode]
  show (·.2) <$> (execOp limit env ind.ring (operand ins)).run m = _
  rw [execOp_ring, pop2_run hstack hrun]

/-- The raw opcode. -/
theorem exec_raw (ind : Indicator) (he : EnvOk prog env) (hp : Accepted prog) {op : Op}
    {ins : UInt32} {depth : ℤ} (hi : InstrOk prog op ins depth) (hop : op = ind.raw) {s : ℕ → F}
    (hs : ∀ j ≤ env.t, (series env (rawSeries prog (operand ins).toNat))[j]? = some (s j)) {n : F}
    {rest : List F} (hstack : m.stack = n :: rest) (limit : ℕ) :
    exec limit env ins m = (·.2) <$>
      (push limit (ind.value (slotCap prog (operand ins).toNat).toNat env.t n
        fun j => s (j - rawLag prog (operand ins).toNat))).run { m with stack := rest } := by
  subst hop
  obtain ⟨harg, hkind⟩ := ind.raw_slot hi
  rw [exec, hi.opcode]
  show (·.2) <$> (execOp limit env ind.raw (operand ins)).run m = _
  rw [execOp_raw, pop1_run hstack (raw_returns ind he hp harg hkind hs n _)]

end Vm

namespace StrategyVM

open Vm

variable {F : Type} [FloatMath F]

/-- The VM after the bars before `t`, with one call of `step` for each. -/
def steps (vm : StrategyVM F) (bars : ℕ → BarSeries F) (ctx : ℕ → VmCtx F) :
    ℕ → Except Fault (StrategyVM F)
  | 0 => return vm
  | t + 1 => do
    let vm' ← steps vm bars ctx t
    let (_, vm'') ← vm'.step (bars t) t (ctx t)
    return vm''

/-- The machine just before instruction `i` at bar `t`. -/
def machineAt (vm : StrategyVM F) (bars : ℕ → BarSeries F) (ctx : ℕ → VmCtx F) (t i : ℕ) :
    Except Fault (Machine F) := do
  let vm' ← vm.steps bars ctx t
  vm'.machineBefore vmMaxStack.toNat (bars t) t (ctx t) i

/-- Instruction `i` of the program is the ring opcode of an indicator and the only instruction
that names its slot. Up to bar `t` the bars show the series `s` with number `sid`, and each bar
the instruction finds the value `lag` bars back under its operand, value 0 where there is none. -/
structure FedSeries (vm : StrategyVM F) (bars : ℕ → BarSeries F) (ctx : ℕ → VmCtx F)
    (ind : Indicator) (i : ℕ) (ins : UInt32) (sid : ℤ) (s : ℕ → F) (lag t : ℕ) : Prop where
  code : vm.prog.code[i]? = some ins
  opcode : Op.ofCode (opCode ins) = some ind.ring
  alone : ∀ j ins', vm.prog.code[j]? = some ins' → Names ins' (operand ins).toNat → j = i
  series : ∀ u ≤ t, ∀ j ≤ u, (Vm.series (vm.env (bars u) u (ctx u)) sid)[j]? = some (s j)
  fed : ∀ u ≤ t, ∀ m, vm.machineAt bars ctx u i = .ok m →
    ∃ n rest, m.stack = n :: s (u - lag) :: rest

/-- An instruction with the raw opcode of an indicator, and what its slot says. -/
structure RawTwin (prog : Program) (ind : Indicator) (ins : UInt32) (cap sid : ℤ) (lag : ℕ) :
    Prop where
  code : ins ∈ prog.code
  opcode : Op.ofCode (opCode ins) = some ind.raw
  cap : slotCap prog (operand ins).toNat = cap
  series : rawSeries prog (operand ins).toNat = sid
  lag : rawLag prog (operand ins).toNat = lag

/-- What the steps before bar `t` have made of a VM whose instruction is fed `x`. -/
structure Stepped (vm vm' : StrategyVM F) (k t : ℕ) (x : ℕ → F) : Prop where
  sound : Sound vm.prog vm'
  params : vm'.params = vm.params
  filled : Filled vm.prog k t x vm'.start

variable {vm : StrategyVM F} {bars : ℕ → BarSeries F} {ctx : ℕ → VmCtx F} {ind : Indicator}
  {i : ℕ} {ins : UInt32} {sid : ℤ} {s : ℕ → F} {lag t : ℕ}

/-- The bars reach as far as the series. -/
theorem FedSeries.lt_size (h : FedSeries vm bars ctx ind i ins sid s lag t) {u : ℕ} (hu : u ≤ t) :
    u < (bars u).size := by
  have hlt := (List.getElem?_eq_some_iff.1 (h.series u hu u le_rfl)).1
  rw [series_length] at hlt
  exact hlt

/-- A smaller number of bars. -/
theorem FedSeries.mono (h : FedSeries vm bars ctx ind i ins sid s lag t) {u : ℕ} (hu : u ≤ t) :
    FedSeries vm bars ctx ind i ins sid s lag u :=
  ⟨h.code, h.opcode, h.alone, fun v hv => h.series v (hv.trans hu),
    fun v hv => h.fed v (hv.trans hu)⟩

/-- The instructions before and after the one that names the slot. -/
theorem FedSeries.spared (h : FedSeries vm bars ctx ind i ins sid s lag t) :
    (∀ ins' ∈ vm.prog.code.take i, ins' ∈ vm.prog.code ∧ ¬Names ins' (operand ins).toNat) ∧
      ∀ ins' ∈ vm.prog.code.drop (i + 1),
        ins' ∈ vm.prog.code ∧ ¬Names ins' (operand ins).toNat := by
  constructor
  · intro ins' hins'
    obtain ⟨j, hj⟩ := List.getElem?_of_mem hins'
    rw [List.getElem?_take] at hj
    split at hj
    · rename_i hlt
      exact ⟨List.mem_of_getElem? hj, fun hnames => by have := h.alone j ins' hj hnames; omega⟩
    · cases hj
  · intro ins' hins'
    obtain ⟨j, hj⟩ := List.getElem?_of_mem hins'
    rw [List.getElem?_drop] at hj
    exact ⟨List.mem_of_getElem? hj, fun hnames => by have := h.alone _ ins' hj hnames; omega⟩

/-- The instruction and its slot. -/
theorem FedSeries.instr (h : FedSeries vm bars ctx ind i ins sid s lag t)
    (hp : Accepted vm.prog) : InstrOk vm.prog ind.ring ins (depthBefore vm.prog i) := by
  obtain ⟨op, hok, -⟩ := hp.instr i ins h.code
  have hop : op = ind.ring := Option.some.inj (hok.opcode.symm.trans h.opcode)
  exact hop ▸ hok

/-- Before the instruction the ring is as the last bar left it. -/
theorem Stepped.before [CountsBack F] {vm' : StrategyVM F} {x : ℕ → F}
    (hs : Stepped vm vm' (operand ins).toNat t x) (hp : Accepted vm.prog)
    (hfed : FedSeries vm bars ctx ind i ins sid s lag t) {m : Machine F}
    (hm : vm'.machineBefore vmMaxStack.toNat (bars t) t (ctx t) i = .ok m) :
    Good vm.prog m ∧ Filled vm.prog (operand ins).toNat t x m := by
  obtain ⟨hk, hring⟩ := ind.ring_slot (hfed.instr hp)
  obtain ⟨hcap, hsize⟩ := slotSize_ring (hp.slot _ hk) hring
  have he := hs.sound.env_ok (hfed.lt_size le_rfl) (ctx t)
  rw [machineBefore_eq_run (hs.sound.prog_eq ▸ hp), hs.sound.prog_eq] at hm
  obtain ⟨hgood, hsame⟩ := run_spares he hp hk hfed.spared.1 hs.sound.good hm
  exact ⟨hgood, hs.filled.congr hsize hcap hsame⟩

/-- One bar: the ring is fed once. -/
theorem Stepped.step [CountsBack F] [ExactCounts F] {vm' vm'' : StrategyVM F} {sig : Signals F}
    (hs : Stepped vm vm' (operand ins).toNat t fun j => s (j - lag)) (hp : Accepted vm.prog)
    (hfed : FedSeries vm bars ctx ind i ins sid s lag t) (ht : t < 2 ^ 24)
    (hreached : vm.steps bars ctx t = .ok vm')
    (hstep : vm'.step (bars t) t (ctx t) = .ok (sig, vm'')) :
    Stepped vm vm'' (operand ins).toNat (t + 1) fun j => s (j - lag) := by
  have hlt := hfed.lt_size le_rfl
  have he := hs.sound.env_ok hlt (ctx t)
  obtain ⟨hk, hring⟩ := ind.ring_slot (hfed.instr hp)
  obtain ⟨hcap, hsize⟩ := slotSize_ring (hp.slot _ hk) hring
  have hsound := hs.sound.step hp hlt hstep
  obtain ⟨m, hrun, hend⟩ := bind_eq_ok.1 hstep
  cases hend
  -- the code before the instruction, the instruction, the code after it
  have hwhole : vm'.machineBefore vmMaxStack.toNat (bars t) t (ctx t) vm'.prog.code.length =
      .ok m := by
    rw [machineBefore, List.take_length]
    exact hrun
  have hcode : vm.prog.code = vm.prog.code.take i ++ ins :: vm.prog.code.drop (i + 1) := by
    obtain ⟨hi, hget⟩ := List.getElem?_eq_some_iff.1 hfed.code
    rw [← hget, ← List.drop_eq_getElem_cons hi, List.take_append_drop]
  rw [machineBefore_eq_run (hs.sound.prog_eq ▸ hp), List.take_length, hs.sound.prog_eq, hcode,
    StraightLine.run_append] at hwhole
  obtain ⟨m₁, hbefore, hrest⟩ := bind_eq_ok.1 hwhole
  rw [StraightLine.run_cons] at hrest
  obtain ⟨m₂, hexec, hafter⟩ := bind_eq_ok.1 hrest
  have hmachine : vm'.machineBefore vmMaxStack.toNat (bars t) t (ctx t) i = .ok m₁ := by
    rw [machineBefore_eq_run (hs.sound.prog_eq ▸ hp), hs.sound.prog_eq]
    exact hbefore
  obtain ⟨hgood, hfill⟩ := hs.before hp hfed hmachine
  obtain ⟨n, rest, hstack⟩ := hfed.fed t le_rfl m₁ (by
    rw [machineAt, hreached]
    exact hmachine)
  obtain ⟨st, hfill', hval⟩ := exec_ring ind he hp (hfed.instr hp) rfl hgood hfill ht hstack
  have hm₂ : m₂.state = st := by
    rw [hval] at hexec
    obtain ⟨⟨u, m'⟩, hpush, hm'⟩ := bind_eq_ok.1 ((map_eq_pure_bind _ _).symm.trans hexec)
    cases hm'
    rw [push_ok hpush]
  have hfill₂ : Filled vm.prog (operand ins).toNat (t + 1) (fun j => s (j - lag)) m₂ :=
    hfill'.congr hsize hcap (SameSlot.of_state hm₂)
  have hgood₂ : Good vm.prog m₂ := (exec_ok he hp (hfed.instr hp) hgood hexec).1
  obtain ⟨-, hsame⟩ := run_spares he hp hk hfed.spared.2 hgood₂ hafter
  refine ⟨hsound, hs.params, ?_⟩
  exact (hfill₂.congr hsize hcap hsame).congr hsize hcap (SameSlot.of_state rfl)

/-- The state block starts as zeros. -/
theorem new_state {prog : Program} {params : List F} (h : StrategyVM.new prog params = .ok vm) :
    vm.state = List.replicate prog.stateFloats.toNat zero := by
  unfold StrategyVM.new at h
  extract_lets ps at h
  split at h
  · cases h
  · cases h
    rfl

/-- Every bar up to `t`. -/
theorem steps_filled [CountsBack F] [ExactCounts F] (hp : Accepted vm.prog) {params : List F}
    (hnew : StrategyVM.new vm.prog params = .ok vm)
    (hfed : FedSeries vm bars ctx ind i ins sid s lag t) (ht : t < 2 ^ 24) {vm' : StrategyVM F}
    (h : vm.steps bars ctx t = .ok vm') :
    Stepped vm vm' (operand ins).toNat t fun j => s (j - lag) := by
  induction t generalizing vm' with
  | zero =>
    cases h
    obtain ⟨hk, hring⟩ := ind.ring_slot (hfed.instr hp)
    obtain ⟨hcap, hsize⟩ := slotSize_ring (hp.slot _ hk) hring
    have hsound := sound_new hnew
    refine ⟨hsound, rfl, Filled.start ?_ hsize hcap ?_ _⟩
    · rw [hsound.good.state]
      exact (hp.slot _ hk).fits
    · rw [show vm.start.state = _ from new_state hnew, List.length_replicate]
  | succ t ih =>
    obtain ⟨vm₁, hsteps, hstep⟩ := bind_eq_ok.1 h
    obtain ⟨⟨sig, vm₂⟩, hstep, hend⟩ := bind_eq_ok.1 hstep
    cases hend
    have hprev := hfed.mono (Nat.le_succ t)
    exact (ih hprev (by omega) hsteps).step hp hprev (by omega) hsteps hstep

/-- For every indicator with two opcodes, every capacity, series, lag and sequence of operands, and
whatever the float operations are: at every bar below 2^24 the ring opcode that was fed the series
pushes what the raw opcode pushes for the same operand. -/
theorem ring_eq_raw [CountsBack F] [ExactCounts F] {bytes bytes' : List UInt8}
    {prog prog' : Program} (hparse : Program.parse bytes = .ok prog)
    (hparse' : Program.parse bytes' = .ok prog') {params : List F}
    (hnew : StrategyVM.new prog params = .ok vm)
    (hfed : FedSeries vm bars ctx ind i ins sid s lag t) (ht : t < 2 ^ 24) {ins' : UInt32}
    (htwin : RawTwin prog' ind ins' (slotCap prog (operand ins).toNat) sid lag)
    {vm' : StrategyVM F} (hvm' : Reachable prog' vm') (ctx' : VmCtx F) {m m' : Machine F}
    (hm : vm.machineAt bars ctx t i = .ok m) {n x : F} {rest rest' : List F}
    (hstack : m.stack = n :: x :: rest) (hstack' : m'.stack = n :: rest') :
    ∃ value st,
      (∀ limit, rest.length < limit → exec limit (vm.env (bars t) t (ctx t)) ins m =
        .ok { m with stack := value :: rest, state := st }) ∧
      ∀ limit, rest'.length < limit → exec limit (vm'.env (bars t) t ctx') ins' m' =
        .ok { m' with stack := value :: rest' } := by
  have hvm := sound_new hnew
  obtain rfl := hvm.prog_eq
  have hp := parse_accepted hparse
  have hp' := parse_accepted hparse'
  obtain ⟨vm₁, hreached, hbefore⟩ := bind_eq_ok.1 hm
  have hstepped := steps_filled hp hnew hfed ht hreached
  obtain ⟨hgood, hfill⟩ := hstepped.before hp hfed hbefore
  have he : EnvOk vm.prog (vm.env (bars t) t (ctx t)) := hvm.env_ok (hfed.lt_size le_rfl) (ctx t)
  have he' : EnvOk prog' (vm'.env (bars t) t ctx') :=
    (hvm'.sound hp').env_ok (hfed.lt_size le_rfl) ctx'
  -- what is under the operand is the value of the series
  obtain ⟨n₀, rest₀, hstack₀⟩ := hfed.fed t le_rfl m hm
  obtain ⟨rfl, rfl, rfl⟩ : n = n₀ ∧ x = s (t - lag) ∧ rest = rest₀ := by
    have h := hstack.symm.trans hstack₀
    simpa using h
  obtain ⟨st, -, hval⟩ := exec_ring ind he hp (hfed.instr hp) rfl hgood hfill ht hstack
  obtain ⟨j, hj⟩ := List.getElem?_of_mem htwin.code
  obtain ⟨op, hok, -⟩ := hp'.instr j ins' hj
  have hop : op = ind.raw := Option.some.inj (hok.opcode.symm.trans htwin.opcode)
  have hseries : ∀ j ≤ t, (Vm.series (vm'.env (bars t) t ctx')
      (rawSeries prog' (operand ins').toNat))[j]? = some (s j) := by
    rw [htwin.series]
    exact hfed.series t le_rfl
  have hraw := exec_raw ind he' hp' hok hop hseries hstack'
  rw [htwin.cap, htwin.lag] at hraw
  refine ⟨ind.value (slotCap vm.prog (operand ins).toNat).toNat t n fun j => s (j - lag), st,
    fun limit hroom => ?_, fun limit hroom => ?_⟩
  · rw [hval limit, push_run hroom]
    rfl
  · rw [hraw limit, push_run hroom]
    rfl

/-! ## A pair of programs -/

/-- `HIGHEST(close[1], bar index)` over a ring of two cells, used as the stop. -/
def ringProgram : Program where
  code := [0x03030001, 0x04000000, 0x1E000000, 0x2D000000, 0x31000000]
  stateKind := [3]
  stateOff := [0]
  stateCap := [2]
  stateAux := [0]
  stateFloats := 3
  maxStack := 2

/-- The same with the raw opcode. -/
def rawProgram : Program where
  code := [0x04000000, 0x25000000, 0x2D000000, 0x31000000]
  stateKind := [5]
  stateOff := [0]
  stateCap := [2]
  stateAux := [0x30001]
  stateFloats := 0
  maxStack := 1

/-- The files they are loaded from. -/
def ringFile : List UInt8 :=
  [0x4F, 0x42, 0x50, 0x31, 1, 0, 0, 0, 5, 0, 0, 0, 0, 0, 0, 0, 1, 0, 0, 0, 0, 0, 0, 0, 0, 0, 0, 0,
    3, 0, 0, 0, 2, 0, 0, 0,
    1, 0, 3, 3, 0, 0, 0, 4, 0, 0, 0, 0x1E, 0, 0, 0, 0x2D, 0, 0, 0, 0x31,
    3, 0, 0, 0, 0, 0, 0, 0, 2, 0, 0, 0, 0, 0, 0, 0]

def rawFile : List UInt8 :=
  [0x4F, 0x42, 0x50, 0x31, 1, 0, 0, 0, 4, 0, 0, 0, 0, 0, 0, 0, 1, 0, 0, 0, 0, 0, 0, 0, 0, 0, 0, 0,
    0, 0, 0, 0, 1, 0, 0, 0,
    0, 0, 0, 4, 0, 0, 0, 0x25, 0, 0, 0, 0x2D, 0, 0, 0, 0x31,
    5, 0, 0, 0, 0, 0, 0, 0, 2, 0, 0, 0, 1, 0, 3, 0]

def ringVm : StrategyVM ℚ := ⟨ringProgram, [], [zero, zero, zero], [zero]⟩

def rawVm : StrategyVM ℚ := ⟨rawProgram, [], [], [zero]⟩

/-- Three bars. -/
def threeBars : BarSeries ℚ :=
  ⟨[5000, 4900, 5100], [5000, 4900, 5100], [5000, 4900, 5100], [5000, 4900, 5100], [10, 10, 10],
    rfl, rfl, rfl, rfl⟩

theorem ringVm_fed : FedSeries ringVm (fun _ => threeBars) (fun _ => flatCtx) (.window .highest) 2
    0x1E000000 3 (fun j => threeBars.c.getD j 0) 1 2 where
  code := rfl
  opcode := by decide
  alone := by
    intro j ins' hj hnames
    obtain ⟨op, kind, hop, hkind, -⟩ := hnames
    match j with
    | 0 => cases hj; cases hop; cases hkind
    | 1 => cases hj; cases hop; cases hkind
    | 2 => rfl
    | 3 => cases hj; cases hop; cases hkind
    | 4 => cases hj; cases hop; cases hkind
  series := by
    intro u hu j hj
    match j with
    | 0 => rfl
    | 1 => rfl
    | 2 => rfl
    | j + 3 => omega
  fed := by
    intro u hu m hm
    match u with
    | 0 =>
      have hrun : ringVm.machineAt (fun _ => threeBars) (fun _ => flatCtx) 0 2 =
          .ok ⟨[0, 5000], Signals.initial, [0, 0, 0], [0]⟩ := by decide +kernel
      cases hrun.symm.trans hm
      exact ⟨0, [], rfl⟩
    | 1 =>
      have hrun : ringVm.machineAt (fun _ => threeBars) (fun _ => flatCtx) 1 2 =
          .ok ⟨[1, 5000], Signals.initial, [1, 5000, 0], [0]⟩ := by decide +kernel
      cases hrun.symm.trans hm
      exact ⟨1, [], rfl⟩
    | 2 =>
      have hrun : ringVm.machineAt (fun _ => threeBars) (fun _ => flatCtx) 2 2 =
          .ok ⟨[2, 4900], Signals.initial, [2, 5000, 5000], [0]⟩ := by decide +kernel
      cases hrun.symm.trans hm
      exact ⟨2, [], rfl⟩
    | u + 3 => omega

/-- At bar 2 both push the same. -/
theorem ring_eq_raw_highest :
    ∃ value st,
      (∀ limit, 0 < limit → exec limit (ringVm.env threeBars 2 flatCtx) 0x1E000000
        ⟨[2, 4900], Signals.initial, [2, 5000, 5000], [0]⟩ =
          .ok ⟨[value], Signals.initial, st, [0]⟩) ∧
      ∀ limit, 0 < limit → exec limit (rawVm.env threeBars 2 flatCtx) 0x25000000
        ⟨[2], Signals.initial, [], [0]⟩ = .ok ⟨[value], Signals.initial, [], [0]⟩ := by
  have hparse : Program.parse ringFile = .ok ringProgram := by decide +kernel
  have hparse' : Program.parse rawFile = .ok rawProgram := by decide +kernel
  have hnew : StrategyVM.new ringProgram [] = .ok ringVm := rfl
  have hnew' : StrategyVM.new rawProgram [] = .ok rawVm := rfl
  have htwin : RawTwin rawProgram (.window .highest) 0x25000000
      (slotCap ringProgram (operand 0x1E000000).toNat) 3 1 :=
    ⟨by decide, by decide, by decide, by decide, by decide⟩
  have hm : ringVm.machineAt (fun _ => threeBars) (fun _ => flatCtx) 2 2 =
      .ok ⟨[2, 4900], Signals.initial, [2, 5000, 5000], [0]⟩ := by decide +kernel
  have hstack' : (⟨[2], Signals.initial, [], [0]⟩ : Machine ℚ).stack = 2 :: [] := rfl
  exact ring_eq_raw hparse hparse' hnew ringVm_fed (by decide) htwin (.new hnew') flatCtx hm rfl
    hstack'

end StrategyVM

end ItchOrderbook
