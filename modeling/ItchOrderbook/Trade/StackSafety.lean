import ItchOrderbook.Trade.VmSpec

/-!
# The validated stack depth and the VM

`Program::parse` computes one stack depth for each instruction. `step_depth_iff` says when the VM
has that depth at every instruction, with every access in range: exactly when no signal sink runs
whose flag is already set. Such a sink does not pop its operand (`||` in C++ does not evaluate
its second operand then), and everything after it runs one cell too high; `sink_twice` is the
shortest such program.
-/

namespace ItchOrderbook

open CheckedState FloatOps Program Vm

namespace StrategyVM

variable {F : Type} [FloatMath F]

/-! ## Definitions -/

/-- The states of a VM built from `prog`: constructed, and after any number of steps. -/
inductive Reachable (prog : Program) : StrategyVM F → Prop
  | new {params : List F} {vm : StrategyVM F} :
      StrategyVM.new prog params = .ok vm → Reachable prog vm
  | step {vm vm' : StrategyVM F} {bars : BarSeries F} {t : ℕ} {ctx : VmCtx F} {sig : Signals F} :
      Reachable prog vm → t < bars.size → vm.step bars t ctx = .ok (sig, vm') →
        Reachable prog vm'

/-- The machine just before instruction `i`, with `limit` cells of stack. -/
def machineBefore (vm : StrategyVM F) (limit : ℕ) (bars : BarSeries F) (t : ℕ) (ctx : VmCtx F)
    (i : ℕ) : Except Fault (Machine F) :=
  loop limit (vm.env bars t ctx) (vm.prog.code.take i) vm.start

/-- The step gets to every instruction, and past the last one, with the stack pointer that the
validation computed; it never fails, not even if only `max_stack` cells may be used. -/
structure StackSafe (vm : StrategyVM F) (bars : BarSeries F) (t : ℕ) (ctx : VmCtx F) : Prop where
  maxStack_le : vm.prog.maxStack.toNat ≤ vmMaxStack.toNat
  depth : ∀ i ≤ vm.prog.code.length, ∃ m,
    vm.machineBefore vmMaxStack.toNat bars t ctx i = .ok m ∧
      vm.machineBefore vm.prog.maxStack.toNat bars t ctx i = .ok m ∧
      (m.sp : ℤ) = vm.prog.depthBefore i

/-! ## The loop as a straight line -/

/-- Where only the last instruction can be `OP_HALT`, the loop runs through the whole code. -/
theorem loop_eq_run {limit : ℕ} {env : StepEnv F} {code : List UInt32} {m : Machine F}
    (h : ∀ i ins, code[i]? = some ins → Op.ofCode (opCode ins) = some .halt →
      i + 1 = code.length) :
    loop limit env code m = StraightLine.run (exec limit env) code m := by
  induction code generalizing m with
  | nil => rfl
  | cons ins code ih =>
    rw [loop, StraightLine.run_cons]
    split
    · rename_i hhalt
      have hlen : 0 + 1 = (ins :: code).length := h 0 ins rfl hhalt
      have hnil : code = [] := List.length_eq_zero_iff.1 (by simpa using hlen.symm)
      subst hnil
      rw [exec, hhalt]
      rfl
    · have hrest : loop limit env code = StraightLine.run (exec limit env) code := by
        funext m'
        refine ih fun i ins' hi hhalt => ?_
        have hlen := h (i + 1) ins' hi hhalt
        simpa using hlen
      rw [hrest]

/-- The part of an accepted program before an instruction. -/
theorem machineBefore_eq_run {vm : StrategyVM F} (hp : Accepted vm.prog) (limit : ℕ)
    (bars : BarSeries F) (t : ℕ) (ctx : VmCtx F) (i : ℕ) :
    vm.machineBefore limit bars t ctx i =
      StraightLine.run (exec limit (vm.env bars t ctx)) (vm.prog.code.take i) vm.start := by
  refine loop_eq_run fun j ins hj hhalt => ?_
  rw [List.getElem?_take] at hj
  split at hj
  · rename_i hji
    obtain ⟨op, hok, hlast⟩ := hp.instr j ins hj
    have hop : op = .halt := Option.some.inj (hok.opcode.symm.trans hhalt)
    have hend := hlast.1 hop
    rw [List.length_take]
    omega
  · cases hj

/-! ## Reachable machines -/

/-- What holds of every VM built from an accepted program. -/
structure Sound (prog : Program) (vm : StrategyVM F) : Prop where
  prog_eq : vm.prog = prog
  params : vm.params.length = prog.paramDefaults.length
  good : Good prog vm.start

theorem Sound.env_ok {prog : Program} {vm : StrategyVM F} (h : Sound prog vm)
    {bars : BarSeries F} {t : ℕ} (ht : t < bars.size) (ctx : VmCtx F) :
    EnvOk prog (vm.env bars t ctx) := ⟨h.prog_eq, h.params, ht⟩

theorem sound_new {prog : Program} {params : List F} {vm : StrategyVM F}
    (h : StrategyVM.new prog params = .ok vm) : Sound prog vm := by
  unfold StrategyVM.new at h
  extract_lets ps at h
  split at h
  · cases h
  · rename_i hlen
    cases h
    refine ⟨rfl, Decidable.not_not.1 hlen, ?_, ?_, fun i hi hring => ⟨0, ?_⟩⟩
    · exact List.length_replicate
    · exact List.length_replicate
    · -- the whole block starts as `0.0f`
      show toInt ((List.replicate _ zero).getD _ zero) = toInt zero
      rw [List.getD_eq_getElem?_getD, List.getElem?_replicate]
      split <;> rfl

/-- Every instruction of an accepted program that returns keeps the machine good. -/
theorem exec_keeps_good [CountsBack F] {prog : Program} (hp : Accepted prog) {env : StepEnv F}
    (he : EnvOk prog env) {limit : ℕ} :
    ∀ ins ∈ prog.code, ∀ m m', Good prog m → exec limit env ins m = .ok m' → Good prog m' := by
  intro ins hins m m' hm h
  obtain ⟨i, hi⟩ := List.getElem?_of_mem hins
  obtain ⟨op, hok, -⟩ := hp.instr i ins hi
  exact (exec_ok he hp hok hm h).1

/-- A step that returns leaves a sound VM. -/
theorem Sound.step [CountsBack F] {prog : Program} (hp : Accepted prog) {vm vm' : StrategyVM F}
    (hv : Sound prog vm) {bars : BarSeries F} {t : ℕ} (ht : t < bars.size) {ctx : VmCtx F}
    {sig : Signals F} (h : vm.step bars t ctx = .ok (sig, vm')) : Sound prog vm' := by
  obtain ⟨m, hm, h⟩ := bind_eq_ok.1 h
  cases h
  obtain ⟨rfl, hparams, hgood⟩ := hv
  have hwhole : vm.machineBefore vmMaxStack.toNat bars t ctx vm.prog.code.length = .ok m := by
    rw [machineBefore, List.take_length]
    exact hm
  rw [machineBefore_eq_run hp, List.take_length] at hwhole
  have hend : Good vm.prog m :=
    StraightLine.run_invariant (exec_keeps_good hp ⟨rfl, hparams, ht⟩) hgood hwhole
  exact ⟨rfl, hparams, hend.congr rfl rfl⟩

theorem Reachable.sound [CountsBack F] {prog : Program} (hp : Accepted prog)
    {vm : StrategyVM F} (h : Reachable prog vm) : Sound prog vm := by
  induction h with
  | new h => exact sound_new h
  | step _ ht h ih => exact ih.step hp ht h

/-! ## The depth of every instruction -/

/-- One instruction that is no latched sink, at its depth and with `max_stack` cells or more. -/
theorem exec_at_depth [CountsBack F] {prog : Program} (hp : Accepted prog) {env : StepEnv F}
    (he : EnvOk prog env) {limit : ℕ} (hlimit : prog.maxStack.toNat ≤ limit) {i : ℕ}
    {ins : UInt32} (hi : prog.code[i]? = some ins) {m : Machine F} (hm : Good prog m)
    (hsp : (m.sp : ℤ) = prog.depthBefore i) (hno : ¬latchedSink ins m.sig = true) :
    ∃ m', exec limit env ins m = .ok m' ∧ Good prog m' ∧ (m'.sp : ℤ) = m.sp + insDelta ins := by
  obtain ⟨op, hok, -⟩ := hp.instr i ins hi
  have hlt : i < prog.code.length := (List.getElem?_eq_some_iff.1 hi).1
  have hnext : prog.depthBefore (i + 1) = prog.depthBefore i + insDelta ins :=
    StraightLine.depth_take_succ hi
  have hle := hp.depth_le (i + 1) hlt
  have hneed := hok.needs
  obtain ⟨m', hexec⟩ : ∃ m', exec limit env ins m = .ok m' :=
    exec_returns he hp hok hm (by omega) (by omega)
  obtain ⟨hm', hsp'⟩ := exec_ok he hp hok hm hexec
  rw [if_neg hno, add_zero] at hsp'
  exact ⟨m', hexec, hm', hsp'⟩

/-- A latched sink leaves the stack pointer one too high. -/
theorem exec_latched [CountsBack F] {prog : Program} (hp : Accepted prog) {env : StepEnv F}
    (he : EnvOk prog env) {limit : ℕ} :
    ∀ ins ∈ prog.code, ∀ m m', Good prog m → latchedSink ins m.sig = true →
      exec limit env ins m = .ok m' → (m'.sp : ℤ) ≠ m.sp + insDelta ins := by
  intro ins hins m m' hm hlatched h
  obtain ⟨i, hi⟩ := List.getElem?_of_mem hins
  obtain ⟨op, hok, -⟩ := hp.instr i ins hi
  obtain ⟨-, hsp⟩ := exec_ok he hp hok hm h
  rw [if_pos hlatched] at hsp
  omega

/-- For every accepted program, every VM built from it, every bar and every context: the step
has at every instruction the depth that the validation computed, with all its accesses in range,
if and only if it runs no signal sink whose flag is already set. -/
theorem step_depth_iff [CountsBack F] {bytes : List UInt8} {prog : Program}
    (hparse : Program.parse bytes = .ok prog) {vm : StrategyVM F} (hvm : Reachable prog vm)
    (bars : BarSeries F) {t : ℕ} (ht : t < bars.size) (ctx : VmCtx F) :
    vm.StackSafe bars t ctx ↔
      ∀ i ins m, vm.prog.code[i]? = some ins →
        vm.machineBefore vmMaxStack.toNat bars t ctx i = .ok m →
          latchedSink ins m.sig = false := by
  have hp := parse_accepted hparse
  obtain ⟨rfl, hparams, hgood⟩ := hvm.sound hp
  have he : EnvOk vm.prog (vm.env bars t ctx) := ⟨rfl, hparams, ht⟩
  have hmax : vm.prog.maxStack.toNat ≤ vmMaxStack.toNat := hp.maxStack_le
  constructor
  · intro hsafe i ins m hi hm
    rw [machineBefore_eq_run hp] at hm
    have hall : ∀ k ≤ vm.prog.code.length, ∃ m,
        StraightLine.run (exec vmMaxStack.toNat (vm.env bars t ctx)) (vm.prog.code.take k)
          vm.start = .ok m ∧ (m.sp : ℤ) = vm.prog.depthBefore k := by
      intro k hk
      obtain ⟨m, hm, -, hsp⟩ := hsafe.depth k hk
      rw [machineBefore_eq_run hp] at hm
      exact ⟨m, hm, hsp⟩
    have hno := StraightLine.not_slips_of_depth hgood (exec_keeps_good hp he)
      (exec_latched hp he) hall hi hm
    exact Bool.eq_false_iff.2 hno
  · intro hno
    refine ⟨hmax, fun i hi => ?_⟩
    simp only [machineBefore_eq_run hp] at hno ⊢
    -- the run with `max_stack` cells is the run itself, as far as it gets
    have hsame : ∀ k m,
        StraightLine.run (exec vm.prog.maxStack.toNat (vm.env bars t ctx)) (vm.prog.code.take k)
          vm.start = .ok m →
        StraightLine.run (exec vmMaxStack.toNat (vm.env bars t ctx)) (vm.prog.code.take k)
          vm.start = .ok m :=
      fun k m => StraightLine.run_extends fun ins m m' => exec_extends hmax
    have hok : ∀ k ins m, vm.prog.code[k]? = some ins → Good vm.prog m →
        (m.sp : ℤ) = vm.prog.depthBefore k → ¬latchedSink ins m.sig = true →
        ∃ m', exec vm.prog.maxStack.toNat (vm.env bars t ctx) ins m = .ok m' ∧
          Good vm.prog m' ∧ (m'.sp : ℤ) = m.sp + insDelta ins :=
      fun _ _ _ hk hm hsp => exec_at_depth hp he le_rfl hk hm hsp
    obtain ⟨m, hm, -, hsp⟩ := StraightLine.run_depth hgood rfl hok hi
      fun k ins m _ hk hm => Bool.eq_false_iff.1 (hno k ins m hk (hsame k m hm))
    exact ⟨m, hsame i m hm, hm, hsp⟩

/-! ## A sink that runs twice -/

/-- `n` times "push 1.0, signal a long entry", then `OP_HALT`. -/
def sinks (n : ℕ) : Program where
  code := (List.replicate n [0x00000000, 0x29000000]).flatten ++ [0x31000000]
  consts := [0x3F800000]
  maxStack := 1

/-- The file it is loaded from. -/
def sinksFile (n : ℕ) : List UInt8 :=
  [0x4F, 0x42, 0x50, 0x31, 1, 0, 0, 0, UInt8.ofNat (2 * n + 1), 0, 0, 0, 1, 0, 0, 0,
    0, 0, 0, 0, 0, 0, 0, 0, 0, 0, 0, 0, 0, 0, 0, 0, 1, 0, 0, 0] ++
  (List.replicate n [0, 0, 0, 0, 0, 0, 0, 0x29]).flatten ++ [0, 0, 0, 0x31, 0, 0, 0x80, 0x3F]

/-- The VM built from it. -/
def sinksVm (n : ℕ) : StrategyVM ℚ := ⟨sinks n, [], [], [zero]⟩

/-- One bar. -/
def oneBar : BarSeries ℚ := ⟨[5000], [5000], [5000], [5000], [10], rfl, rfl, rfl, rfl⟩

/-- Flat, with no cash. -/
def flatCtx : VmCtx ℚ := ⟨0, 0, 0⟩

theorem sinksVm_reachable (n : ℕ) : Reachable (sinks n) (sinksVm n) :=
  .new (show StrategyVM.new (sinks n) [] = .ok (sinksVm n) from rfl)

/-- With one sink every access is in range. -/
theorem step_depth_iff_once : (sinksVm 1).StackSafe oneBar 0 flatCtx := by
  have hparse : Program.parse (sinksFile 1) = .ok (sinks 1) := by decide +kernel
  refine (step_depth_iff hparse (sinksVm_reachable 1) oneBar (by decide) flatCtx).2
    fun i ins m hi hm => ?_
  match i with
  | 0 =>
    cases hi
    rfl
  | 1 =>
    -- the flag is clear after the push
    cases hi
    have hpush : (sinksVm 1).machineBefore 32 oneBar 0 flatCtx 1 =
        .ok ⟨[1], Signals.initial, [], [0]⟩ := by decide +kernel
    cases hpush.symm.trans hm
    rfl
  | 2 =>
    cases hi
    rfl

/-- A file that the validation accepts with `max_stack` 1 and whose second sink finds its flag
set: the operands pile up until one is written past the end of the stack. -/
theorem sinks_overflow :
    Program.parse (sinksFile 34) = .ok (sinks 34) ∧ Reachable (sinks 34) (sinksVm 34) ∧
      (sinks 34).maxStack = 1 ∧ ¬(sinksVm 34).StackSafe oneBar 0 flatCtx ∧
      (sinksVm 34).step oneBar 0 flatCtx = .error .stackOverflow := by
  have hstep : (sinksVm 34).machineBefore 32 oneBar 0 flatCtx 69 = .error .stackOverflow := by
    decide +kernel
  refine ⟨by decide +kernel, sinksVm_reachable 34, rfl, fun hsafe => ?_, ?_⟩
  · obtain ⟨m, hm, -⟩ := hsafe.depth 69 (by decide)
    cases hstep.symm.trans hm
  · show (sinksVm 34).machineBefore 32 oneBar 0 flatCtx 69 >>= _ = _
    rw [hstep]
    rfl

end StrategyVM

end ItchOrderbook
