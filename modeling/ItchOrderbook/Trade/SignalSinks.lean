import ItchOrderbook.Trade.StackSafety

/-!
# Programs whose sinks run once

A signal flag changes at its own sink only (`exec_flag`). So in a program that has each sink at most
once no sink finds its flag set, and a program that the loader accepts then runs every bar to its
end (`step_returns`).
-/

namespace ItchOrderbook

open CheckedState FloatOps Program

namespace Vm

variable {F α : Type}

/-! ## What leaves the signals alone -/

/-- The signals stay as they are. -/
abbrev Silent (c : Vm F α) : Prop := Keeps Machine.sig c

theorem silent_fetch (fault : Fault) (xs : List α) (i : ℤ) : Silent (F := F) (fetch fault xs i) := by
  unfold fetch
  split
  · exact .pure _
  · exact .throw _

theorem silent_push (limit : ℕ) (x : F) : Silent (push limit x) := by
  intro m
  unfold push
  rw [wp_bind, wp_get, wp_ite]
  exact ⟨fun _ => rfl, fun _ => trivial⟩

theorem silent_pop : Silent (pop : Vm F F) := by
  intro m
  unfold pop
  rw [wp_bind, wp_get]
  cases m.stack with
  | nil => trivial
  | cons x rest => rfl

theorem silent_top : Silent (top : Vm F F) := by
  intro m
  unfold top
  rw [wp_bind, wp_get]
  cases m.stack with
  | nil => trivial
  | cons x rest => rfl

theorem silent_setTop (x : F) : Silent (setTop x) := by
  intro m
  unfold setTop
  rw [wp_bind, wp_get]
  cases m.stack with
  | nil => trivial
  | cons y rest => rfl

theorem silent_readState (i : ℤ) : Silent (readState i : Vm F F) :=
  Keeps.get.bind fun m => silent_fetch .state m.state i

theorem silent_readLocal (arg : UInt32) : Silent (readLocal arg : Vm F F) :=
  Keeps.get.bind fun m => silent_fetch .local m.locals arg.toNat

theorem silent_writeState (i : ℤ) (x : F) : Silent (writeState i x) := by
  intro m
  unfold writeState
  rw [wp_bind, wp_get, wp_bind]
  exact wp_mono (silent_fetch .state m.state i m) (fun _ _ _ => rfl) fun _ => id

theorem silent_writeLocal (arg : UInt32) (x : F) : Silent (writeLocal arg x) := by
  intro m
  unfold writeLocal
  rw [wp_bind, wp_get, wp_bind]
  exact wp_mono (silent_fetch .local m.locals arg.toNat m) (fun _ _ _ => rfl) fun _ => id

section Env

variable (env : StepEnv F) (arg : UInt32)

theorem silent_readSeries (sid idx : ℤ) : Silent (readSeries env sid idx) :=
  .ite (silent_fetch _ _ _) (.throw _)

theorem silent_stateOff : Silent (stateOff env arg) := (silent_fetch _ _ _).map _

theorem silent_stateCap : Silent (stateCap env arg) := (silent_fetch _ _ _).map _

theorem silent_stateAux : Silent (stateAux env arg) := silent_fetch _ _ _

end Env

/-! ## Shapes of instructions -/

section Shapes

variable {limit : ℕ}

theorem silent_pushes {value : Vm F F} (h : Silent value) : Silent (pushes limit value) :=
  h.bind fun x => silent_push limit x

theorem silent_pop1 {value : F → Vm F F} (h : ∀ n, Silent (value n)) :
    Silent (pop1 limit value) :=
  silent_pop.bind fun n => (h n).bind fun x => silent_push limit x

theorem silent_pop2 {value : F → F → Vm F F} (h : ∀ n x, Silent (value n x)) :
    Silent (pop2 limit value) :=
  silent_pop.bind fun n => silent_pop.bind fun x => (h n x).bind fun y => silent_push limit y

theorem silent_unary (f : F → F) : Silent (unary f) := silent_top.bind fun x => silent_setTop (f x)

theorem silent_binary (f : F → F → F) : Silent (binary f) :=
  silent_pop.bind fun y => silent_top.bind fun x => silent_setTop (f x y)

end Shapes

/-! ## Indicators and windows -/

variable [FloatMath F]

section Indicators

variable (env : StepEnv F) (arg : UInt32)

theorem silent_ema (n x : F) : Silent (ema env arg n x) :=
  (silent_stateOff env arg).bind fun _ => (silent_readState _).bind fun _ =>
    (silent_readState _).bind fun _ => (silent_writeState _ _).bind fun _ =>
      (silent_writeState _ _).bind fun _ => .pure _

theorem silent_rsi (n x : F) : Silent (rsi env arg n x) :=
  (silent_stateOff env arg).bind fun _ => (silent_readState _).bind fun _ =>
    (silent_readState _).bind fun _ => (silent_readState _).bind fun _ =>
      (silent_readState _).bind fun _ => (silent_writeState _ _).bind fun _ =>
        (silent_writeState _ _).bind fun _ => (silent_writeState _ _).bind fun _ =>
          (silent_writeState _ _).bind fun _ => .pure _

theorem silent_trueRange : Silent (trueRange env) := by
  refine (silent_readSeries env _ _).bind fun h => (silent_readSeries env _ _).bind fun l => .ite (.pure _) ?_
  exact (silent_readSeries env _ _).bind fun _ => .pure _

theorem silent_atr (n : F) : Silent (atr env arg n) :=
  (silent_stateOff env arg).bind fun _ => (silent_trueRange env).bind fun _ =>
    (silent_readState _).bind fun _ => (silent_readState _).bind fun _ =>
      (silent_writeState _ _).bind fun _ => (silent_writeState _ _).bind fun _ => .pure _

theorem silent_cross (crosses : F → F → F → F → Bool) (y x : F) :
    Silent (cross crosses env arg y x) :=
  (silent_stateOff env arg).bind fun _ => (silent_readState _).bind fun _ =>
    (silent_readState _).bind fun _ => (silent_readState _).bind fun _ =>
      (silent_writeState _ _).bind fun _ => (silent_writeState _ _).bind fun _ =>
        (silent_writeState _ _).bind fun _ => .pure _

theorem silent_window (window : Window) (k : ℤ) {elem : ℤ → Vm F F} (h : ∀ i, Silent (elem i)) :
    Silent (window.eval k elem) := by
  have hsum : Silent (sumOf k elem) :=
    .foldlM zero fun acc (i : ℕ) => (h i).bind fun _ => .pure _
  have hextreme (better : F → F → Bool) : Silent (extremeOf better k elem) :=
    (h 0).bind fun first => .foldlM first fun acc (i : ℕ) => (h (i + 1)).bind fun _ => .pure _
  cases window with
  | sma => exact hsum.bind fun _ => .pure _
  | highest => exact hextreme _
  | lowest => exact hextreme _
  | stddev =>
    refine hsum.bind fun s => Keeps.bind ?_ fun _ => .pure _
    exact .foldlM zero fun ss (i : ℕ) => (h i).bind fun _ => .pure _

theorem silent_ringPush (st cap : ℤ) (x : F) : Silent (ringPush st cap x) :=
  (silent_readState _).bind fun _ => (silent_writeState _ _).bind fun _ =>
    (silent_writeState _ _).bind fun _ => .pure _

theorem silent_ringWindow (window : Window) (n x : F) : Silent (ringWindow window env arg n x) :=
  (silent_stateOff env arg).bind fun _ => (silent_stateCap env arg).bind fun _ =>
    (silent_ringPush _ _ _).bind fun _ => silent_window window _ fun _ => silent_readState _

theorem silent_delay (kk x : F) : Silent (delay env arg kk x) :=
  (silent_stateOff env arg).bind fun _ => (silent_stateCap env arg).bind fun _ =>
    (silent_ringPush _ _ _).bind fun _ => silent_readState _

theorem silent_rawWindow (window : Window) (n : F) : Silent (rawWindow window env arg n) :=
  (silent_stateCap env arg).bind fun _ => (silent_stateAux env arg).bind fun _ =>
    silent_window window _ fun _ => silent_readSeries env _ _

theorem silent_delayRaw (kk : F) : Silent (delayRaw env arg kk) :=
  (silent_stateCap env arg).bind fun _ => (silent_stateAux env arg).bind fun _ =>
    silent_readSeries env _ _

end Indicators

/-! ## Flags -/

omit [FloatMath F] in
/-- A flag that its assignment leaves alone. -/
theorem keeps_config {ν : Type} (view : Signals F → ν) (assign : F → Signals F → Signals F)
    (h : ∀ x sig, view (assign x sig) = view sig) :
    Keeps (fun m : Machine F => view m.sig) (config assign) :=
  (silent_pop.comp view).bind fun x m => h x m.sig

theorem keeps_signal {ν : Type} (view : Signals F → ν) (flag : Signals F → Bool)
    (raise : Bool → Signals F → Signals F) (h : ∀ b sig, view (raise b sig) = view sig) :
    Keeps (fun m : Machine F => view m.sig) (signal flag raise) := by
  refine Keeps.get.bind fun m => .ite (fun m' => h true m'.sig) ?_
  exact (silent_pop.comp view).bind fun x m' => h _ m'.sig

/-- An instruction other than the sink of a flag leaves the flag alone. -/
theorem keeps_execOp {limit : ℕ} (env : StepEnv F) {op sink : Op} (hne : op ≠ sink)
    (arg : UInt32) :
    Keeps (fun m : Machine F => sink.latched m.sig) (execOp limit env op arg) := by
  have silent {c : Vm F Unit} (h : Silent c) : Keeps (fun m : Machine F => sink.latched m.sig) c :=
    h.comp sink.latched
  cases op with
  | pushConst => exact silent (silent_pushes ((silent_fetch _ _ _).map _))
  | pushParam => exact silent (silent_pushes (silent_fetch _ _ _))
  | pushSeries | pushSeriesLag => exact silent (silent_pushes (silent_readSeries env _ _))
  | pushCtx => exact silent (silent_pushes (.pure _))
  | load => exact silent (silent_pushes (silent_readLocal arg))
  | store => exact silent (silent_pop.bind fun x => silent_writeLocal arg x)
  | add | sub | mul | div | min2 | max2 | gt | lt | ge | le | eq | ne | and | or =>
    exact silent (silent_binary _)
  | neg | abs | sqrt | log | not => exact silent (silent_unary _)
  | sma | highest | lowest | stddev => exact silent (silent_pop2 (silent_ringWindow env arg _))
  | ema => exact silent (silent_pop2 (silent_ema env arg))
  | rsi => exact silent (silent_pop2 (silent_rsi env arg))
  | atr => exact silent (silent_pop1 (silent_atr env arg))
  | delay => exact silent (silent_pop2 (silent_delay env arg))
  | crossover | crossunder => exact silent (silent_pop2 (silent_cross env arg _))
  | smaRaw | highestRaw | lowestRaw | stddevRaw =>
    exact silent (silent_pop1 (silent_rawWindow env arg _))
  | delayRaw => exact silent (silent_pop1 (silent_delayRaw env arg))
  | sigEl =>
    refine keeps_signal _ (·.el) (fun b sig => { sig with el := b }) fun b sig => ?_
    cases sink <;> first | rfl | exact absurd rfl hne
  | sigXl =>
    refine keeps_signal _ (·.xl) (fun b sig => { sig with xl := b }) fun b sig => ?_
    cases sink <;> first | rfl | exact absurd rfl hne
  | sigEs =>
    refine keeps_signal _ (·.es) (fun b sig => { sig with es := b }) fun b sig => ?_
    cases sink <;> first | rfl | exact absurd rfl hne
  | sigXs =>
    refine keeps_signal _ (·.xs) (fun b sig => { sig with xs := b }) fun b sig => ?_
    cases sink <;> first | rfl | exact absurd rfl hne
  | setStop =>
    exact keeps_config _ (fun x sig => { sig with stop := x }) fun x sig => by cases sink <;> rfl
  | setTp =>
    exact keeps_config _ (fun x sig => { sig with tp := x }) fun x sig => by cases sink <;> rfl
  | setTrail =>
    exact keeps_config _ (fun x sig => { sig with trail := x }) fun x sig => by cases sink <;> rfl
  | setSize =>
    exact keeps_config _ (fun x sig =>
      let s := if lt x zero then zero else x
      { sig with size := if lt one s then one else s }) fun x sig => by cases sink <;> rfl
  | halt => exact .pure _

/-- So only the sink of a flag sets it. -/
theorem exec_flag {limit : ℕ} {env : StepEnv F} {ins : UInt32} {sink : Op}
    (hne : Op.ofCode (opCode ins) ≠ some sink) {m m' : Machine F}
    (h : exec limit env ins m = .ok m') : sink.latched m'.sig = sink.latched m.sig := by
  unfold exec at h
  split at h
  · rename_i op hop
    obtain ⟨⟨u, m''⟩, hrun, hm''⟩ := bind_eq_ok.1 ((map_eq_pure_bind _ _).symm.trans h)
    cases hm''
    exact (keeps_execOp env (fun heq => hne (hop.trans (congrArg some heq))) _).ok hrun
  · cases h
    rfl

end Vm

/-! ## Programs -/

/-- Each signal sink is there at most once. -/
def Program.SinksOnce (prog : Program) : Prop :=
  ∀ sink ∈ [Op.sigEl, .sigXl, .sigEs, .sigXs],
    prog.code.countP (fun ins => Op.ofCode (opCode ins) = some sink) ≤ 1

instance (prog : Program) : Decidable prog.SinksOnce := by
  unfold Program.SinksOnce
  infer_instance

/-- What is in a list at most once is not in front of itself. -/
theorem not_mem_take_of_countP {α : Type} {p : α → Bool} {xs : List α} (h : xs.countP p ≤ 1)
    {i : ℕ} {x : α} (hx : xs[i]? = some x) (hp : p x = true) : ∀ y ∈ xs.take i, p y = false := by
  have hsplit : xs.take (i + 1) = xs.take i ++ [x] := by
    rw [List.take_add_one, hx]
    rfl
  have hle : (xs.take (i + 1)).countP p ≤ 1 :=
    ((List.take_sublist (i + 1) xs).countP_le).trans h
  rw [hsplit, List.countP_append, List.countP_singleton, if_pos hp] at hle
  intro y hy
  have hnone := List.countP_eq_zero.1 (show (xs.take i).countP p = 0 by omega) y hy
  exact Bool.eq_false_iff.2 hnone

namespace StrategyVM

open Vm

variable {F : Type} [FloatMath F]

/-- A latched sink is one of the four. -/
theorem mem_sinks_of_latched {op : Op} {sig : Signals F} (h : op.latched sig = true) :
    op ∈ [Op.sigEl, .sigXl, .sigEs, .sigXs] ∧ op.latched (Signals.initial : Signals F) = false := by
  cases op <;> first | exact ⟨by decide, rfl⟩ | cases h

/-- In a program with each sink at most once no sink runs with its flag set. -/
theorem not_latched {prog : Program} (hsinks : prog.SinksOnce) {limit : ℕ} {env : StepEnv F}
    {vm : StrategyVM F} {k : ℕ} {ins : UInt32} {m : Machine F} (hi : prog.code[k]? = some ins)
    (hm : StraightLine.run (exec limit env) (prog.code.take k) vm.start = .ok m) :
    ¬latchedSink ins m.sig = true := by
  intro hlatched
  unfold latchedSink at hlatched
  split at hlatched
  · rename_i op hop
    obtain ⟨hmem, hinit⟩ := mem_sinks_of_latched hlatched
    have hbefore := not_mem_take_of_countP (hsinks op hmem) hi (decide_eq_true hop)
    have hflag : op.latched m.sig = false :=
      StraightLine.run_invariant (P := fun m => op.latched m.sig = false)
        (fun ins' hins' s s' hs h => (exec_flag (of_decide_eq_false (hbefore ins' hins')) h).trans hs)
        hinit hm
    exact Bool.false_ne_true (hflag.symm.trans hlatched)
  · cases hlatched

/-- Every bar of an accepted program with each sink at most once runs to its end. -/
theorem step_returns [CountsBack F] {prog : Program} (hp : Accepted prog)
    (hsinks : prog.SinksOnce) {vm : StrategyVM F} (hvm : Sound prog vm) {bars : BarSeries F}
    {t : ℕ} (ht : t < bars.size) (ctx : VmCtx F) :
    ∃ sig vm', vm.step bars t ctx = .ok (sig, vm') := by
  obtain ⟨rfl, hparams, hgood⟩ := hvm
  have he : EnvOk vm.prog (vm.env bars t ctx) := ⟨rfl, hparams, ht⟩
  obtain ⟨m, hm, -⟩ := StraightLine.run_depth hgood rfl
    (fun _ _ _ hk hm hsp => exec_at_depth hp he hp.maxStack_le hk hm hsp) le_rfl
    fun k ins m _ hk hm => not_latched hsinks hk hm
  refine ⟨m.sig, { vm with state := m.state, locals := m.locals }, bind_eq_ok.2 ⟨m, ?_, rfl⟩⟩
  rw [← machineBefore_eq_run hp, machineBefore, List.take_length] at hm
  exact hm

end StrategyVM

end ItchOrderbook
