import ItchOrderbook.Trade.VmSpec

/-!
# An instruction writes into its own slot

The slots of an accepted program divide its state block. An indicator writes into the slot that
its operand names, every other instruction writes into none (`exec_frame`). So a slot that only
one instruction names is as that instruction left it when the next bar gets there.
-/

namespace ItchOrderbook

open CheckedState FloatOps Program

/-- The instruction keeps its state in slot `k`. -/
def Vm.Names (ins : UInt32) (k : ℕ) : Prop :=
  ∃ op kind, Op.ofCode (opCode ins) = some op ∧ op.expectedStateKind = some kind ∧
    (operand ins).toNat = k

namespace Vm

variable {F : Type} {prog : Program} {α β : Type}

/-- Slot `a` is as it was. -/
def SameSlot (prog : Program) (a : ℕ) (m m' : Machine F) : Prop :=
  ∀ i, InSlot prog a i → m'.state[i]? = m.state[i]?

theorem SameSlot.of_state {a : ℕ} {m m' : Machine F} (h : m'.state = m.state) :
    SameSlot prog a m m' := fun i _ => by rw [h]

theorem SameSlot.trans {a : ℕ} {m m' m'' : Machine F} (h : SameSlot prog a m m')
    (h' : SameSlot prog a m' m'') : SameSlot prog a m m'' :=
  fun i hi => (h' i hi).trans (h i hi)

/-! ## Computations that only read -/

/-- `c` leaves the machine alone; what it returns has `R`. -/
def Reads (c : Vm F α) (R : α → Prop) : Prop :=
  ∀ m, wp c m (fun a m' => m' = m ∧ R a) fun _ => True

variable {c : Vm F α} {f : α → Vm F β} {R : α → Prop} {R' : β → Prop}

theorem Reads.pure {a : α} (h : R a) : Reads (pure a : Vm F α) R := fun _ => ⟨rfl, h⟩

theorem Reads.bind (hc : Reads c R) (hf : ∀ a, R a → Reads (f a) R') : Reads (c >>= f) R' := by
  intro m
  rw [wp_bind]
  refine wp_mono (hc m) ?_ fun _ => id
  rintro a m' ⟨rfl, ha⟩
  exact hf a ha m'

theorem Reads.map {g : α → β} (hc : Reads c R) (h : ∀ a, R a → R' (g a)) :
    Reads (g <$> c) R' := by
  rw [map_eq_pure_bind]
  exact hc.bind fun a ha => Reads.pure (h a ha)

theorem Reads.foldlM {γ : Type} {g : β → γ → Vm F β} {xs : List γ} (b : β)
    (h : ∀ b x, Reads (g b x) fun _ => True) : Reads (xs.foldlM g b) fun _ => True := by
  intro m
  refine wp_foldlM (fun _ m' => m' = m ∧ True) ⟨rfl, trivial⟩ ?_
  rintro x - b m' ⟨rfl, -⟩
  exact h b x m'

theorem reads_fetch (fault : Fault) (xs : List α) (i : ℤ) :
    Reads (F := F) (fetch fault xs i) fun x => xs[i.toNat]? = some x := by
  intro m
  rw [fetch]
  split
  · rename_i x hx
    refine ⟨rfl, ?_⟩
    split at hx
    · exact hx
    · cases hx
  · trivial

theorem reads_readState (i : ℤ) : Reads (F := F) (readState i) fun _ => True :=
  fun m => wp_mono (reads_fetch .state m.state i m) (fun _ _ h => ⟨h.1, trivial⟩) fun _ => id

theorem reads_readLocal (arg : UInt32) : Reads (F := F) (readLocal arg) fun _ => True :=
  fun m => wp_mono (reads_fetch .local m.locals arg.toNat m) (fun _ _ h => ⟨h.1, trivial⟩)
    fun _ => id

theorem reads_readSeries (env : StepEnv F) (sid idx : ℤ) :
    Reads (readSeries env sid idx) fun _ => True := by
  intro m
  rw [readSeries]
  split
  · exact wp_mono (reads_fetch .bar _ _ m) (fun _ _ h => ⟨h.1, trivial⟩) fun _ => id
  · trivial

variable {env : StepEnv F} {arg : UInt32}

theorem reads_stateOff (he : EnvOk prog env) (hp : Accepted prog)
    (harg : arg.toNat < prog.stateKind.length) :
    Reads (stateOff env arg) fun st => st = slotOff prog arg.toNat := by
  rw [stateOff, he.prog_eq]
  refine (reads_fetch .slot prog.stateOff arg.toNat).map fun off hoff => ?_
  rw [slotOff, toNat_toUInt32_of_nonneg (hp.slot _ harg).off_nonneg, List.getD_eq_getElem?_getD,
    show prog.stateOff[arg.toNat]? = some off from hoff]
  rfl

theorem reads_stateCap (he : EnvOk prog env) :
    Reads (stateCap env arg) fun cap => cap = (prog.stateCap.getD arg.toNat 0).toInt := by
  rw [stateCap, he.prog_eq]
  refine (reads_fetch .slot prog.stateCap arg.toNat).map fun cap hcap => ?_
  rw [List.getD_eq_getElem?_getD, show prog.stateCap[arg.toNat]? = some cap from hcap]
  rfl

theorem reads_stateAux : Reads (stateAux env arg) fun _ => True :=
  fun m => wp_mono (reads_fetch .slot _ _ m) (fun _ _ h => ⟨h.1, trivial⟩) fun _ => id

variable [FloatMath F]

theorem reads_trueRange : Reads (trueRange env) fun _ => True := by
  refine (reads_readSeries env 1 _).bind fun _ _ => ?_
  refine (reads_readSeries env 2 _).bind fun _ _ => ?_
  split
  · exact Reads.pure trivial
  · exact (reads_readSeries env 3 _).bind fun _ _ => Reads.pure trivial

/-- A window is computed from what is there. -/
theorem reads_window (window : Window) (k : ℤ) {elem : ℤ → Vm F F}
    (h : ∀ i, Reads (elem i) fun _ => True) : Reads (window.eval k elem) fun _ => True := by
  have hsum : Reads (sumOf k elem) fun _ => True :=
    Reads.foldlM _ fun _ i => (h i).bind fun _ _ => Reads.pure trivial
  have hextreme (better : F → F → Bool) : Reads (extremeOf better k elem) fun _ => True :=
    (h 0).bind fun _ _ => Reads.foldlM _ fun _ i => (h (i + 1)).bind fun _ _ => Reads.pure trivial
  cases window with
  | sma => exact hsum.bind fun _ _ => Reads.pure trivial
  | highest => exact hextreme _
  | lowest => exact hextreme _
  | stddev =>
    refine hsum.bind fun _ _ => ?_
    refine Reads.bind (R := fun _ => True) ?_ fun _ _ => Reads.pure trivial
    exact Reads.foldlM _ fun _ i => (h i).bind fun _ _ => Reads.pure trivial

theorem reads_rawWindow (he : EnvOk prog env) (window : Window) (n : F) :
    Reads (rawWindow window env arg n) fun _ => True := by
  refine (reads_stateCap he).bind fun _ _ => ?_
  refine reads_stateAux.bind fun _ _ => ?_
  exact reads_window window _ fun i => reads_readSeries env _ _

theorem reads_delayRaw (he : EnvOk prog env) (kk : F) :
    Reads (delayRaw env arg kk) fun _ => True := by
  refine (reads_stateCap he).bind fun _ _ => ?_
  refine reads_stateAux.bind fun _ _ => ?_
  exact reads_readSeries env _ _

/-! ## Indicators of another slot -/

variable {a : ℕ} {m : Machine F}

/-- Run from `m`, `c` leaves slot `a` as it was. -/
def Spares (prog : Program) (a : ℕ) (c : Vm F α) (m : Machine F) : Prop :=
  wp c m (fun _ m' => SameSlot prog a m m') fun _ => True

omit [FloatMath F] in
theorem Spares.bind (hc : Spares prog a c m) (hf : ∀ x m', Spares prog a (f x) m') :
    Spares prog a (c >>= f) m := by
  rw [Spares, wp_bind]
  refine wp_mono hc (fun x m' h => ?_) fun _ => id
  exact wp_mono (hf x m') (fun _ _ h' => h.trans h') fun _ => id

omit [FloatMath F] in
theorem Reads.spares_bind (hc : Reads c R) (hf : ∀ x, R x → Spares prog a (f x) m) :
    Spares prog a (c >>= f) m := by
  rw [Spares, wp_bind]
  refine wp_mono (hc m) ?_ fun _ => id
  rintro x m' ⟨rfl, hx⟩
  exact hf x hx

omit [FloatMath F] in
theorem Reads.spares (hc : Reads c R) : Spares prog a c m := by
  refine wp_mono (hc m) ?_ fun _ => id
  rintro x m' ⟨rfl, -⟩
  exact SameSlot.of_state rfl

omit [FloatMath F] in
theorem spares_pure (x : α) (m : Machine F) : Spares prog a (pure x) m := SameSlot.of_state rfl

omit [FloatMath F] in
/-- A write into slot `k` leaves slot `a` alone. -/
theorem spares_writeState (hp : Accepted prog) {k : ℕ} (hk : k < prog.stateKind.length)
    (ha : a < prog.stateKind.length) (hne : k ≠ a) {i : ℤ} (hi : InSlot prog k i.toNat) (x : F)
    (m : Machine F) : Spares prog a (writeState i x) m := by
  rw [Spares, writeState, wp_bind, wp_get, wp_bind]
  refine wp_mono (reads_fetch .state m.state i m) ?_ fun _ => id
  rintro - m' ⟨rfl, -⟩
  intro j hj
  have hij : i.toNat ≠ j := by
    rintro rfl
    exact hp.apart k hk a ha hne _ hi hj
  exact List.getElem?_set_ne hij

section OtherSlot

variable (he : EnvOk prog env) (hp : Accepted prog) (harg : arg.toNat < prog.stateKind.length)
  (ha : a < prog.stateKind.length) (hne : arg.toNat ≠ a)

include he hp harg ha hne

theorem spares_ema (hkind : prog.stateKind.getD arg.toNat 0 = skEma) (n x : F) (m : Machine F) :
    Spares prog a (ema env arg n x) m := by
  have hsize := slotSize_ema hkind
  refine (reads_stateOff he hp harg).spares_bind fun st hst => ?_
  refine (reads_readState _).spares_bind fun _ _ => ?_
  refine (reads_readState _).spares_bind fun _ _ => ?_
  refine (spares_writeState hp harg ha hne ⟨by omega, by omega⟩ _ _).bind fun _ _ => ?_
  refine (spares_writeState hp harg ha hne ⟨by omega, by omega⟩ _ _).bind fun _ _ => ?_
  exact spares_pure _ _

theorem spares_rsi (hkind : prog.stateKind.getD arg.toNat 0 = skWilder2) (n x : F)
    (m : Machine F) : Spares prog a (rsi env arg n x) m := by
  have hsize := slotSize_wilder2 hkind
  refine (reads_stateOff he hp harg).spares_bind fun st hst => ?_
  refine (reads_readState _).spares_bind fun _ _ => ?_
  refine (reads_readState _).spares_bind fun _ _ => ?_
  refine (reads_readState _).spares_bind fun _ _ => ?_
  refine (reads_readState _).spares_bind fun _ _ => ?_
  refine (spares_writeState hp harg ha hne ⟨by omega, by omega⟩ _ _).bind fun _ _ => ?_
  refine (spares_writeState hp harg ha hne ⟨by omega, by omega⟩ _ _).bind fun _ _ => ?_
  refine (spares_writeState hp harg ha hne ⟨by omega, by omega⟩ _ _).bind fun _ _ => ?_
  refine (spares_writeState hp harg ha hne ⟨by omega, by omega⟩ _ _).bind fun _ _ => ?_
  exact spares_pure _ _

theorem spares_atr (hkind : prog.stateKind.getD arg.toNat 0 = skWilder1) (n : F)
    (m : Machine F) : Spares prog a (atr env arg n) m := by
  have hsize := slotSize_wilder1 hkind
  refine (reads_stateOff he hp harg).spares_bind fun st hst => ?_
  refine reads_trueRange.spares_bind fun _ _ => ?_
  refine (reads_readState _).spares_bind fun _ _ => ?_
  refine (reads_readState _).spares_bind fun _ _ => ?_
  refine (spares_writeState hp harg ha hne ⟨by omega, by omega⟩ _ _).bind fun _ _ => ?_
  refine (spares_writeState hp harg ha hne ⟨by omega, by omega⟩ _ _).bind fun _ _ => ?_
  exact spares_pure _ _

theorem spares_cross (hkind : prog.stateKind.getD arg.toNat 0 = skPrev2)
    (crosses : F → F → F → F → Bool) (y x : F) (m : Machine F) :
    Spares prog a (cross crosses env arg y x) m := by
  have hsize := slotSize_prev2 hkind
  refine (reads_stateOff he hp harg).spares_bind fun st hst => ?_
  refine (reads_readState _).spares_bind fun _ _ => ?_
  refine (reads_readState _).spares_bind fun _ _ => ?_
  refine (reads_readState _).spares_bind fun _ _ => ?_
  refine (spares_writeState hp harg ha hne ⟨by omega, by omega⟩ _ _).bind fun _ _ => ?_
  refine (spares_writeState hp harg ha hne ⟨by omega, by omega⟩ _ _).bind fun _ _ => ?_
  refine (spares_writeState hp harg ha hne ⟨by omega, by omega⟩ _ _).bind fun _ _ => ?_
  exact spares_pure _ _

omit he in
/-- The cell that a value is put into belongs to the ring, since its count is not negative. -/
theorem spares_ringPush [CountsBack F] (hkind : prog.stateKind.getD arg.toNat 0 = skRing) (x : F)
    (hm : Good prog m) :
    Spares prog a
      (ringPush (slotOff prog arg.toNat) (prog.stateCap.getD arg.toNat 0).toInt x) m := by
  obtain ⟨hcap, hsize⟩ := slotSize_ring (hp.slot _ harg) hkind
  rw [Spares, ringPush, wp_bind]
  refine wp_mono (reads_fetch .state m.state _ m) ?_ fun _ => id
  rintro count m' ⟨rfl, hcount⟩
  have hpos : 0 ≤ toInt count := by
    obtain ⟨n, hn⟩ := hm.counted _ harg hkind
    have hread : m'.state[slotOff prog arg.toNat]? = some count := hcount
    rw [List.getD_eq_getElem?_getD, hread] at hn
    exact hn ▸ CountsBack.count_nonneg n
  have h₀ := Int.tmod_nonneg (prog.stateCap.getD arg.toNat 0).toInt hpos
  have hlt := Int.tmod_lt_of_pos (toInt count) hcap
  refine (spares_writeState hp harg ha hne ⟨by omega, by omega⟩ _ _).bind fun _ _ => ?_
  refine (spares_writeState hp harg ha hne ⟨by omega, by omega⟩ _ _).bind fun _ _ => ?_
  exact spares_pure _ _

theorem spares_ringWindow [CountsBack F] (hkind : prog.stateKind.getD arg.toNat 0 = skRing)
    (window : Window) (n x : F) (hm : Good prog m) :
    Spares prog a (ringWindow window env arg n x) m := by
  refine (reads_stateOff he hp harg).spares_bind fun st hst => ?_
  refine (reads_stateCap he).spares_bind fun cap hcap => ?_
  subst hst
  subst hcap
  refine (spares_ringPush hp harg ha hne hkind x hm).bind fun count m' => ?_
  exact (reads_window window _ fun _ => reads_readState _).spares

theorem spares_delay [CountsBack F] (hkind : prog.stateKind.getD arg.toNat 0 = skRing)
    (kk x : F) (hm : Good prog m) : Spares prog a (delay env arg kk x) m := by
  refine (reads_stateOff he hp harg).spares_bind fun st hst => ?_
  refine (reads_stateCap he).spares_bind fun cap hcap => ?_
  subst hst
  subst hcap
  refine (spares_ringPush hp harg ha hne hkind x hm).bind fun count m' => ?_
  exact (reads_readState _).spares

end OtherSlot

/-! ## Every instruction -/

variable {limit : ℕ}

omit [FloatMath F] in
theorem spares_push (x : F) (m : Machine F) : Spares prog a (push limit x) m :=
  wp_push (fun _ => trivial) fun _ _ hstate _ => SameSlot.of_state hstate

omit [FloatMath F] in
theorem spares_pushes {value : Vm F F} (h : Spares prog a value m) :
    Spares prog a (pushes limit value) m :=
  h.bind fun x m' => spares_push x m'

omit [FloatMath F] in
theorem spares_unary (f : F → F) (m : Machine F) : Spares prog a (unary f) m :=
  wp_unary (fun _ => trivial) fun _ _ hstate _ => SameSlot.of_state hstate

/-- Popping leaves the state block and a good machine. -/
theorem spares_pop_bind {f : F → Vm F β} (hm : Good prog m)
    (hf : ∀ x m', Good prog m' → Spares prog a (f x) m') : Spares prog a (pop >>= f) m := by
  rw [Spares, wp_bind]
  refine wp_pop (fun _ => trivial) fun x m' _ hstate hlocals _ => ?_
  refine wp_mono (hf x m' (hm.congr hstate hlocals)) (fun _ _ h => ?_) fun _ => id
  exact (SameSlot.of_state hstate).trans h

theorem spares_pop1 {value : F → Vm F F} (hm : Good prog m)
    (h : ∀ n m', Good prog m' → Spares prog a (value n) m') :
    Spares prog a (pop1 limit value) m :=
  spares_pop_bind hm fun n m' hm' => (h n m' hm').bind fun x m'' => spares_push x m''

theorem spares_pop2 {value : F → F → Vm F F} (hm : Good prog m)
    (h : ∀ n x m', Good prog m' → Spares prog a (value n x) m') :
    Spares prog a (pop2 limit value) m :=
  spares_pop_bind hm fun n _ hm' => spares_pop_bind hm' fun x m' hm'' =>
    (h n x m' hm'').bind fun y m'' => spares_push y m''

theorem spares_binary (hm : Good prog m) (f : F → F → F) : Spares prog a (binary f) m :=
  spares_pop_bind hm fun y m' _ => spares_unary (fun x => f x y) m'

theorem spares_config (hm : Good prog m) (assign : F → Signals F → Signals F) :
    Spares prog a (config assign) m :=
  spares_pop_bind hm fun _ _ _ => SameSlot.of_state rfl

theorem spares_signal (hm : Good prog m) (flag : Signals F → Bool)
    (raise : Bool → Signals F → Signals F) : Spares prog a (signal flag raise) m := by
  rw [Spares, signal, wp_bind, wp_get, wp_ite]
  exact ⟨fun _ => SameSlot.of_state rfl,
    fun _ => spares_pop_bind hm fun _ _ _ => SameSlot.of_state rfl⟩

theorem spares_store (hm : Good prog m) :
    Spares (F := F) prog a (do writeLocal arg (← pop)) m := by
  refine spares_pop_bind hm fun x m' _ => ?_
  rw [Spares, writeLocal, wp_bind, wp_get, wp_bind]
  refine wp_mono (reads_fetch .local m'.locals arg.toNat m') ?_ fun _ => id
  rintro - m'' ⟨rfl, -⟩
  exact SameSlot.of_state rfl

/-- An instruction that does not name slot `a` leaves it as it was. -/
theorem spares_execOp [CountsBack F] (he : EnvOk prog env) (hp : Accepted prog) {op : Op}
    {ins : UInt32} {depth : ℤ} (hi : InstrOk prog op ins depth)
    (ha : a < prog.stateKind.length) (hno : ¬Names ins a) (hm : Good prog m) :
    Spares prog a (execOp limit env op (operand ins)) m := by
  have harg := hi.operandOk
  have hkind := hi.kindOk
  have hne {kind : Int32} (h : op.expectedStateKind = some kind) : (operand ins).toNat ≠ a :=
    fun heq => hno ⟨op, kind, hi.opcode, h, heq⟩
  cases op with
  | pushConst =>
    refine spares_pushes (Reads.spares (R := fun _ => True) ?_)
    exact (reads_fetch .constant _ _).map fun _ _ => trivial
  | pushParam => exact spares_pushes (reads_fetch .param _ _).spares
  | pushSeries | pushSeriesLag => exact spares_pushes (reads_readSeries env _ _).spares
  | pushCtx => exact spares_pushes (spares_pure _ m)
  | load => exact spares_pushes (reads_readLocal _).spares
  | store => exact spares_store hm
  | add | sub | mul | div | min2 | max2 | gt | lt | ge | le | eq | ne | and | or =>
    exact spares_binary hm _
  | neg | abs | sqrt | log | not => exact spares_unary _ m
  | sma | highest | lowest | stddev =>
    exact spares_pop2 hm fun n x _ =>
      spares_ringWindow he hp harg ha (hne rfl) (hkind _ rfl) _ n x
  | delay =>
    exact spares_pop2 hm fun n x _ => spares_delay he hp harg ha (hne rfl) (hkind _ rfl) n x
  | ema =>
    exact spares_pop2 hm fun n x m' _ => spares_ema he hp harg ha (hne rfl) (hkind _ rfl) n x m'
  | rsi =>
    exact spares_pop2 hm fun n x m' _ => spares_rsi he hp harg ha (hne rfl) (hkind _ rfl) n x m'
  | atr =>
    exact spares_pop1 hm fun n m' _ => spares_atr he hp harg ha (hne rfl) (hkind _ rfl) n m'
  | crossover | crossunder =>
    exact spares_pop2 hm fun n x m' _ =>
      spares_cross he hp harg ha (hne rfl) (hkind _ rfl) _ n x m'
  | smaRaw | highestRaw | lowestRaw | stddevRaw =>
    exact spares_pop1 hm fun n _ _ => (reads_rawWindow he _ n).spares
  | delayRaw => exact spares_pop1 hm fun n _ _ => (reads_delayRaw he n).spares
  | sigEl => exact spares_signal hm (·.el) fun b sig => { sig with el := b }
  | sigXl => exact spares_signal hm (·.xl) fun b sig => { sig with xl := b }
  | sigEs => exact spares_signal hm (·.es) fun b sig => { sig with es := b }
  | sigXs => exact spares_signal hm (·.xs) fun b sig => { sig with xs := b }
  | setStop => exact spares_config hm fun x sig => { sig with stop := x }
  | setTp => exact spares_config hm fun x sig => { sig with tp := x }
  | setTrail => exact spares_config hm fun x sig => { sig with trail := x }
  | setSize =>
    exact spares_config hm fun x sig =>
      let s := if lt x zero then zero else x
      { sig with size := if lt one s then one else s }
  | halt => exact spares_pure _ m

/-- The frame of an instruction: a slot that it does not name. -/
theorem exec_frame [CountsBack F] (he : EnvOk prog env) (hp : Accepted prog) {i : ℕ}
    {ins : UInt32} (hi : prog.code[i]? = some ins) (ha : a < prog.stateKind.length)
    (hno : ¬Names ins a) {m' : Machine F} (hm : Good prog m)
    (h : exec limit env ins m = .ok m') : SameSlot prog a m m' := by
  obtain ⟨op, hok, -⟩ := hp.instr i ins hi
  rw [exec, hok.opcode] at h
  obtain ⟨⟨u, m''⟩, hrun, hm''⟩ := bind_eq_ok.1 ((map_eq_pure_bind _ _).symm.trans h)
  cases hm''
  have hframe := wp_ok (spares_execOp he hp hok ha hno hm) hrun
  exact hframe

end Vm

end ItchOrderbook
