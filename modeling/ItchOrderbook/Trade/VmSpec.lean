import ItchOrderbook.Trade.DslVm
import ItchOrderbook.Trade.ProgramSpec

/-!
# What one instruction of an accepted program does

`Good` is what every instruction keeps: the sizes of the state block and of the locals, and that
the count of each ring has only ever been counted up. On it, an instruction's reads and writes
are in range whatever the operands on the stack are (`Steady`), so all that can go wrong is the
stack itself (`Moves`).
-/

namespace ItchOrderbook

open CheckedState FloatOps Program

/-- The signal flag that a sink latches. -/
def Op.latched {F : Type} (op : Op) (sig : Signals F) : Bool :=
  match op with
  | .sigEl => sig.el
  | .sigXl => sig.xl
  | .sigEs => sig.es
  | .sigXs => sig.xs
  | _ => false

namespace Vm

variable {F : Type} {prog : Program}

/-! ## Single accesses -/

theorem wp_fetch {α : Type} {fault : Fault} {xs : List α} {i : ℤ} {m : Machine F}
    {Q : α → Machine F → Prop} {E : Fault → Prop} (h₀ : 0 ≤ i) (hi : i.toNat < xs.length)
    (hQ : Q xs[i.toNat] m) : wp (fetch fault xs i) m Q E := by
  rw [fetch, if_pos h₀, List.getElem?_eq_getElem hi]
  exact hQ

/-- Popping: there is nothing, or the rest stays. -/
theorem wp_pop {m : Machine F} {Q : F → Machine F → Prop} {E : Fault → Prop}
    (hempty : m.sp = 0 → E .stackUnderflow)
    (hpop : ∀ x m', m'.sp + 1 = m.sp → m'.state = m.state → m'.locals = m.locals →
      m'.sig = m.sig → Q x m') : wp pop m Q E := by
  unfold pop
  rw [wp_bind, wp_get]
  cases hstack : m.stack with
  | nil => exact hempty (by rw [Machine.sp, hstack]; rfl)
  | cons x rest => exact hpop x _ (by rw [Machine.sp, Machine.sp, hstack]; rfl) rfl rfl rfl

/-- Pushing: there is room, or the limit is reached. -/
theorem wp_push {limit : ℕ} {m : Machine F} {x : F} {Q : Unit → Machine F → Prop} {E : Fault → Prop}
    (hfull : limit ≤ m.sp → E .stackOverflow)
    (hpush : ∀ m', m'.sp = m.sp + 1 → m'.state = m.state → m'.locals = m.locals → Q () m') :
    wp (push limit x) m Q E := by
  unfold push
  rw [wp_bind, wp_get, wp_ite]
  exact ⟨fun _ => hpush _ rfl rfl rfl, fun h => hfull (Nat.le_of_not_lt h)⟩

/-- Reading the top and writing it. -/
theorem wp_unary {m : Machine F} {f : F → F} {Q : Unit → Machine F → Prop} {E : Fault → Prop}
    (hempty : m.sp = 0 → E .stackUnderflow)
    (htop : ∀ m', m'.sp = m.sp → m'.state = m.state → m'.locals = m.locals → Q () m') :
    wp (unary f) m Q E := by
  unfold unary top setTop
  rw [wp_bind, wp_bind, wp_get]
  cases hstack : m.stack with
  | nil => exact hempty (by rw [Machine.sp, hstack]; rfl)
  | cons x rest =>
    rw [wp_pure, wp_bind, wp_get, hstack]
    exact htop _ (by rw [Machine.sp, Machine.sp, hstack]; rfl) rfl rfl

/-! ## The invariant -/

variable [FloatMath F]

/-- What holds of the state block and the locals between two instructions. -/
structure Good (prog : Program) (m : Machine F) : Prop where
  state : m.state.length = prog.stateFloats.toNat
  locals : m.locals.length = if prog.nLocals > 0 then prog.nLocals.toNat else 1
  counted : ∀ i < prog.stateKind.length, prog.stateKind.getD i 0 = skRing →
    ∃ n, toInt (m.state.getD (slotOff prog i) zero) = count F n

/-- The stack and the signals are no part of it. -/
theorem Good.congr {m m' : Machine F} (h : Good prog m) (hstate : m'.state = m.state)
    (hlocals : m'.locals = m.locals) : Good prog m' := by
  refine ⟨?_, ?_, ?_⟩
  · rw [hstate, h.state]
  · rw [hlocals, h.locals]
  · rw [hstate]
    exact h.counted

/-- Where the code has locals, that many are there. -/
theorem Good.locals_length {m : Machine F} {arg : UInt32} (h : Good prog m)
    (harg : arg < prog.nLocals) : m.locals.length = prog.nLocals.toNat := by
  have hpos : 0 < prog.nLocals :=
    UInt32.lt_iff_toNat_lt.2 ((Nat.zero_le _).trans_lt (UInt32.lt_iff_toNat_lt.1 harg))
  rw [h.locals, if_pos hpos]

/-! ## Reads and writes -/

/-- On a good machine `c` returns, with `R` of the value; it leaves the stack and the signals. -/
def Steady {α : Type} (prog : Program) (c : Vm F α) (R : α → Prop) : Prop :=
  ∀ m, Good prog m →
    wp c m (fun a m' => Good prog m' ∧ m'.stack = m.stack ∧ m'.sig = m.sig ∧ R a) fun _ => False

variable {α β : Type} {c : Vm F α} {f : α → Vm F β} {R : α → Prop} {R' : β → Prop}

theorem Steady.pure {a : α} (h : R a) : Steady prog (pure a : Vm F α) R :=
  fun _ hm => ⟨hm, rfl, rfl, h⟩

theorem Steady.bind (hc : Steady prog c R) (hf : ∀ a, R a → Steady prog (f a) R') :
    Steady prog (c >>= f) R' := by
  intro m hm
  rw [wp_bind]
  refine wp_mono (hc m hm) ?_ fun _ => id
  rintro a m' ⟨hm', hstack, hsig, ha⟩
  refine wp_mono (hf a ha m' hm') ?_ fun _ => id
  rintro b m'' ⟨hm'', hstack', hsig', hb⟩
  exact ⟨hm'', hstack'.trans hstack, hsig'.trans hsig, hb⟩

theorem Steady.mono {R' : α → Prop} (hc : Steady prog c R) (h : ∀ a, R a → R' a) :
    Steady prog c R' := by
  intro m hm
  refine wp_mono (hc m hm) ?_ fun _ => id
  rintro a m' ⟨hm', hstack, hsig, ha⟩
  exact ⟨hm', hstack, hsig, h a ha⟩

theorem Steady.map {g : α → β} (hc : Steady prog c R) (h : ∀ a, R a → R' (g a)) :
    Steady prog (g <$> c) R' := by
  rw [map_eq_pure_bind]
  exact hc.bind fun a ha => Steady.pure (h a ha)

theorem Steady.foldlM {γ : Type} {g : β → γ → Vm F β} {xs : List γ} (b : β)
    (h : ∀ b, ∀ x ∈ xs, Steady prog (g b x) fun _ => True) :
    Steady prog (xs.foldlM g b) fun _ => True := by
  intro m hm
  refine wp_foldlM (fun _ m' => Good prog m' ∧ m'.stack = m.stack ∧ m'.sig = m.sig ∧ True)
    ⟨hm, rfl, rfl, trivial⟩ ?_
  rintro x hx b m' ⟨hm', hstack, hsig, -⟩
  refine wp_mono (h b x hx m' hm') ?_ fun _ => id
  rintro b' m'' ⟨hm'', hstack', hsig', -⟩
  exact ⟨hm'', hstack'.trans hstack, hsig'.trans hsig, trivial⟩

/-- An element of an array that no instruction writes. -/
theorem steady_fetch (fault : Fault) {xs : List α} {i : ℕ} (hi : i < xs.length) :
    Steady (F := F) prog (fetch fault xs i) fun x => xs[i]? = some x :=
  fun _ hm => wp_fetch (Int.natCast_nonneg i) hi ⟨hm, rfl, rfl, List.getElem?_eq_getElem hi⟩

/-- A float of the state block. -/
theorem steady_readState {i : ℤ} (h₀ : 0 ≤ i) (hi : i < prog.stateFloats.toNat) :
    Steady (F := F) prog (readState i) fun _ => True := by
  intro m hm
  rw [readState, wp_bind, wp_get]
  exact wp_fetch h₀ (by rw [hm.state]; omega) ⟨hm, rfl, rfl, trivial⟩

/-- The count of a ring has been counted up. -/
theorem steady_readCount {k : ℕ} (hk : k < prog.stateKind.length)
    (hring : prog.stateKind.getD k 0 = skRing) (hoff : slotOff prog k < prog.stateFloats.toNat) :
    Steady (F := F) prog (readState (slotOff prog k)) fun x => ∃ n, toInt x = count F n := by
  intro m hm
  rw [readState, wp_bind, wp_get]
  have hlt : (slotOff prog k : ℤ).toNat < m.state.length := by rw [hm.state]; omega
  refine wp_fetch (by omega) hlt ⟨hm, rfl, rfl, ?_⟩
  obtain ⟨n, hn⟩ := hm.counted k hk hring
  refine ⟨n, ?_⟩
  rw [← hn, List.getD_eq_getElem?_getD, List.getElem?_eq_getElem (show slotOff prog k < _ from hlt)]
  rfl

/-- A write into a slot. The count of a ring may only be counted up. -/
theorem steady_writeState (hp : Accepted prog) {k : ℕ} (hk : k < prog.stateKind.length) {i : ℤ}
    (h₀ : 0 ≤ i) (hi : InSlot prog k i.toNat) {x : F}
    (hx : prog.stateKind.getD k 0 = skRing → i.toNat = slotOff prog k →
      ∃ n, toInt x = count F n) :
    Steady (F := F) prog (writeState i x) fun _ => True := by
  intro m hm
  have hlt : i.toNat < m.state.length := by
    rw [hm.state]
    exact lt_of_lt_of_le hi.2 (hp.slot k hk).fits
  rw [writeState, wp_bind, wp_get, wp_bind]
  refine wp_fetch h₀ hlt ⟨⟨?_, hm.locals, fun j hj hring => ?_⟩, rfl, rfl, trivial⟩
  · rw [List.length_set, hm.state]
  · rcases eq_or_ne i.toNat (slotOff prog j) with heq | hne
    · -- the count of ring `j` is written: it is the slot's own
      have hin : InSlot prog j (slotOff prog j) := by
        obtain ⟨hcap, hsize⟩ := slotSize_ring (hp.slot j hj) hring
        exact ⟨le_rfl, by omega⟩
      have hkj : k = j := by
        by_contra hne
        exact hp.apart k hk j hj hne _ hi (heq ▸ hin)
      subst hkj
      obtain ⟨n, hn⟩ := hx hring heq
      refine ⟨n, ?_⟩
      show toInt ((m.state.set i.toNat x).getD _ zero) = _
      rw [← heq, List.getD_eq_getElem?_getD, List.getElem?_set_self hlt]
      exact hn
    · obtain ⟨n, hn⟩ := hm.counted j hj hring
      refine ⟨n, ?_⟩
      show toInt ((m.state.set i.toNat x).getD _ zero) = _
      rw [← hn, List.getD_eq_getElem?_getD, List.getD_eq_getElem?_getD, List.getElem?_set_ne hne]

/-! ## What the environment of a step gives -/

/-- The parameters are as many as the program has, and the bar exists. -/
structure EnvOk (prog : Program) (env : StepEnv F) : Prop where
  prog_eq : env.prog = prog
  params : env.params.length = prog.paramDefaults.length
  bar : env.t < env.bars.size

variable {env : StepEnv F} {arg : UInt32}

omit [FloatMath F] in
theorem series_length (env : StepEnv F) (sid : ℤ) : (series env sid).length = env.bars.size := by
  unfold series
  split
  · exact env.bars.o_length
  split
  · exact env.bars.h_length
  split
  · exact env.bars.l_length
  split
  · rfl
  · exact env.bars.v_length

/-- A series at a bar that is not after the current one. -/
theorem steady_readSeries (he : EnvOk prog env) {sid idx : ℤ} (h₀ : 0 ≤ sid) (h₅ : sid < 5)
    (hidx : idx ≤ env.t) : Steady prog (readSeries env sid idx) fun _ => True := by
  rw [readSeries, if_pos ⟨h₀, h₅⟩]
  have hbar := he.bar
  intro m hm
  refine wp_fetch (le_max_right idx 0) ?_ ⟨hm, rfl, rfl, trivial⟩
  rw [series_length]
  omega

theorem steady_stateOff (he : EnvOk prog env) (hp : Accepted prog)
    (harg : arg.toNat < prog.stateKind.length) :
    Steady prog (stateOff env arg) fun st => st = slotOff prog arg.toNat := by
  rw [stateOff, he.prog_eq]
  refine (steady_fetch .slot (by rw [hp.offs]; exact harg)).map fun off hoff => ?_
  rw [slotOff, toNat_toUInt32_of_nonneg (hp.slot _ harg).off_nonneg, List.getD_eq_getElem?_getD,
    hoff]
  rfl

theorem steady_stateCap (he : EnvOk prog env) (hp : Accepted prog)
    (harg : arg.toNat < prog.stateKind.length) :
    Steady prog (stateCap env arg) fun cap => cap = (prog.stateCap.getD arg.toNat 0).toInt := by
  rw [stateCap, he.prog_eq]
  refine (steady_fetch .slot (by rw [hp.caps]; exact harg)).map fun cap hcap => ?_
  rw [List.getD_eq_getElem?_getD, hcap]
  rfl

theorem steady_stateAux (he : EnvOk prog env) (hp : Accepted prog)
    (harg : arg.toNat < prog.stateKind.length) :
    Steady prog (stateAux env arg) fun aux => aux = prog.stateAux.getD arg.toNat 0 := by
  rw [stateAux, he.prog_eq]
  refine (steady_fetch .slot (by rw [hp.auxs]; exact harg)).mono fun aux haux => ?_
  rw [List.getD_eq_getElem?_getD, haux]
  rfl

/-! ## Indicators with a slot of fixed size -/

/-- Reading float `j` of a slot. -/
theorem steady_readSlot (hp : Accepted prog) {k : ℕ} (hk : k < prog.stateKind.length) {i : ℤ}
    {j : ℕ} (hi : i = (slotOff prog k : ℤ) + j) (hj : j < slotSize prog k) :
    Steady (F := F) prog (readState i) fun _ => True := by
  have hfits := (hp.slot k hk).fits
  exact steady_readState (by omega) (by omega)

/-- Writing float `j` of a slot that is no ring. -/
theorem steady_writeSlot (hp : Accepted prog) {k : ℕ} (hk : k < prog.stateKind.length)
    (hring : prog.stateKind.getD k 0 ≠ skRing) {i : ℤ} {j : ℕ}
    (hi : i = (slotOff prog k : ℤ) + j) (hj : j < slotSize prog k) (x : F) :
    Steady prog (writeState i x) fun _ => True :=
  steady_writeState hp hk (by omega) ⟨by omega, by omega⟩ fun h => absurd h hring

theorem steady_ema (he : EnvOk prog env) (hp : Accepted prog)
    (harg : arg.toNat < prog.stateKind.length)
    (hkind : prog.stateKind.getD arg.toNat 0 = skEma) (n x : F) :
    Steady prog (ema env arg n x) fun _ => True := by
  have hsize := slotSize_ema hkind
  have hring : prog.stateKind.getD arg.toNat 0 ≠ skRing := by rw [hkind]; decide
  refine (steady_stateOff he hp harg).bind fun st hst => ?_
  refine (steady_readSlot hp harg (j := 0) (by omega) (by omega)).bind fun _ _ => ?_
  refine (steady_readSlot hp harg (j := 1) (by omega) (by omega)).bind fun _ _ => ?_
  refine (steady_writeSlot hp harg hring (j := 1) (by omega) (by omega) _).bind fun _ _ => ?_
  refine (steady_writeSlot hp harg hring (j := 0) (by omega) (by omega) _).bind fun _ _ => ?_
  exact Steady.pure trivial

theorem steady_rsi (he : EnvOk prog env) (hp : Accepted prog)
    (harg : arg.toNat < prog.stateKind.length)
    (hkind : prog.stateKind.getD arg.toNat 0 = skWilder2) (n x : F) :
    Steady prog (rsi env arg n x) fun _ => True := by
  have hsize := slotSize_wilder2 hkind
  have hring : prog.stateKind.getD arg.toNat 0 ≠ skRing := by rw [hkind]; decide
  refine (steady_stateOff he hp harg).bind fun st hst => ?_
  refine (steady_readSlot hp harg (j := 0) (by omega) (by omega)).bind fun _ _ => ?_
  refine (steady_readSlot hp harg (j := 1) (by omega) (by omega)).bind fun _ _ => ?_
  refine (steady_readSlot hp harg (j := 2) (by omega) (by omega)).bind fun _ _ => ?_
  refine (steady_readSlot hp harg (j := 3) (by omega) (by omega)).bind fun _ _ => ?_
  refine (steady_writeSlot hp harg hring (j := 2) (by omega) (by omega) _).bind fun _ _ => ?_
  refine (steady_writeSlot hp harg hring (j := 3) (by omega) (by omega) _).bind fun _ _ => ?_
  refine (steady_writeSlot hp harg hring (j := 1) (by omega) (by omega) _).bind fun _ _ => ?_
  refine (steady_writeSlot hp harg hring (j := 0) (by omega) (by omega) _).bind fun _ _ => ?_
  exact Steady.pure trivial

theorem steady_trueRange (he : EnvOk prog env) :
    Steady prog (trueRange env) fun _ => True := by
  refine (steady_readSeries he (by omega) (by omega) le_rfl).bind fun _ _ => ?_
  refine (steady_readSeries he (by omega) (by omega) le_rfl).bind fun _ _ => ?_
  split
  · exact Steady.pure trivial
  · refine (steady_readSeries he (by omega) (by omega) (by omega)).bind fun _ _ => ?_
    exact Steady.pure trivial

theorem steady_atr (he : EnvOk prog env) (hp : Accepted prog)
    (harg : arg.toNat < prog.stateKind.length)
    (hkind : prog.stateKind.getD arg.toNat 0 = skWilder1) (n : F) :
    Steady prog (atr env arg n) fun _ => True := by
  have hsize := slotSize_wilder1 hkind
  have hring : prog.stateKind.getD arg.toNat 0 ≠ skRing := by rw [hkind]; decide
  refine (steady_stateOff he hp harg).bind fun st hst => ?_
  refine (steady_trueRange he).bind fun _ _ => ?_
  refine (steady_readSlot hp harg (j := 0) (by omega) (by omega)).bind fun _ _ => ?_
  refine (steady_readSlot hp harg (j := 1) (by omega) (by omega)).bind fun _ _ => ?_
  refine (steady_writeSlot hp harg hring (j := 1) (by omega) (by omega) _).bind fun _ _ => ?_
  refine (steady_writeSlot hp harg hring (j := 0) (by omega) (by omega) _).bind fun _ _ => ?_
  exact Steady.pure trivial

theorem steady_cross (he : EnvOk prog env) (hp : Accepted prog)
    (harg : arg.toNat < prog.stateKind.length)
    (hkind : prog.stateKind.getD arg.toNat 0 = skPrev2) (crosses : F → F → F → F → Bool)
    (y x : F) : Steady prog (cross crosses env arg y x) fun _ => True := by
  have hsize := slotSize_prev2 hkind
  have hring : prog.stateKind.getD arg.toNat 0 ≠ skRing := by rw [hkind]; decide
  refine (steady_stateOff he hp harg).bind fun st hst => ?_
  refine (steady_readSlot hp harg (j := 0) (by omega) (by omega)).bind fun _ _ => ?_
  refine (steady_readSlot hp harg (j := 1) (by omega) (by omega)).bind fun _ _ => ?_
  refine (steady_readSlot hp harg (j := 2) (by omega) (by omega)).bind fun _ _ => ?_
  refine (steady_writeSlot hp harg hring (j := 1) (by omega) (by omega) _).bind fun _ _ => ?_
  refine (steady_writeSlot hp harg hring (j := 2) (by omega) (by omega) _).bind fun _ _ => ?_
  refine (steady_writeSlot hp harg hring (j := 0) (by omega) (by omega) _).bind fun _ _ => ?_
  exact Steady.pure trivial

/-! ## Windows -/

/-- A result over a window whose elements can all be read. -/
theorem steady_window (window : Window) {k : ℤ} (hk : 0 < k) {elem : ℤ → Vm F F}
    (h : ∀ i, 0 ≤ i → i < k → Steady prog (elem i) fun _ => True) :
    Steady prog (window.eval k elem) fun _ => True := by
  have hsum : Steady prog (sumOf k elem) fun _ => True := by
    refine Steady.foldlM _ fun acc i hi => ?_
    have hlt := List.mem_range.1 hi
    exact (h i (by omega) (by omega)).bind fun _ _ => Steady.pure trivial
  have hextreme : ∀ better, Steady prog (extremeOf better k elem) fun _ => True := by
    intro better
    refine (h 0 le_rfl hk).bind fun first _ => ?_
    refine Steady.foldlM _ fun acc i hi => ?_
    have hlt := List.mem_range.1 hi
    exact (h (i + 1) (by omega) (by omega)).bind fun _ _ => Steady.pure trivial
  cases window with
  | sma => exact hsum.bind fun _ _ => Steady.pure trivial
  | highest => exact hextreme _
  | lowest => exact hextreme _
  | stddev =>
    refine hsum.bind fun _ _ => ?_
    refine Steady.bind (R := fun _ => True) ?_ fun _ _ => Steady.pure trivial
    refine Steady.foldlM _ fun acc i hi => ?_
    have hlt := List.mem_range.1 hi
    exact (h i (by omega) (by omega)).bind fun _ _ => Steady.pure trivial

/-- An element of a ring, wherever the count has got to. -/
theorem steady_readRing (hp : Accepted prog) {k : ℕ} (hk : k < prog.stateKind.length)
    (hring : prog.stateKind.getD k 0 = skRing) {i : ℤ} (hi : 0 ≤ i) :
    Steady (F := F) prog
      (readState (slotOff prog k + (1 + i.tmod (prog.stateCap.getD k 0).toInt))) fun _ => True := by
  obtain ⟨hcap, hsize⟩ := slotSize_ring (hp.slot k hk) hring
  have hfits := (hp.slot k hk).fits
  have h₀ := Int.tmod_nonneg (prog.stateCap.getD k 0).toInt hi
  have hlt := Int.tmod_lt_of_pos i hcap
  exact steady_readState (by omega) (by omega)

/-- A value is put into a ring; the new count is positive. -/
theorem steady_ringPush [CountsBack F] (hp : Accepted prog) {k : ℕ}
    (hk : k < prog.stateKind.length) (hring : prog.stateKind.getD k 0 = skRing) (x : F) :
    Steady prog (ringPush (slotOff prog k) (prog.stateCap.getD k 0).toInt x) fun count =>
      0 < count := by
  obtain ⟨hcap, hsize⟩ := slotSize_ring (hp.slot k hk) hring
  have hfits := (hp.slot k hk).fits
  refine (steady_readCount hk hring (by omega)).bind fun c hc => ?_
  obtain ⟨n, hn⟩ := hc
  have hpos : 0 ≤ toInt c := by rw [hn]; exact CountsBack.count_nonneg n
  have h₀ := Int.tmod_nonneg (prog.stateCap.getD k 0).toInt hpos
  have hlt := Int.tmod_lt_of_pos (toInt c) hcap
  refine (steady_writeState hp hk (by omega) ⟨by omega, by omega⟩ fun _ heq => ?_).bind
    fun _ _ => ?_
  · -- the element is not at the place of the count
    omega
  refine (steady_writeState hp hk (by omega) ⟨by omega, by omega⟩ fun _ _ => ?_).bind
    fun _ _ => ?_
  · exact ⟨n + 1, by rw [hn]; rfl⟩
  · exact Steady.pure (by omega)

theorem steady_ringWindow [CountsBack F] (he : EnvOk prog env) (hp : Accepted prog)
    (harg : arg.toNat < prog.stateKind.length)
    (hkind : prog.stateKind.getD arg.toNat 0 = skRing) (window : Window) (n x : F) :
    Steady prog (ringWindow window env arg n x) fun _ => True := by
  obtain ⟨hcap, -⟩ := slotSize_ring (hp.slot _ harg) hkind
  refine (steady_stateOff he hp harg).bind fun st hst => ?_
  refine (steady_stateCap he hp harg).bind fun cap hcap' => ?_
  subst hst
  subst hcap'
  refine (steady_ringPush hp harg hkind x).bind fun count hcount => ?_
  have hn : 1 ≤ nEff n := le_max_right _ _
  refine steady_window window (by omega) fun i h₀ _ => ?_
  exact steady_readRing hp harg hkind (by omega)

theorem steady_delay [CountsBack F] (he : EnvOk prog env) (hp : Accepted prog)
    (harg : arg.toNat < prog.stateKind.length)
    (hkind : prog.stateKind.getD arg.toNat 0 = skRing) (kk x : F) :
    Steady prog (delay env arg kk x) fun _ => True := by
  obtain ⟨hcap, -⟩ := slotSize_ring (hp.slot _ harg) hkind
  refine (steady_stateOff he hp harg).bind fun st hst => ?_
  refine (steady_stateCap he hp harg).bind fun cap hcap' => ?_
  subst hst
  subst hcap'
  refine (steady_ringPush hp harg hkind x).bind fun count hcount => ?_
  exact steady_readRing hp harg hkind (by omega)

/-! ## Windows over a series -/

/-- The lag in `aux` is not negative. -/
theorem lag_nonneg (aux : Int32) : 0 ≤ (aux &&& 0xFFFF).toInt := by
  have hmsb : (aux.toBitVec &&& (0xFFFF : BitVec 32)).msb = false := by
    rw [BitVec.msb_and, show (0xFFFF : BitVec 32).msb = false from by decide, Bool.and_false]
  show 0 ≤ (aux.toBitVec &&& (0xFFFF : BitVec 32)).toInt
  rw [BitVec.toInt_eq_toNat_of_msb hmsb]
  exact Int.natCast_nonneg _

/-- A series number that the unsigned shift of the validation finds in range is the number that
the signed shift of the VM finds. -/
theorem sid_range {aux : Int32} (h : aux.toUInt32 >>> 16 < nSeries) :
    0 ≤ (aux >>> 16).toInt ∧ (aux >>> 16).toInt < 5 := by
  have hnat : aux.toBitVec.toNat / 65536 < 5 := by
    have hlt := UInt32.lt_iff_toNat_lt.1 h
    rw [UInt32.toNat_shiftRight, Nat.shiftRight_eq_div_pow] at hlt
    exact hlt
  have hint : aux.toInt = aux.toBitVec.toNat := BitVec.toInt_eq_toNat_of_lt (by omega)
  have hshift : (aux >>> 16).toInt = aux.toInt >>> (16 : ℕ) := BitVec.toInt_sshiftRight
  rw [hshift, hint, Int.shiftRight_eq_div_pow]
  omega

theorem steady_readRaw (he : EnvOk prog env) (hp : Accepted prog) {k : ℕ}
    (hk : k < prog.stateKind.length) (hraw : prog.stateKind.getD k 0 = skRaw) {j : ℤ}
    (hj : j ≤ env.t) : Steady prog (readRaw env (prog.stateAux.getD k 0) j) fun _ => True := by
  obtain ⟨h₀, h₅⟩ := sid_range ((hp.slot k hk).series hraw)
  have hlag := lag_nonneg (prog.stateAux.getD k 0)
  exact steady_readSeries he h₀ h₅ (by omega)

/-- The capacity of a raw window is positive. -/
theorem rawCap_pos (hp : Accepted prog) {k : ℕ} (hk : k < prog.stateKind.length)
    (hraw : prog.stateKind.getD k 0 = skRaw) : 0 < (prog.stateCap.getD k 0).toInt := by
  obtain ⟨size, hsize⟩ := (hp.slot k hk).sized
  exact (stateSize_cap hsize (.inr hraw)).1

theorem steady_rawWindow (he : EnvOk prog env) (hp : Accepted prog)
    (harg : arg.toNat < prog.stateKind.length)
    (hkind : prog.stateKind.getD arg.toNat 0 = skRaw) (window : Window) (n : F) :
    Steady prog (rawWindow window env arg n) fun _ => True := by
  have hpos := rawCap_pos hp harg hkind
  refine (steady_stateCap he hp harg).bind fun cap hcap => ?_
  refine (steady_stateAux he hp harg).bind fun aux haux => ?_
  subst hcap
  subst haux
  have hn : 1 ≤ nEff n := le_max_right _ _
  refine steady_window window (by omega) fun i _ hi => ?_
  exact steady_readRaw he hp harg hkind (by omega)

theorem steady_delayRaw (he : EnvOk prog env) (hp : Accepted prog)
    (harg : arg.toNat < prog.stateKind.length)
    (hkind : prog.stateKind.getD arg.toNat 0 = skRaw) (kk : F) :
    Steady prog (delayRaw env arg kk) fun _ => True := by
  have hpos := rawCap_pos hp harg hkind
  refine (steady_stateCap he hp harg).bind fun cap hcap => ?_
  refine (steady_stateAux he hp harg).bind fun aux haux => ?_
  subst hcap
  subst haux
  exact steady_readRaw he hp harg hkind (by omega)

/-! ## The stack -/

/-- On a good machine `c` moves the stack pointer by `delta` and keeps the machine good, or fails
because fewer than `need` operands are there or because the stack would outgrow `limit`. -/
def Moves (prog : Program) (limit : ℕ) (need delta : ℤ) (c : Vm F Unit) : Prop :=
  ∀ m, Good prog m →
    wp c m (fun _ m' => Good prog m' ∧ (m'.sp : ℤ) = m.sp + delta)
      fun _ => (m.sp : ℤ) < need ∨ (limit : ℤ) < m.sp + delta

variable {limit : ℕ}

theorem pushes_moves {value : Vm F F} (h : Steady prog value fun _ => True) :
    Moves prog limit 0 1 (pushes limit value) := by
  intro m hm
  unfold pushes
  rw [wp_bind]
  refine wp_mono (h m hm) ?_ fun _ => False.elim
  rintro x m' ⟨hm', hstack, -, -⟩
  have hsp : m'.sp = m.sp := congrArg List.length hstack
  exact wp_push (fun hfull => .inr (by omega)) fun m'' hsp' hstate hlocals =>
    ⟨hm'.congr hstate hlocals, by omega⟩

theorem pop1_moves {value : F → Vm F F} (h : ∀ n, Steady prog (value n) fun _ => True) :
    Moves prog limit 1 0 (pop1 limit value) := by
  intro m hm
  unfold pop1
  rw [wp_bind]
  refine wp_pop (fun hempty => .inl (by omega)) fun n m₁ hsp₁ hstate₁ hlocals₁ _ => ?_
  rw [wp_bind]
  refine wp_mono (h n m₁ (hm.congr hstate₁ hlocals₁)) ?_ fun _ => False.elim
  rintro x m' ⟨hm', hstack, -, -⟩
  have hsp : m'.sp = m₁.sp := congrArg List.length hstack
  exact wp_push (fun hfull => .inr (by omega)) fun m'' hsp' hstate hlocals =>
    ⟨hm'.congr hstate hlocals, by omega⟩

theorem pop2_moves {value : F → F → Vm F F} (h : ∀ n x, Steady prog (value n x) fun _ => True) :
    Moves prog limit 2 (-1) (pop2 limit value) := by
  intro m hm
  unfold pop2
  rw [wp_bind]
  refine wp_pop (fun hempty => .inl (by omega)) fun n m₁ hsp₁ hstate₁ hlocals₁ _ => ?_
  rw [wp_bind]
  refine wp_pop (fun hempty => .inl (by omega)) fun x m₂ hsp₂ hstate₂ hlocals₂ _ => ?_
  rw [wp_bind]
  refine wp_mono (h n x m₂ ((hm.congr hstate₁ hlocals₁).congr hstate₂ hlocals₂)) ?_
    fun _ => False.elim
  rintro y m' ⟨hm', hstack, -, -⟩
  have hsp : m'.sp = m₂.sp := congrArg List.length hstack
  exact wp_push (fun hfull => .inr (by omega)) fun m'' hsp' hstate hlocals =>
    ⟨hm'.congr hstate hlocals, by omega⟩

theorem unary_moves (f : F → F) : Moves prog limit 1 0 (unary f) := fun _ hm =>
  wp_unary (fun hempty => .inl (by omega)) fun _ hsp hstate hlocals =>
    ⟨hm.congr hstate hlocals, by omega⟩

theorem binary_moves (f : F → F → F) : Moves prog limit 2 (-1) (binary f) := by
  intro m hm
  show wp (pop >>= fun y => unary fun x => f x y) m _ _
  rw [wp_bind]
  refine wp_pop (fun hempty => .inl (by omega)) fun y m₁ hsp₁ hstate₁ hlocals₁ _ => ?_
  exact wp_unary (fun hempty => .inl (by omega)) fun m' hsp hstate hlocals =>
    ⟨(hm.congr hstate₁ hlocals₁).congr hstate hlocals, by omega⟩

theorem config_moves (assign : F → Signals F → Signals F) :
    Moves prog limit 1 (-1) (config assign) := by
  intro m hm
  unfold config
  rw [wp_bind]
  refine wp_pop (fun hempty => .inl (by omega)) fun x m₁ hsp₁ hstate₁ hlocals₁ _ => ?_
  rw [wp_modify]
  refine ⟨hm.congr hstate₁ hlocals₁, ?_⟩
  show (m₁.sp : ℤ) = _
  omega

theorem store_moves (harg : arg < prog.nLocals) :
    Moves (F := F) prog limit 1 (-1) (do writeLocal arg (← pop)) := by
  intro m hm
  rw [wp_bind]
  refine wp_pop (fun hempty => .inl (by omega)) fun x m₁ hsp₁ hstate₁ hlocals₁ _ => ?_
  have hm₁ := hm.congr hstate₁ hlocals₁
  rw [writeLocal, wp_bind, wp_get, wp_bind]
  have hlt := UInt32.lt_iff_toNat_lt.1 harg
  have hlen := hm₁.locals_length harg
  refine wp_fetch (by omega) (by omega) ⟨⟨hm₁.state, ?_, hm₁.counted⟩, ?_⟩
  · rw [List.length_set, hm₁.locals]
  · show (m₁.sp : ℤ) = _
    omega

theorem steady_readLocal (harg : arg < prog.nLocals) :
    Steady (F := F) prog (readLocal arg) fun _ => True := by
  intro m hm
  rw [readLocal, wp_bind, wp_get]
  have hlt := UInt32.lt_iff_toNat_lt.1 harg
  have hlen := hm.locals_length harg
  exact wp_fetch (by omega) (by omega) ⟨hm, rfl, rfl, trivial⟩

/-! ## Every instruction -/

/-- A sink pops its operand unless its flag is set; then it leaves the stack as it is. -/
theorem wp_signal {m : Machine F} (hm : Good prog m) (flag : Signals F → Bool)
    (raise : Bool → Signals F → Signals F) :
    wp (signal flag raise) m
      (fun _ m' => Good prog m' ∧ (m'.sp : ℤ) = m.sp - 1 + if flag m.sig then 1 else 0)
      fun _ => (m.sp : ℤ) < 1 := by
  unfold signal
  rw [wp_bind, wp_get, wp_ite]
  constructor
  · intro hset
    rw [if_pos hset, wp_modify]
    refine ⟨hm.congr rfl rfl, ?_⟩
    show (m.sp : ℤ) = _
    omega
  · intro hclear
    rw [if_neg hclear, wp_bind]
    refine wp_pop (fun hempty => by omega) fun x m₁ hsp₁ hstate₁ hlocals₁ _ => ?_
    rw [wp_modify]
    refine ⟨hm.congr hstate₁ hlocals₁, ?_⟩
    show (m₁.sp : ℤ) = _
    omega

/-- What every instruction of an accepted program does to the stack pointer: what the validation
says, except that a sink whose flag is set pops nothing. -/
theorem wp_execOp [CountsBack F] (he : EnvOk prog env) (hp : Accepted prog) {op : Op}
    {ins : UInt32} {depth : ℤ} (hi : InstrOk prog op ins depth) {m : Machine F}
    (hm : Good prog m) :
    wp (execOp limit env op (operand ins)) m
      (fun _ m' => Good prog m' ∧
        (m'.sp : ℤ) = m.sp + op.stackDelta + if op.latched m.sig then 1 else 0)
      fun _ => (m.sp : ℤ) < op.requiredStack ∨ (limit : ℤ) < m.sp + op.stackDelta := by
  have harg := hi.operandOk
  have hkind := hi.kindOk
  -- a sink that pops, and every other instruction
  have moves : ∀ {need delta : ℤ} {c : Vm F Unit}, Moves prog limit need delta c →
      wp c m (fun _ m' => Good prog m' ∧ (m'.sp : ℤ) = m.sp + delta + if false then 1 else 0)
        fun _ => (m.sp : ℤ) < need ∨ (limit : ℤ) < m.sp + delta := by
    intro need delta c hc
    refine wp_mono (hc m hm) ?_ fun _ => id
    rintro _ m' ⟨hm', hsp⟩
    exact ⟨hm', by simpa using hsp⟩
  have sink : ∀ flag raise, wp (signal flag raise) m
      (fun _ m' => Good prog m' ∧ (m'.sp : ℤ) = m.sp + -1 + if flag m.sig then 1 else 0)
        fun _ => (m.sp : ℤ) < 1 ∨ (limit : ℤ) < m.sp + -1 := by
    intro flag raise
    exact wp_mono (wp_signal hm flag raise) (fun _ _ => id) fun _ => .inl
  cases op with
  | pushConst =>
    refine moves (pushes_moves ?_)
    rw [he.prog_eq]
    exact (steady_fetch .constant harg).map fun _ _ => trivial
  | pushParam =>
    refine moves (pushes_moves ((steady_fetch .param ?_).mono fun _ _ => trivial))
    rw [he.params]
    exact harg
  | pushSeries =>
    have hsid := UInt32.lt_iff_toNat_lt.1 harg
    refine moves (pushes_moves (steady_readSeries he (by omega) ?_ le_rfl))
    exact_mod_cast hsid
  | pushSeriesLag =>
    have hsid := UInt32.lt_iff_toNat_lt.1 harg
    refine moves (pushes_moves (steady_readSeries he (by omega) ?_ (by omega)))
    exact_mod_cast hsid
  | pushCtx => exact moves (pushes_moves (Steady.pure trivial))
  | load => exact moves (pushes_moves (steady_readLocal harg))
  | store => exact moves (store_moves harg)
  | add | sub | mul | div | min2 | max2 | gt | lt | ge | le | eq | ne | and | or =>
    exact moves (binary_moves _)
  | neg | abs | sqrt | log | not => exact moves (unary_moves _)
  | sma | highest | lowest | stddev =>
    exact moves (pop2_moves (steady_ringWindow he hp harg (hkind _ rfl) _))
  | ema => exact moves (pop2_moves (steady_ema he hp harg (hkind _ rfl)))
  | rsi => exact moves (pop2_moves (steady_rsi he hp harg (hkind _ rfl)))
  | atr => exact moves (pop1_moves (steady_atr he hp harg (hkind _ rfl)))
  | delay => exact moves (pop2_moves (steady_delay he hp harg (hkind _ rfl)))
  | crossover | crossunder =>
    exact moves (pop2_moves (steady_cross he hp harg (hkind _ rfl) _))
  | smaRaw | highestRaw | lowestRaw | stddevRaw =>
    exact moves (pop1_moves (steady_rawWindow he hp harg (hkind _ rfl) _))
  | delayRaw => exact moves (pop1_moves (steady_delayRaw he hp harg (hkind _ rfl)))
  | sigEl => exact sink (·.el) fun b sig => { sig with el := b }
  | sigXl => exact sink (·.xl) fun b sig => { sig with xl := b }
  | sigEs => exact sink (·.es) fun b sig => { sig with es := b }
  | sigXs => exact sink (·.xs) fun b sig => { sig with xs := b }
  | setStop => exact moves (config_moves fun x sig => { sig with stop := x })
  | setTp => exact moves (config_moves fun x sig => { sig with tp := x })
  | setTrail => exact moves (config_moves fun x sig => { sig with trail := x })
  | setSize =>
    exact moves (config_moves fun x sig =>
      let s := if lt x zero then zero else x
      { sig with size := if lt one s then one else s })
  | halt => exact ⟨hm, by simp [Op.stackDelta, Op.latched]⟩

/-- Instruction `ins` is a sink whose flag is already set. -/
def latchedSink (ins : UInt32) (sig : Signals F) : Bool :=
  match Op.ofCode (opCode ins) with
  | some op => op.latched sig
  | none => false

/-- An instruction that returns keeps the machine good and moves the stack pointer by what the
validation says, a latched sink by one less. -/
theorem exec_ok [CountsBack F] (he : EnvOk prog env) (hp : Accepted prog) {op : Op} {ins : UInt32}
    {depth : ℤ} (hi : InstrOk prog op ins depth) {m m' : Machine F} (hm : Good prog m)
    (h : exec limit env ins m = .ok m') :
    Good prog m' ∧ (m'.sp : ℤ) = m.sp + insDelta ins + if latchedSink ins m.sig then 1 else 0 := by
  rw [exec, hi.opcode] at h
  obtain ⟨⟨u, m''⟩, hrun, hm''⟩ := bind_eq_ok.1 ((map_eq_pure_bind _ _).symm.trans h)
  cases hm''
  rw [insDelta_eq hi.opcode, latchedSink, hi.opcode]
  have hend := wp_ok (wp_execOp he hp hi hm) hrun
  exact hend

/-- With its operands on the stack and room for its result, an instruction returns. -/
theorem exec_returns [CountsBack F] (he : EnvOk prog env) (hp : Accepted prog) {op : Op}
    {ins : UInt32} {depth : ℤ} (hi : InstrOk prog op ins depth) {m : Machine F}
    (hm : Good prog m) (hneed : op.requiredStack ≤ m.sp) (hroom : m.sp + insDelta ins ≤ limit) :
    ∃ m', exec limit env ins m = .ok m' := by
  rw [insDelta_eq hi.opcode] at hroom
  have hwp : wp (execOp limit env op (operand ins)) m _ _ := wp_execOp he hp hi hm
  obtain ⟨u, m', hrun, -⟩ := wp_returns hwp (by omega)
  refine ⟨m', ?_⟩
  rw [exec, hi.opcode]
  show (·.2) <$> (execOp limit env op (operand ins)).run m = _
  rw [hrun]
  rfl

/-! ## More room changes nothing -/

omit [FloatMath F] in
theorem push_extends {a b : ℕ} (hab : a ≤ b) (x : F) : Extends (push a x) (push b x) := by
  intro m u m' h
  have hlt : m.stack.length < a := by
    by_contra hge
    have herr : (push a x).run m = .error .stackOverflow := by
      show (if m.stack.length < a then _ else _ : Vm F Unit) m = _
      rw [if_neg hge]
      rfl
    rw [herr] at h
    cases h
  have hrun : ∀ n, m.stack.length < n → (push n x).run m =
      .ok ((), { m with stack := x :: m.stack }) := by
    intro n hn
    show (if m.stack.length < n then _ else _ : Vm F Unit) m = _
    rw [if_pos hn]
    rfl
  rw [hrun a hlt] at h
  rw [hrun b (hlt.trans_le hab), h]

theorem execOp_extends {a b : ℕ} (hab : a ≤ b) (op : Op) (arg : UInt32) :
    Extends (execOp a env op arg) (execOp b env op arg) := by
  have pushes_le : ∀ value : Vm F F, Extends (pushes a value) (pushes b value) :=
    fun _ => Extends.bind fun x => push_extends hab x
  have pop1_le : ∀ value : F → Vm F F, Extends (pop1 a value) (pop1 b value) :=
    fun _ => Extends.bind fun _ => Extends.bind fun x => push_extends hab x
  have pop2_le : ∀ value : F → F → Vm F F, Extends (pop2 a value) (pop2 b value) :=
    fun _ => Extends.bind fun _ => Extends.bind fun _ => Extends.bind fun x => push_extends hab x
  cases op with
  | pushConst | pushParam | pushSeries | pushSeriesLag | pushCtx | load => exact pushes_le _
  | atr | smaRaw | highestRaw | lowestRaw | stddevRaw | delayRaw => exact pop1_le _
  | sma | ema | rsi | highest | lowest | stddev | delay | crossover | crossunder =>
    exact pop2_le _
  | _ => exact Extends.refl _

theorem exec_extends {a b : ℕ} (hab : a ≤ b) {ins : UInt32} {m m' : Machine F}
    (h : exec a env ins m = .ok m') : exec b env ins m = .ok m' := by
  unfold exec at h ⊢
  split at h
  · rename_i op hop
    obtain ⟨⟨u, m''⟩, hrun, hm''⟩ := bind_eq_ok.1 ((map_eq_pure_bind _ _).symm.trans h)
    cases hm''
    rw [execOp_extends hab op (operand ins) m u m'' hrun]
    rfl
  · exact h

end Vm

end ItchOrderbook
