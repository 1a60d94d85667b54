import ItchOrderbook.Lib.RingBuffer
import ItchOrderbook.Trade.SlotFrame

/-!
# Ring windows and raw windows

The indicators come twice: `SMA` and its like keep a ring `[count, buf...]` of what they were fed,
`SMA_RAW` and its like look the values up in the bar arrays again. When a ring is fed the series
that the raw one reads, once a bar, its cells hold the last values of the series (`Filled`), and the
two compute the same float operations in the same order (`ring_returns`, `raw_returns`).
-/

namespace ItchOrderbook

open CheckedState FloatOps Program

/-- A count up to 2^24 is exact in a `float`. -/
class ExactCounts (F : Type) [FloatOps F] : Prop where
  toInt_zero : toInt (zero : F) = 0
  toInt_ofInt : ∀ n : ℕ, n ≤ 2 ^ 24 → toInt (ofInt n : F) = n

instance : ExactCounts ℚ where
  toInt_zero := by decide +kernel
  toInt_ofInt n _ := ratTrunc_intCast n

namespace Vm

variable {F : Type} [FloatMath F]

/-! ## The value of a window -/

/-- What is computed from the elements of a window. -/
def Window.value (window : Window) (k : ℕ) (e : ℕ → F) : F :=
  let sum := (List.range k).foldl (fun acc i => acc + e i) zero
  match window with
  | .sma => sum / ofInt k
  | .highest => (List.range (k - 1)).foldl
      (fun acc i => if lt acc (e (i + 1)) then e (i + 1) else acc) (e 0)
  | .lowest => (List.range (k - 1)).foldl
      (fun acc i => if lt (e (i + 1)) acc then e (i + 1) else acc) (e 0)
  | .stddev =>
    let var := (List.range k).foldl (fun ss i => ss + (e i - sum / ofInt k) * (e i - sum / ofInt k))
      zero / ofInt k
    if lt zero var then FloatMath.sqrtf var else zero

/-- A computation that returns a value and leaves the machine alone. -/
def Returns {α : Type} (c : Vm F α) (m : Machine F) (a : α) : Prop := c.run m = .ok (a, m)

omit [FloatMath F] in
theorem Returns.bind {α β : Type} {c : Vm F α} {f : α → Vm F β} {m : Machine F} {a : α} {b : β}
    (h : Returns c m a) (hf : Returns (f a) m b) : Returns (c >>= f) m b := by
  show (c.run m >>= fun p => (f p.1).run p.2) = _
  rw [h]
  exact hf

omit [FloatMath F] in
theorem Returns.foldlM {β : Type} {g : β → ℕ → Vm F β} {f : β → ℕ → β} {m : Machine F} {n : ℕ}
    (h : ∀ b, ∀ i < n, Returns (g b i) m (f b i)) (b : β) :
    Returns ((List.range n).foldlM g b) m ((List.range n).foldl f b) := by
  have hmem (is : List ℕ) (his : ∀ i ∈ is, i < n) (b : β) :
      Returns (is.foldlM g b) m (is.foldl f b) := by
    induction is generalizing b with
    | nil => rfl
    | cons i is ih =>
      rw [List.foldlM_cons]
      exact (h b i (his i List.mem_cons_self)).bind
        (ih (fun j hj => his j (List.mem_cons_of_mem i hj)) _)
  exact hmem _ (fun i hi => List.mem_range.1 hi) b

omit [FloatMath F] in
theorem fetch_returns {α : Type} {fault : Fault} {xs : List α} {i : ℕ} {a : α} {m : Machine F}
    (h : xs[i]? = some a) : Returns (fetch fault xs i) m a := by
  rw [fetch, if_pos (Int.natCast_nonneg i), Int.toNat_natCast, h]
  rfl

/-- The window is evaluated to the value of its elements. -/
theorem eval_returns (window : Window) {k : ℕ} (hk : 0 < k) {elem : ℤ → Vm F F} {e : ℕ → F}
    {m : Machine F} (h : ∀ i < k, Returns (elem i) m (e i)) :
    Returns (window.eval k elem) m (window.value k e) := by
  have hsum : Returns (sumOf k elem) m ((List.range k).foldl (fun acc i => acc + e i) zero) := by
    show Returns ((List.range k).foldlM (fun acc (i : ℕ) => do return acc + (← elem i)) zero) m _
    refine Returns.foldlM (fun acc i hi => ?_) zero
    exact (h i hi).bind rfl
  have hextreme (better : F → F → Bool) : Returns (extremeOf better k elem) m
      ((List.range (k - 1)).foldl
        (fun acc i => if better (e (i + 1)) acc then e (i + 1) else acc) (e 0)) := by
    have hlen : ((k : ℤ) - 1).toNat = k - 1 := by omega
    refine (h 0 hk).bind ?_
    rw [hlen]
    refine Returns.foldlM (fun acc i hi => ?_) (e 0)
    exact (h (i + 1) (by omega)).bind rfl
  cases window with
  | sma => exact hsum.bind rfl
  | highest => exact hextreme fun xi acc => lt acc xi
  | lowest => exact hextreme fun xi acc => lt xi acc
  | stddev =>
    refine hsum.bind ?_
    set mean := (List.range k).foldl (fun acc i => acc + e i) zero / ofInt k
    have hss : Returns ((List.range k).foldlM (fun ss (i : ℕ) => do
        let d := (← elem i) - mean
        return ss + d * d) zero) m
        ((List.range k).foldl (fun ss i => ss + (e i - mean) * (e i - mean)) zero) := by
      refine Returns.foldlM (fun ss i hi => ?_) zero
      exact (h i hi).bind rfl
    exact hss.bind rfl

/-! ## The indicators that come twice -/

/-- An indicator with a ring opcode and a raw one. -/
inductive Indicator where
  | window (w : Window)
  | delay
  deriving DecidableEq, Repr

/-- The opcode that keeps a ring. -/
def Indicator.ring : Indicator → Op
  | .window .sma => .sma
  | .window .highest => .highest
  | .window .lowest => .lowest
  | .window .stddev => .stddev
  | .delay => .delay

/-- The opcode that reads the bars. -/
def Indicator.raw : Indicator → Op
  | .window .sma => .smaRaw
  | .window .highest => .highestRaw
  | .window .lowest => .lowestRaw
  | .window .stddev => .stddevRaw
  | .delay => .delayRaw

/-- The number of elements that operand `n` selects at bar `t`. -/
def span (cap t : ℕ) (n : F) : ℕ := min (t + 1) (min (nEff n).toNat cap)

/-- How far operand `n` reaches back at bar `t`. -/
def back (cap t : ℕ) (n : F) : ℕ := min (min (toInt n).toNat (cap - 1)) (min (t + 1) cap - 1)

/-- What the indicator is at bar `t` of a series. -/
def Indicator.value (ind : Indicator) (cap t : ℕ) (n : F) (x : ℕ → F) : F :=
  match ind with
  | .window w => w.value (span cap t n) fun i => x (t + 1 - span cap t n + i)
  | .delay => x (t - back cap t n)

theorem span_cast {cap : ℤ} (hcap : 0 < cap) (t : ℕ) (n : F) :
    ((span cap.toNat t n : ℕ) : ℤ) = min ((t : ℤ) + 1) (min (nEff n) cap) := by
  have hn : 1 ≤ nEff n := le_max_right _ _
  unfold span
  omega

theorem span_pos {cap : ℕ} (hcap : 0 < cap) (t : ℕ) (n : F) : 0 < span cap t n := by
  have hn : 1 ≤ nEff n := le_max_right _ _
  unfold span
  omega

theorem back_cast {cap : ℤ} (hcap : 0 < cap) (t : ℕ) (n : F) :
    ((back cap.toNat t n : ℕ) : ℤ) =
      min (min (max (toInt n) 0) (cap - 1)) (min ((t : ℤ) + 1) cap - 1) := by
  unfold back
  omega

/-! ## The ring -/

section Ring

variable {prog : Program} {k t : ℕ} {x : ℕ → F} {m : Machine F}

/-- The capacity of a slot. -/
def slotCap (prog : Program) (k : ℕ) : ℤ := (prog.stateCap.getD k 0).toInt

/-- The cells of a ring, without its count. -/
def ringCells (prog : Program) (k : ℕ) (m : Machine F) : List F :=
  (m.state.drop (slotOff prog k + 1)).take (slotCap prog k).toNat

/-- Slot `k` is a ring into which `t` values of `x` have been put. -/
structure Filled (prog : Program) (k t : ℕ) (x : ℕ → F) (m : Machine F) : Prop where
  count : ∃ c, m.state[slotOff prog k]? = some c ∧ toInt c = t
  cells : RingBuffer.Holds (slotCap prog k).toNat t x (ringCells prog k m)

omit [FloatMath F] in
theorem ringCells_getElem? (prog : Program) (k j : ℕ) (m : Machine F) :
    (ringCells prog k m)[j]? =
      if j < (slotCap prog k).toNat then m.state[slotOff prog k + 1 + j]? else none := by
  rw [ringCells, List.getElem?_take, List.getElem?_drop]

/-- A value of the window, as the VM reads it. -/
theorem Filled.read (h : Filled prog k t x m) (hcap : 0 < slotCap prog k) {j : ℕ} (hlt : j < t)
    (hle : t ≤ j + (slotCap prog k).toNat) :
    Returns (readState (slotOff prog k + (1 + (j : ℤ).tmod (slotCap prog k)))) m (x j) := by
  have hcell := h.cells.cell j hlt hle
  have hmod : j % (slotCap prog k).toNat < (slotCap prog k).toNat := Nat.mod_lt _ (by omega)
  rw [ringCells_getElem?, if_pos hmod] at hcell
  have hidx : (slotOff prog k : ℤ) + (1 + (j : ℤ).tmod (slotCap prog k)) =
      ((slotOff prog k + 1 + j % (slotCap prog k).toNat : ℕ) : ℤ) := by
    have hcast : (slotCap prog k) = ((slotCap prog k).toNat : ℤ) := by omega
    have htmod : (j : ℤ).tmod (slotCap prog k) = ((j % (slotCap prog k).toNat : ℕ) : ℤ) := by
      rw [hcast, ← Int.ofNat_tmod]
      simp
    omega
  rw [hidx]
  exact fetch_returns hcell

/-- The ring only depends on its slot. -/
theorem Filled.congr {m' : Machine F} (h : Filled prog k t x m)
    (hsize : (slotSize prog k : ℤ) = 1 + slotCap prog k) (hcap : 0 < slotCap prog k)
    (hsame : SameSlot prog k m m') : Filled prog k t x m' := by
  have hcells : ringCells prog k m' = ringCells prog k m := by
    refine List.ext_getElem? fun j => ?_
    rw [ringCells_getElem?, ringCells_getElem?]
    split
    · exact hsame _ ⟨by omega, by omega⟩
    · rfl
  obtain ⟨c, hc, hcount⟩ := h.count
  refine ⟨⟨c, ?_, hcount⟩, ?_⟩
  · rw [hsame _ ⟨le_rfl, by omega⟩, hc]
  · rw [hcells]
    exact h.cells

omit [FloatMath F] in
theorem writeState_run {i : ℕ} (hi : i < m.state.length) (y : F) :
    (writeState i y).run m = .ok ((), { m with state := m.state.set i y }) := by
  show ((fetch .state m.state i >>= fun _ => set { m with state := m.state.set (i : ℤ).toNat y } :
    Vm F Unit)).run m = _
  rw [fetch, if_pos (Int.natCast_nonneg i), Int.toNat_natCast, List.getElem?_eq_getElem hi]
  rfl

omit [FloatMath F] in
theorem run_bind {α β : Type} {c : Vm F α} {f : α → Vm F β} {m m' : Machine F} {a : α}
    (h : c.run m = .ok (a, m')) : (c >>= f).run m = (f a).run m' := by
  show (c.run m >>= fun p => (f p.1).run p.2) = _
  rw [h]
  rfl

omit [FloatMath F] in
/-- The cells after a value and a count have been written. -/
theorem ringCells_set (prog : Program) (k r : ℕ) (m : Machine F) (y c : F) :
    ringCells prog k { m with
      state := (m.state.set (slotOff prog k + 1 + r) y).set (slotOff prog k) c } =
        (ringCells prog k m).set r y := by
  have hge : ¬slotOff prog k + 1 + r < slotOff prog k + 1 := by omega
  rw [ringCells, ringCells, List.drop_set, if_pos (Nat.lt_succ_self _), List.drop_set, if_neg hge,
    Nat.add_sub_cancel_left, List.take_set]

/-- A value is put into a ring: the count goes up, and the cells hold one value more. -/
theorem Filled.push [ExactCounts F] (h : Filled prog k t x m)
    (hfits : slotOff prog k + slotSize prog k ≤ m.state.length)
    (hsize : (slotSize prog k : ℤ) = 1 + slotCap prog k) (hcap : 0 < slotCap prog k)
    (ht : t < 2 ^ 24) :
    ∃ st, (ringPush (slotOff prog k) (slotCap prog k) (x t)).run m =
        .ok ((t : ℤ) + 1, { m with state := st }) ∧
      Filled prog k (t + 1) x { m with state := st } := by
  obtain ⟨c, hc, hcount⟩ := h.count
  obtain ⟨cap, hcap'⟩ : ∃ cap : ℕ, slotCap prog k = cap := ⟨_, (Int.toNat_of_nonneg hcap.le).symm⟩
  have hmod : t % cap < cap := Nat.mod_lt _ (by omega)
  set off := slotOff prog k with hoff
  have hread : Returns (readState (off : ℤ)) m c := fetch_returns hc
  have hcell : (off : ℤ) + (1 + (toInt c).tmod (slotCap prog k)) = ((off + 1 + t % cap : ℕ) : ℤ) := by
    rw [hcount, hcap', ← Int.ofNat_tmod]
    push_cast
    ring
  have hwrite := writeState_run (m := m) (i := off + 1 + t % cap) (by omega) (x t)
  have hcountWrite := writeState_run
    (m := { m with state := m.state.set (off + 1 + t % cap) (x t) }) (i := off)
    (by rw [List.length_set]; omega) (ofInt ((t : ℤ) + 1))
  refine ⟨(m.state.set (off + 1 + t % cap) (x t)).set off (ofInt ((t : ℤ) + 1)), ?_, ?_, ?_⟩
  · rw [ringPush, run_bind hread]
    show ((writeState _ _ >>= fun _ => _ : Vm F ℤ)).run m = _
    rw [hcell, run_bind hwrite, hcount, run_bind hcountWrite]
    rfl
  · refine ⟨ofInt ((t : ℤ) + 1), List.getElem?_set_self (by rw [List.length_set]; omega), ?_⟩
    exact ExactCounts.toInt_ofInt (t + 1) ht
  · rw [ringCells_set, show t % cap = t % (slotCap prog k).toNat from by rw [hcap']; rfl]
    exact h.cells.write (by omega)

/-- The block starts as zeros: no value has been put into any ring. -/
theorem Filled.start [ExactCounts F] (hfits : slotOff prog k + slotSize prog k ≤ m.state.length)
    (hsize : (slotSize prog k : ℤ) = 1 + slotCap prog k) (hcap : 0 < slotCap prog k)
    (hzero : m.state = List.replicate m.state.length zero) (x : ℕ → F) : Filled prog k 0 x m := by
  refine ⟨⟨zero, ?_, ExactCounts.toInt_zero⟩, RingBuffer.Holds.start ?_ x⟩
  · rw [hzero, List.getElem?_replicate, if_pos (by omega)]
  · rw [ringCells, List.length_take, List.length_drop]
    omega

end Ring

/-! ## What the two opcodes push -/

section Values

variable {prog : Program} {env : StepEnv F} {arg : UInt32} {m : Machine F} {t : ℕ} {x : ℕ → F}

/-- What the ring opcode pushes, of the operand and of the value it is fed. -/
def Indicator.ringEval (ind : Indicator) (env : StepEnv F) (arg : UInt32) (n x : F) : Vm F F :=
  match ind with
  | .window w => ringWindow w env arg n x
  | .delay => Vm.delay env arg n x

/-- What the raw opcode pushes, of the operand. -/
def Indicator.rawEval (ind : Indicator) (env : StepEnv F) (arg : UInt32) (n : F) : Vm F F :=
  match ind with
  | .window w => rawWindow w env arg n
  | .delay => delayRaw env arg n

theorem execOp_ring (limit : ℕ) (env : StepEnv F) (ind : Indicator) (arg : UInt32) :
    execOp limit env ind.ring arg = pop2 limit (ind.ringEval env arg) := by
  cases ind with
  | window w => cases w <;> rfl
  | delay => rfl

theorem execOp_raw (limit : ℕ) (env : StepEnv F) (ind : Indicator) (arg : UInt32) :
    execOp limit env ind.raw arg = pop1 limit (ind.rawEval env arg) := by
  cases ind with
  | window w => cases w <;> rfl
  | delay => rfl

theorem Indicator.ring_kind (ind : Indicator) : ind.ring.expectedStateKind = some skRing := by
  cases ind with
  | window w => cases w <;> rfl
  | delay => rfl

theorem Indicator.raw_kind (ind : Indicator) : ind.raw.expectedStateKind = some skRaw := by
  cases ind with
  | window w => cases w <;> rfl
  | delay => rfl

omit [FloatMath F] in
theorem stateOff_returns (he : EnvOk prog env) (hp : Accepted prog)
    (harg : arg.toNat < prog.stateKind.length) :
    Returns (stateOff env arg) m (slotOff prog arg.toNat : ℤ) := by
  have hoff : prog.stateOff[arg.toNat]? = some (prog.stateOff.getD arg.toNat 0) := by
    rw [List.getD_eq_getElem?_getD, List.getElem?_eq_getElem (by rw [hp.offs]; exact harg)]
    rfl
  rw [stateOff, he.prog_eq, slotOff, toNat_toUInt32_of_nonneg (hp.slot _ harg).off_nonneg,
    map_eq_pure_bind]
  exact (fetch_returns hoff).bind rfl

omit [FloatMath F] in
theorem stateCap_returns (he : EnvOk prog env) (hp : Accepted prog)
    (harg : arg.toNat < prog.stateKind.length) :
    Returns (stateCap env arg) m (slotCap prog arg.toNat) := by
  have hcap : prog.stateCap[arg.toNat]? = some (prog.stateCap.getD arg.toNat 0) := by
    rw [List.getD_eq_getElem?_getD, List.getElem?_eq_getElem (by rw [hp.caps]; exact harg)]
    rfl
  rw [stateCap, he.prog_eq, map_eq_pure_bind]
  exact (fetch_returns hcap).bind rfl

omit [FloatMath F] in
theorem stateAux_returns (he : EnvOk prog env) (hp : Accepted prog)
    (harg : arg.toNat < prog.stateKind.length) :
    Returns (stateAux env arg) m (prog.stateAux.getD arg.toNat 0) := by
  have haux : prog.stateAux[arg.toNat]? = some (prog.stateAux.getD arg.toNat 0) := by
    rw [List.getD_eq_getElem?_getD, List.getElem?_eq_getElem (by rw [hp.auxs]; exact harg)]
    rfl
  rw [stateAux, he.prog_eq]
  exact fetch_returns haux

/-- The ring opcode, fed value `t` after `t` values. -/
theorem ring_returns [ExactCounts F] (ind : Indicator) (he : EnvOk prog env) (hp : Accepted prog)
    (harg : arg.toNat < prog.stateKind.length)
    (hkind : prog.stateKind.getD arg.toNat 0 = skRing) (hm : Good prog m)
    (hfill : Filled prog arg.toNat t x m) (ht : t < 2 ^ 24) (n : F) :
    ∃ st, (ind.ringEval env arg n (x t)).run m =
        .ok (ind.value (slotCap prog arg.toNat).toNat t n x, { m with state := st }) ∧
      Filled prog arg.toNat (t + 1) x { m with state := st } := by
  obtain ⟨hcap, hsize⟩ : 0 < slotCap prog arg.toNat ∧
      (slotSize prog arg.toNat : ℤ) = 1 + slotCap prog arg.toNat :=
    slotSize_ring (hp.slot _ harg) hkind
  have hpos : 0 < (slotCap prog arg.toNat).toNat := Int.lt_toNat.2 hcap
  have hfits : slotOff prog arg.toNat + slotSize prog arg.toNat ≤ m.state.length := by
    rw [hm.state]
    exact (hp.slot _ harg).fits
  obtain ⟨st, hpush, hfill'⟩ := hfill.push hfits hsize hcap ht
  refine ⟨st, ?_, hfill'⟩
  cases ind with
  | window w =>
    show (ringWindow w env arg n (x t)).run m = _
    rw [ringWindow, run_bind (stateOff_returns he hp harg),
      run_bind (stateCap_returns he hp harg), run_bind hpush, ← span_cast hcap]
    refine eval_returns w (span_pos hpos t n) fun i hi => ?_
    have hspan : span (slotCap prog arg.toNat).toNat t n ≤ t + 1 := min_le_left _ _
    have hspan' : span (slotCap prog arg.toNat).toNat t n ≤ (slotCap prog arg.toNat).toNat :=
      (min_le_right _ _).trans (min_le_right _ _)
    have hread := hfill'.read hcap (j := t + 1 - span (slotCap prog arg.toNat).toNat t n + i)
      (by omega) (by omega)
    have hidx : ((t + 1 - span (slotCap prog arg.toNat).toNat t n + i : ℕ) : ℤ) =
        (t : ℤ) + 1 - span (slotCap prog arg.toNat).toNat t n + i := by omega
    rw [hidx] at hread
    exact hread
  | delay =>
    show (Vm.delay env arg n (x t)).run m = _
    rw [Vm.delay, run_bind (stateOff_returns he hp harg),
      run_bind (stateCap_returns he hp harg), run_bind hpush]
    have hback : back (slotCap prog arg.toNat).toNat t n ≤
        min (t + 1) (slotCap prog arg.toNat).toNat - 1 := min_le_right _ _
    have hread := hfill'.read hcap (j := t - back (slotCap prog arg.toNat).toNat t n)
      (by omega) (by omega)
    have hidx : ((t - back (slotCap prog arg.toNat).toNat t n : ℕ) : ℤ) =
        (t : ℤ) + 1 - 1 - back (slotCap prog arg.toNat).toNat t n := by omega
    rw [hidx, back_cast hcap] at hread
    exact hread

/-- The number of the series that a raw slot reads, and its lag. -/
def rawSeries (prog : Program) (k : ℕ) : ℤ := (prog.stateAux.getD k 0 >>> 16).toInt

def rawLag (prog : Program) (k : ℕ) : ℕ := (prog.stateAux.getD k 0 &&& 0xFFFF).toInt.toNat

/-- The raw opcode at bar `t`, with the series as far as it has got. -/
theorem raw_returns (ind : Indicator) (he : EnvOk prog env) (hp : Accepted prog)
    (harg : arg.toNat < prog.stateKind.length)
    (hkind : prog.stateKind.getD arg.toNat 0 = skRaw) {s : ℕ → F}
    (hs : ∀ j ≤ env.t, (series env (rawSeries prog arg.toNat))[j]? = some (s j)) (n : F)
    (m : Machine F) :
    Returns (ind.rawEval env arg n) m
      (ind.value (slotCap prog arg.toNat).toNat env.t n
        fun j => s (j - rawLag prog arg.toNat)) := by
  have hcap : 0 < slotCap prog arg.toNat := rawCap_pos hp harg hkind
  have hpos : 0 < (slotCap prog arg.toNat).toNat := Int.lt_toNat.2 hcap
  obtain ⟨h₀, h₅⟩ := sid_range ((hp.slot _ harg).series hkind)
  have hlag := lag_nonneg (prog.stateAux.getD arg.toNat 0)
  have helem (j : ℕ) (hj : j ≤ env.t) :
      Returns (readRaw env (prog.stateAux.getD arg.toNat 0) j) m
        (s (j - rawLag prog arg.toNat)) := by
    rw [readRaw, readSeries, if_pos ⟨h₀, h₅⟩]
    have hidx : (max ((j : ℤ) - (prog.stateAux.getD arg.toNat 0 &&& 0xFFFF).toInt) 0) =
        ((j - rawLag prog arg.toNat : ℕ) : ℤ) := by
      unfold rawLag
      omega
    have hat := hs (j - rawLag prog arg.toNat) (by omega)
    rw [hidx]
    exact fetch_returns hat
  cases ind with
  | window w =>
    refine (stateCap_returns he hp harg).bind ((stateAux_returns he hp harg).bind ?_)
    rw [← span_cast hcap]
    refine eval_returns w (span_pos hpos env.t n) fun i hi => ?_
    have hspan : span (slotCap prog arg.toNat).toNat env.t n ≤ env.t + 1 := min_le_left _ _
    have hidx : (env.t : ℤ) - span (slotCap prog arg.toNat).toNat env.t n + 1 + i =
        ((env.t + 1 - span (slotCap prog arg.toNat).toNat env.t n + i : ℕ) : ℤ) := by omega
    rw [hidx]
    exact helem _ (by omega)
  | delay =>
    refine (stateCap_returns he hp harg).bind ((stateAux_returns he hp harg).bind ?_)
    have hback : back (slotCap prog arg.toNat).toNat env.t n ≤
        min (env.t + 1) (slotCap prog arg.toNat).toNat - 1 := min_le_right _ _
    have hidx : ((env.t - back (slotCap prog arg.toNat).toNat env.t n : ℕ) : ℤ) =
        (env.t : ℤ) - back (slotCap prog arg.toNat).toNat env.t n := by omega
    have hread := helem (env.t - back (slotCap prog arg.toNat).toNat env.t n) (by omega)
    rw [hidx, back_cast hcap] at hread
    exact hread

end Values

end Vm

end ItchOrderbook
