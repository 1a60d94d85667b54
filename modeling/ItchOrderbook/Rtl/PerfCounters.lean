import ItchOrderbook.Rtl.Package
import Mathlib.Logic.Function.Basic

/-!
# Performance counters (`rtl/perf_counters.sv`)

Message counts by type, the cycles the engine spends by type, the scans, the probe depths of the
lookups, and the cycles. Every register but `scan_d` is a counter; `Counts` says of what, over all
the cycles since `rst`.
-/

namespace ItchOrderbook.Rtl

/-- The inputs of one cycle, `rst` apart. -/
structure PerfIn where
  evDone : Bool
  evType : UInt8
  busy : Bool
  anyScanning : Bool
  inReplace : Bool
  lkProbe1 : Bool
  lkProbe2 : Bool
  lkProbeGt2 : Bool
  ingestStall : Bool

/-- `type_idx`. -/
def typeIdx (t : UInt8) : Fin 9 :=
  if t = tAdd then 0
  else if t = tAddMpid then 1
  else if t = tExec then 2
  else if t = tExecPr then 3
  else if t = tCancel then 4
  else if t = tDelete then 5
  else if t = tReplace then 6
  else if t = tTrade then 7
  else if t = tSystem then 8
  else 8

/-- The registers, as `rst` leaves them. -/
structure PerfCountersState where
  msgCount : Fin 9 → UInt32 := fun _ => 0
  addCycles : UInt64 := 0
  deleteCycles : UInt64 := 0
  replaceCycles : UInt64 := 0
  scanCount : UInt64 := 0
  scanCyclesTotal : UInt64 := 0
  hashProbe1 : UInt64 := 0
  hashProbe2 : UInt64 := 0
  hashProbeGt2 : UInt64 := 0
  pipelineStallCycles : UInt64 := 0
  ingestStallCycles : UInt64 := 0
  cycleCount : UInt64 := 0
  msgTotal : UInt64 := 0
  /-- previous-cycle scanning, for rising-edge detection -/
  scanD : Bool := false

namespace PerfIn

/-- The engine is busy with an Add. -/
def addBusy (i : PerfIn) : Bool := i.busy && (i.evType == tAdd || i.evType == tAddMpid)

/-- The engine is busy with a Delete. -/
def deleteBusy (i : PerfIn) : Bool := i.busy && i.evType == tDelete

/-- The engine is busy with a Replace. -/
def replaceBusy (i : PerfIn) : Bool := i.busy && i.evType == tReplace

/-- The engine is busy with a scan or a Replace. -/
def stalled (i : PerfIn) : Bool := i.busy && (i.anyScanning || i.inReplace)

end PerfIn

namespace PerfCountersState

/-- `if (b) x <= x + 1'b1`. -/
def tick (x : UInt64) (b : Bool) : UInt64 := if b then x + 1 else x

/-- One clock edge without `rst`. -/
def step (s : PerfCountersState) (i : PerfIn) : PerfCountersState where
  cycleCount := s.cycleCount + 1
  scanD := i.anyScanning
  msgCount :=
    if i.evDone then
      Function.update s.msgCount (typeIdx i.evType) (s.msgCount (typeIdx i.evType) + 1)
    else s.msgCount
  msgTotal := tick s.msgTotal i.evDone
  addCycles := tick s.addCycles i.addBusy
  deleteCycles := tick s.deleteCycles i.deleteBusy
  replaceCycles := tick s.replaceCycles i.replaceBusy
  scanCyclesTotal := tick s.scanCyclesTotal i.anyScanning
  scanCount := tick s.scanCount (i.anyScanning && !s.scanD)
  pipelineStallCycles := tick s.pipelineStallCycles i.stalled
  ingestStallCycles := tick s.ingestStallCycles i.ingestStall
  hashProbe1 := tick s.hashProbe1 i.lkProbe1
  hashProbe2 := tick s.hashProbe2 i.lkProbe2
  hashProbeGt2 := tick s.hashProbeGt2 i.lkProbeGt2

/-! ## What the counters count -/

/-- The cycles in which a signal goes up. -/
def rises (signal : PerfIn → Bool) : Bool → List PerfIn → ℕ
  | _, [] => 0
  | prev, i :: is => (if signal i && !prev then 1 else 0) + rises signal (signal i) is

/-- The types of the messages committed. -/
def commits (is : List PerfIn) : List UInt8 := (is.filter (·.evDone)).map (·.evType)

/-- The counters after some cycles. -/
structure Counts (s : PerfCountersState) (is : List PerfIn) : Prop where
  msgCount : ∀ k, s.msgCount k = UInt32.ofNat ((commits is).countP fun t => typeIdx t = k)
  msgTotal : s.msgTotal = UInt64.ofNat (commits is).length
  addCycles : s.addCycles = UInt64.ofNat (is.countP PerfIn.addBusy)
  deleteCycles : s.deleteCycles = UInt64.ofNat (is.countP PerfIn.deleteBusy)
  replaceCycles : s.replaceCycles = UInt64.ofNat (is.countP PerfIn.replaceBusy)
  scanCyclesTotal : s.scanCyclesTotal = UInt64.ofNat (is.countP PerfIn.anyScanning)
  scanCount : s.scanCount = UInt64.ofNat (rises PerfIn.anyScanning false is)
  pipelineStallCycles : s.pipelineStallCycles = UInt64.ofNat (is.countP PerfIn.stalled)
  ingestStallCycles : s.ingestStallCycles = UInt64.ofNat (is.countP PerfIn.ingestStall)
  hashProbe1 : s.hashProbe1 = UInt64.ofNat (is.countP PerfIn.lkProbe1)
  hashProbe2 : s.hashProbe2 = UInt64.ofNat (is.countP PerfIn.lkProbe2)
  hashProbeGt2 : s.hashProbeGt2 = UInt64.ofNat (is.countP PerfIn.lkProbeGt2)
  cycleCount : s.cycleCount = UInt64.ofNat is.length
  scanD : s.scanD = (is.getLast?.map PerfIn.anyScanning).getD false

variable {s : PerfCountersState} {is : List PerfIn}

theorem tick_countP {x : UInt64} {signal : PerfIn → Bool} (h : x = UInt64.ofNat (is.countP signal))
    (i : PerfIn) : tick x (signal i) = UInt64.ofNat ((is ++ [i]).countP signal) := by
  rw [tick, List.countP_append, List.countP_singleton, h]
  split
  · exact (UInt64.ofNat_add _ _).symm
  · rfl

theorem rises_concat (signal : PerfIn → Bool) (prev : Bool) (is : List PerfIn) (i : PerfIn) :
    rises signal prev (is ++ [i]) = rises signal prev is +
      if signal i && !(is.getLast?.map signal).getD prev then 1 else 0 := by
  induction is generalizing prev with
  | nil => exact Nat.add_comm _ _
  | cons j is ih =>
    rw [List.cons_append, rises, ih, rises, Nat.add_assoc]
    congr 2
    cases is with
    | nil => rfl
    | cons k is => simp [List.getLast?_cons]

theorem commits_concat (is : List PerfIn) (i : PerfIn) :
    commits (is ++ [i]) = commits is ++ if i.evDone then [i.evType] else [] := by
  unfold commits
  rw [List.filter_append, List.map_append, List.filter_singleton]
  cases i.evDone with
  | true => rfl
  | false => rfl

/-- One cycle more. -/
theorem Counts.step (h : Counts s is) (i : PerfIn) : Counts (s.step i) (is ++ [i]) where
  msgCount k := by
    show (if i.evDone then _ else _ : Fin 9 → UInt32) k = _
    rw [commits_concat, List.countP_append]
    cases hd : i.evDone with
    | false => exact h.msgCount k
    | true =>
      rw [if_pos rfl, if_pos rfl, List.countP_singleton]
      by_cases hk : typeIdx i.evType = k
      · rw [hk, Function.update_self, h.msgCount, if_pos (by simp), UInt32.ofNat_add]
        rfl
      · rw [Function.update_of_ne (Ne.symm hk), h.msgCount, if_neg (by simpa using hk)]
        rfl
  msgTotal := by
    show tick s.msgTotal i.evDone = _
    rw [tick, commits_concat, List.length_append, h.msgTotal]
    split
    · exact (UInt64.ofNat_add _ _).symm
    · rfl
  addCycles := tick_countP h.addCycles i
  deleteCycles := tick_countP h.deleteCycles i
  replaceCycles := tick_countP h.replaceCycles i
  scanCyclesTotal := tick_countP h.scanCyclesTotal i
  scanCount := by
    show tick s.scanCount (i.anyScanning && !s.scanD) = _
    rw [tick, rises_concat, h.scanCount, h.scanD]
    split
    · exact (UInt64.ofNat_add _ _).symm
    · rfl
  pipelineStallCycles := tick_countP h.pipelineStallCycles i
  ingestStallCycles := tick_countP h.ingestStallCycles i
  hashProbe1 := tick_countP h.hashProbe1 i
  hashProbe2 := tick_countP h.hashProbe2 i
  hashProbeGt2 := tick_countP h.hashProbeGt2 i
  cycleCount := by
    show s.cycleCount + 1 = _
    rw [h.cycleCount, List.length_append]
    exact (UInt64.ofNat_add _ _).symm
  scanD := by
    rw [List.getLast?_concat]
    rfl

/-- Any number of cycles after `rst`. -/
theorem counts_run (is : List PerfIn) : Counts (is.foldl PerfCountersState.step {}) is := by
  induction is using List.reverseRecOn with
  | nil => exact ⟨fun _ => rfl, rfl, rfl, rfl, rfl, rfl, rfl, rfl, rfl, rfl, rfl, rfl, rfl, rfl⟩
  | append_singleton is i ih =>
    rw [List.foldl_append]
    exact ih.step i

/-! ## How they are related -/

/-- There are no more scans than cycles spent in them. -/
theorem rises_le (signal : PerfIn → Bool) (prev : Bool) (is : List PerfIn) :
    rises signal prev is ≤ is.countP signal := by
  induction is generalizing prev with
  | nil => exact Nat.le_refl 0
  | cons i is ih =>
    have hrest := ih (signal i)
    have hone : (if signal i && !prev then 1 else 0) ≤ if signal i then 1 else 0 := by
      cases signal i <;> cases prev <;> decide
    rw [rises, List.countP_cons]
    omega

/-- The engine is busy with one message at a time. -/
theorem countP_busy_le (is : List PerfIn) : is.countP PerfIn.addBusy +
    is.countP PerfIn.deleteBusy + is.countP PerfIn.replaceBusy ≤ is.length := by
  induction is with
  | nil => exact Nat.le_refl 0
  | cons i is ih =>
    have hone : (if i.addBusy then 1 else 0) + (if i.deleteBusy then 1 else 0) +
        (if i.replaceBusy then 1 else 0) ≤ 1 := by
      unfold PerfIn.addBusy PerfIn.deleteBusy PerfIn.replaceBusy
      rcases eq_or_ne i.evType tDelete with h | hD
      · rw [h]
        cases i.busy <;> decide
      rcases eq_or_ne i.evType tReplace with h | hR
      · rw [h]
        cases i.busy <;> decide
      rw [beq_false_of_ne hD, beq_false_of_ne hR, Bool.and_false]
      split <;> decide
    simp only [List.countP_cons, List.length_cons]
    omega

end PerfCountersState

end ItchOrderbook.Rtl
