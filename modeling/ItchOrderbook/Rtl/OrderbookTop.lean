import ItchOrderbook.Lib.StreamChain
import ItchOrderbook.Rtl.EngineRun
import ItchOrderbook.Rtl.ItchFramer
import ItchOrderbook.Rtl.MoldStripper
import ItchOrderbook.Rtl.PerfCounters
import ItchOrderbook.Rtl.UdpStripper

/-!
# The full pipeline (`rtl/orderbook_top.sv`)

    in_data -> udp_stripper -> mold_stripper -> itch_framer -> itch_decoder
            -> book_update_engine -> stats_engine / perf_counters

`TopState.step` is one clock edge, each unit with the outputs the others have before it. Between
resets the units are machines in a row (`flow_step`), each with its own handshakes.
-/

namespace ItchOrderbook.Rtl

/-! ## The Mold stripper with its bypass -/

namespace StripperState

variable (moldMode : Bool) (s : StripperState)

/-- `in_ready`. -/
def stageReady (outReady : Bool) : Bool := if moldMode then s.inReady outReady else outReady

/-- `out_data` and `out_nbytes`. -/
def stageBeat (inBeat : Beat) : Beat := if moldMode then s.outBeat else inBeat

/-- `out_valid`. -/
def stageValid (inValid : Bool) : Bool := if moldMode then s.outValid else inValid

/-- One clock edge without `rst`. -/
def stageStep (i : StripperIn) : StripperState := if moldMode then s.step i else s

/-- After `rst` it stays as it is until something comes in. -/
theorem stageStep_reset {i : StripperIn} (h : i.inValid = false) :
    s.reset.stageStep moldMode i = s.reset := by
  cases moldMode with
  | false => rfl
  | true =>
    show s.reset.step i = s.reset
    unfold StripperState.step
    rw [h]
    rfl

end StripperState

/-- So do framer and decoder. -/
theorem IngestState.step_reset (s : IngestState) {i : IngestIn} (h : i.inValid = false) :
    s.reset.step i = s.reset := by
  have hwin : s.framer.reset.winN false i.inBeat = s.framer.win := by
    ext k hk
    simp [FramerState.winN, FramerState.keep, FramerState.consume, FramerState.reset]
  have hframer : s.framer.reset.step ⟨i.inBeat, i.inValid, s.decoder.reset.decValid⟩ =
      s.framer.reset := by
    unfold FramerState.step
    dsimp only
    rw [h, Bool.false_and, hwin]
    simp [FramerState.control, FramerState.keep, FramerState.consume, FramerState.reset]
  have hdecoder : s.decoder.reset.step (s.framer.reset.toDecoder s.decoder.reset.decValid
      (s.reset.decAccept i)) = s.decoder.reset := by
    unfold DecoderState.step FramerState.toDecoder IngestState.decAccept IngestState.reset
    cases i.engineIdle <;> rfl
  exact congrArg₂ IngestState.mk hframer hdecoder

/-- The stripper between its handshakes, in either mode. -/
def moldStage (moldMode : Bool) : StreamMachine StripperState StripperIn (Bool × Beat) Beat where
  step := StripperState.stageStep moldMode
  taken s i :=
    if i.inValid && s.stageReady moldMode i.outReady then [(i.inSop, i.inBeat)] else []
  given s i :=
    if s.stageValid moldMode i.inValid && i.outReady then [s.stageBeat moldMode i.inBeat] else []

/-! ## The top -/

/-- `raw_mode` and `mold_mode`, which do not change during a run. -/
structure TopMode where
  rawMode : Bool
  moldMode : Bool

/-- `mold_mode && !raw_mode`. -/
def TopMode.mold (m : TopMode) : Bool := m.moldMode && !m.rawMode

/-- The other inputs of one cycle. -/
structure TopIn where
  rst : Bool := false
  inBeat : Beat
  inValid : Bool := false
  inSop : Bool := false
  bandCfgValid : Bool := false
  bandCfgBase : UInt32 := 0

/-- The units: `u_strip`, `u_mold`, `u_fr` with `u_dec`, `u_eng` with `u_stats`, and `u_perf`. -/
structure TopState (c : Build) where
  strip : UdpState
  mold : StripperState
  ingest : IngestState
  book : BookState c
  perf : PerfCountersState

namespace TopState

variable {c : Build} (m : TopMode) (s : TopState c) (i : TopIn)

/-- `mold_ready`. -/
def moldReady : Bool := s.ingest.framer.inReady

/-- `strip_ready`. -/
def stripReady : Bool := s.mold.stageReady m.mold s.moldReady

/-- `in_ready`. -/
def inReady : Bool := s.strip.inReady m.rawMode (s.stripReady m)

/-- The inputs of `u_strip`. -/
def stripIn : UdpIn := ⟨i.inBeat, i.inValid, i.inSop, s.stripReady m⟩

/-- The inputs of `u_mold`: `strip_data` with `strip_nbytes`, `strip_valid`, `strip_sop`. -/
def moldIn : StripperIn where
  inBeat := s.strip.outBeat m.rawMode (s.stripIn m i)
  inValid := s.strip.outValid m.rawMode (s.stripIn m i)
  inSop := s.strip.outSop m.rawMode (s.stripIn m i)
  outReady := s.moldReady

/-- The inputs of `u_fr` and `u_dec`: `mold_data` with `mold_nbytes`, `mold_valid`, and whether the
engine accepts. -/
def ingestIn : IngestIn where
  inBeat := s.mold.stageBeat m.mold (s.moldIn m i).inBeat
  inValid := s.mold.stageValid m.mold (s.moldIn m i).inValid
  engineIdle := s.book.engine.state == .idle

/-- The inputs of `u_eng`. -/
def engineIn : EngineIn where
  rst := i.rst
  dec := s.ingest.decoder.dec
  decValid := s.ingest.decoder.decValid
  bandCfgValid := i.bandCfgValid
  bandCfgBase := i.bandCfgBase

/-- The inputs of `u_perf`. -/
def perfIn : PerfIn where
  evDone := s.book.engine.engineDone
  evType := s.book.engine.mtype
  busy := s.book.engine.state != .idle
  anyScanning := s.book.engine.anyScanning
  inReplace := s.book.engine.isReplace && s.book.engine.state != .idle
  lkProbe1 := s.book.engine.table.lkProbe1
  lkProbe2 := s.book.engine.table.lkProbe2
  lkProbeGt2 := s.book.engine.table.lkProbeGt2
  ingestStall := !i.rst && !s.inReady m

/-- `rst`. -/
def reset : TopState c := ⟨UdpState.reset, s.mold.reset, s.ingest.reset, s.book.reset, {}⟩

/-- One clock edge. -/
def step : TopState c :=
  if i.rst then s.reset
  else
    { strip := s.strip.step m.rawMode (s.stripIn m i)
      mold := s.mold.stageStep m.mold (s.moldIn m i)
      ingest := s.ingest.step (s.ingestIn m i)
      book := s.book.step (s.engineIn i)
      perf := s.perf.step (s.perfIn m i) }

/-- After power-up and `rst`, with the band left to the first Add or configured at `base`, which
takes a cycle (`start_config`). What the registers without a reset value hold is left open. -/
def start (c : Build) (base : Option UInt32) (mold : StripperState) (ingest : IngestState) :
    TopState c where
  strip := UdpState.reset
  mold := mold.reset
  ingest := ingest.reset
  book := BookState.powerUp c base
  perf := match base with
    | none => {}
    | some _ => { cycleCount := 1 }

/-- The cycle that configures the band. -/
theorem start_config (m : TopMode) (base : UInt32) (mold : StripperState) (ingest : IngestState)
    (b : Beat) :
    (start c none mold ingest).step m { inBeat := b, bandCfgValid := true, bandCfgBase := base } =
      start c (some base) mold ingest := by
  let s : TopState c := start c none mold ingest
  let i : TopIn := { inBeat := b, bandCfgValid := true, bandCfgBase := base }
  have hstrip : (s.moldIn m i).inValid = false := by
    show s.strip.outValid m.rawMode (s.stripIn m i) = false
    unfold UdpState.outValid
    split <;> rfl
  have hmold : s.mold.stageStep m.mold (s.moldIn m i) = mold.reset :=
    mold.stageStep_reset m.mold hstrip
  have hvalid : (s.ingestIn m i).inValid = false := by
    show s.mold.stageValid m.mold (s.moldIn m i).inValid = false
    rw [hstrip]
    unfold StripperState.stageValid
    split <;> rfl
  have hingest : s.ingest.step (s.ingestIn m i) = ingest.reset := ingest.step_reset hvalid
  have hframer : ingest.framer.reset.inReady = true := by
    simp [FramerState.inReady, FramerState.keep, FramerState.consume, FramerState.reset]
  have hready : s.inReady m = true := by
    have hbehind : mold.reset.stageReady m.mold ingest.framer.reset.inReady = true := by
      rw [hframer]
      unfold StripperState.stageReady
      split <;> rfl
    show (mold.reset.stageReady m.mold ingest.framer.reset.inReady || _) = true
    rw [hbehind, Bool.true_or]
  have hperf : s.perf.step (s.perfIn m i) = { cycleCount := 1 } := by
    unfold perfIn
    rw [hready]
    rfl
  show TopState.mk _ _ _ _ _ = TopState.mk _ _ _ _ _
  rw [hmold, hingest, hperf]
  rfl

/-- The cycle that configures the band, if it is configured. -/
def configIns : Option UInt32 → List TopIn
  | none => []
  | some base => [{ inBeat := default, bandCfgValid := true, bandCfgBase := base }]

end TopState

/-! ## The units in a row -/

/-- The engine between its handshakes: it takes messages and gives its commits, `ev_type` with
`ev_done`. -/
def bookUpdate (c : Build) : StreamMachine (BookState c) EngineIn Decoded UInt8 where
  step := BookState.step
  taken s i := (s.accept i).toList
  given s _ := if s.engine.engineDone then [s.engine.mtype] else []

/-- Framer and decoder before the engine. -/
def applyChain (c : Build) : StreamChain ingest (bookUpdate c) TopIn where
  in₁ _ b i := ⟨i.inBeat, i.inValid, b.engine.state == .idle⟩
  in₂ g _ i := ⟨i.rst, g.decoder.dec, g.decoder.decValid, i.bandCfgValid, i.bandCfgBase⟩
  handshake g b i := by
    show (if (b.engine.state == .idle) && g.decoder.decValid then [g.decoder.dec] else []) =
      (if (b.engine.state == .idle) && g.decoder.decValid then some g.decoder.dec
        else none : Option Decoded).toList
    split
    · rfl
    · rfl

/-- The Mold stripper before them. -/
def decapChain (c : Build) (moldMode : Bool) :
    StreamChain (moldStage moldMode) (applyChain c).machine TopIn where
  in₁ _ p i := ⟨i.inBeat, i.inValid, i.inSop, p.1.framer.inReady⟩
  in₂ d _ i := { i with
    inBeat := d.stageBeat moldMode i.inBeat, inValid := d.stageValid moldMode i.inValid }
  handshake _ _ _ := rfl

/-- The UDP stripper before all. -/
def topChain (c : Build) (m : TopMode) :
    StreamChain (udpStripper m.rawMode) (decapChain c m.mold).machine TopIn where
  in₁ _ p i := ⟨i.inBeat, i.inValid, i.inSop, p.1.stageReady m.mold p.2.1.framer.inReady⟩
  in₂ u p i :=
    let j : UdpIn := ⟨i.inBeat, i.inValid, i.inSop, p.1.stageReady m.mold p.2.1.framer.inReady⟩
    { i with
      inBeat := u.outBeat m.rawMode j, inValid := u.outValid m.rawMode j
      inSop := u.outSop m.rawMode j }
  handshake _ _ _ := rfl

/-- The top between its handshakes: it takes beats, each with its `sop` flag, and gives commits. -/
def orderbookTop (c : Build) (m : TopMode) :
    StreamMachine (TopState c) TopIn (Bool × Beat) UInt8 where
  step := TopState.step m
  taken s i := if i.inValid && s.inReady m then [(i.inSop, i.inBeat)] else []
  given s _ := if s.book.engine.engineDone then [s.book.engine.mtype] else []

namespace TopState

variable {c : Build} {m : TopMode} {s : TopState c} {i : TopIn}

/-- The units that the stream goes through. -/
def flow (s : TopState c) : UdpState × StripperState × IngestState × BookState c :=
  (s.strip, s.mold, s.ingest, s.book)

/-- **The top is the units in a row.** -/
theorem flow_step (h : i.rst = false) :
    (s.step m i).flow = (topChain c m).machine.step s.flow i := by
  unfold step
  rw [h, if_neg Bool.false_ne_true]
  rfl

theorem taken_flow (s : TopState c) (i : TopIn) :
    (topChain c m).machine.taken s.flow i = (orderbookTop c m).taken s i := rfl

theorem perf_step (h : i.rst = false) : (s.step m i).perf = s.perf.step (s.perfIn m i) := by
  unfold step
  rw [h, if_neg Bool.false_ne_true]

theorem flow_run (s : TopState c) {is : List TopIn} (h : ∀ i ∈ is, i.rst = false) :
    ((orderbookTop c m).run s is).flow = (topChain c m).machine.run s.flow is := by
  induction is generalizing s with
  | nil => rfl
  | cons i is ih =>
    obtain ⟨hi, his⟩ := List.forall_mem_cons.1 h
    rw [StreamMachine.run_cons, ih _ his, StreamMachine.run_cons]
    exact congrArg ((topChain c m).machine.run · is) (flow_step hi)

theorem allTaken_flow (s : TopState c) {is : List TopIn} (h : ∀ i ∈ is, i.rst = false) :
    (orderbookTop c m).allTaken s is = (topChain c m).machine.allTaken s.flow is := by
  induction is generalizing s with
  | nil => rfl
  | cons i is ih =>
    obtain ⟨hi, his⟩ := List.forall_mem_cons.1 h
    rw [StreamMachine.allTaken, ih _ his, StreamMachine.allTaken]
    exact congrArg (_ ++ (topChain c m).machine.allTaken · is) (flow_step hi)

theorem allGiven_flow (s : TopState c) {is : List TopIn} (h : ∀ i ∈ is, i.rst = false) :
    (orderbookTop c m).allGiven s is = (topChain c m).machine.allGiven s.flow is := by
  induction is generalizing s with
  | nil => rfl
  | cons i is ih =>
    obtain ⟨hi, his⟩ := List.forall_mem_cons.1 h
    rw [StreamMachine.allGiven, ih _ his, StreamMachine.allGiven]
    exact congrArg (_ ++ (topChain c m).machine.allGiven · is) (flow_step hi)

/-- A run that starts with the band configured is one from `rst` on. -/
theorem run_start (m : TopMode) (base : Option UInt32) (mold : StripperState)
    (ingest : IngestState) (is : List TopIn) :
    (orderbookTop c m).run (start c base mold ingest) is =
      (orderbookTop c m).run (start c none mold ingest) (configIns base ++ is) := by
  cases base with
  | none => rfl
  | some base =>
    rw [configIns, List.singleton_append, StreamMachine.run_cons]
    exact congrArg ((orderbookTop c m).run · is) (start_config m base mold ingest default).symm

/-- What `u_perf` sees over a run. -/
def perfIns (m : TopMode) (s : TopState c) : List TopIn → List PerfIn
  | [] => []
  | i :: is => s.perfIn m i :: perfIns m (s.step m i) is

theorem perf_run (s : TopState c) {is : List TopIn} (h : ∀ i ∈ is, i.rst = false) :
    ((orderbookTop c m).run s is).perf =
      (s.perfIns m is).foldl PerfCountersState.step s.perf := by
  induction is generalizing s with
  | nil => rfl
  | cons i is ih =>
    obtain ⟨hi, his⟩ := List.forall_mem_cons.1 h
    rw [StreamMachine.run_cons, perfIns, List.foldl_cons, ← perf_step hi]
    exact ih _ his

theorem length_perfIns (s : TopState c) (is : List TopIn) :
    (s.perfIns m is).length = is.length := by
  induction is generalizing s with
  | nil => rfl
  | cons i is ih => exact congrArg (· + 1) (ih _)

/-- The commits it counts are those the top gives. -/
theorem commits_perfIns (s : TopState c) (is : List TopIn) :
    PerfCountersState.commits (s.perfIns m is) = (orderbookTop c m).allGiven s is := by
  induction is generalizing s with
  | nil => rfl
  | cons i is ih =>
    have hrest : PerfCountersState.commits (perfIns m (s.step m i) is) = _ := ih _
    have hgiven : (orderbookTop c m).given s i =
        if (s.perfIn m i).evDone then [(s.perfIn m i).evType] else [] := rfl
    rw [perfIns, StreamMachine.allGiven, hgiven, PerfCountersState.commits, List.filter_cons]
    split
    · exact congrArg (_ :: ·) hrest
    · exact hrest

end TopState

end ItchOrderbook.Rtl
