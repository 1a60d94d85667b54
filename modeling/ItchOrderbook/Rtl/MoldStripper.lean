import ItchOrderbook.Lib.StreamMachine
import ItchOrderbook.Rtl.Package

/-!
# Mold header stripper (`rtl/mold_stripper.sv`)

Every incoming beat is registered in stage A. `S_STREAM` consumes header bytes from there or
forwards payload into the output register; `S_DECIDE` evaluates the sequence policy on the
registered header fields, while a beat that also carries payload is held in stage A.
-/

namespace ItchOrderbook.Rtl

open BigEndian

/-- `HDR_BYTES`. -/
def hdrBytes : BitVec 5 := 20

/-- `state_t`. -/
inductive MoldPhase where
  | stream
  | decide
  deriving DecidableEq, Repr, Inhabited

/-- The inputs of one cycle, `mold_mode` apart. -/
structure StripperIn where
  inBeat : Beat
  inValid : Bool
  inSop : Bool
  outReady : Bool

/-- The sequence tracking registers. All but `seqInit` are telemetry outputs. -/
structure Telemetry where
  seqInit : Bool := false
  expected : UInt64 := 0
  gapEvents : UInt32 := 0
  gapMsgs : UInt64 := 0
  sessionEnd : Bool := false
  deriving DecidableEq, Repr, Inhabited

/-- The registers. Those without a reset value keep what they hold. -/
structure StripperState where
  phase : MoldPhase
  /-- stage A -/
  aBeat : Beat
  aSop : Bool
  aValid : Bool
  /-- header bytes still to consume -/
  hdrLeft : BitVec 5
  /-- header bytes to skip in the held beat -/
  aOff : BitVec 5
  /-- the payload of the datagram is being discarded -/
  drop : Bool
  hdr : Vector UInt8 20
  seq : UInt64
  cnt : UInt16
  tel : Telemetry
  outBeat : Beat
  outValid : Bool
  deriving Inhabited

namespace StripperState

/-! ## Combinational logic -/

/-- `hdr_left_eff`. -/
def hdrLeftEff (s : StripperState) : BitVec 5 :=
  if s.aValid && s.aSop then hdrBytes else s.hdrLeft

/-- `hdr_active`. -/
def hdrActive (s : StripperState) : Bool := s.hdrLeftEff != 0

/-- `k`: the header bytes of the beat in stage A. -/
def k (s : StripperState) : BitVec 5 :=
  if s.hdrLeftEff < s.aBeat.nbytes then s.hdrLeftEff else s.aBeat.nbytes

/-- `completes`. -/
def completes (s : StripperState) : Bool := s.hdrActive && s.k == s.hdrLeftEff

/-- `hdr_n`: the header with the bytes of the beat in stage A. -/
def hdrN (s : StripperState) : Vector UInt8 20 :=
  Vector.ofFn fun j =>
    let first := 20 - s.hdrLeftEff.toNat
    if first ≤ j.val ∧ j.val - first < s.k.toNat then
      (s.aBeat.data[j.val - first]?).getD s.hdr[j]
    else s.hdr[j]

/-- `out_free`. -/
def outFree (s : StripperState) (outReady : Bool) : Bool := !s.outValid || outReady

/-- `hdr_pay`: the completing beat carries payload too. -/
def hdrPay (s : StripperState) : Bool := s.completes && decide (s.k < s.aBeat.nbytes)

/-- `a_consume`. -/
def aConsume (s : StripperState) (outReady : Bool) : Bool :=
  if s.phase = .stream ∧ s.aValid then
    if s.hdrActive then !s.hdrPay
    else if s.drop then true
    else s.outFree outReady
  else false

/-- `in_ready` in mold mode. -/
def inReady (s : StripperState) (outReady : Bool) : Bool := !s.aValid || s.aConsume outReady

/-- `a_data_q >> (8 * a_off_q)` with `pay_n` valid bytes. -/
def payload (s : StripperState) : Beat where
  data := Vector.ofFn fun i => (s.aBeat.data[i.val + s.aOff.toNat]?).getD 0
  nbytes := s.aBeat.nbytes - s.aOff

/-! ## Clocked process -/

/-- The policy of `S_DECIDE`: the telemetry after it and `drop_q`. -/
def policy (t : Telemetry) (seq : UInt64) (cnt : UInt16) : Telemetry × Bool :=
  if cnt = 0xFFFF then ({ t with sessionEnd := true }, true)
  else if !t.seqInit then ({ t with seqInit := true, expected := seq + cnt.toUInt64 }, false)
  else if seq = t.expected then ({ t with expected := seq + cnt.toUInt64 }, false)
  else if seq > t.expected then
    ({ t with
      gapEvents := t.gapEvents + 1
      gapMsgs := t.gapMsgs + (seq - t.expected)
      expected := seq + cnt.toUInt64 }, false)
  else (t, true)

/-- `rst`. -/
def reset (s : StripperState) : StripperState :=
  { s with
    phase := .stream, aValid := false, hdrLeft := 0, aOff := 0, drop := false, outValid := false
    tel := {} }

/-- The `case (state)` statement of a clock edge: reads the registers `s` from before the edge,
writes those in `n`. -/
def control (s : StripperState) (outReady : Bool) (n : StripperState) : StripperState :=
  match s.phase with
  | .stream =>
    if s.aValid then
      if s.hdrActive then
        let h := s.hdrN
        let n := { n with hdr := h, hdrLeft := s.hdrLeftEff - s.k }
        if s.completes then
          { n with
            seq := word64 h[10] h[11] h[12] h[13] h[14] h[15] h[16] h[17]
            cnt := word16 h[18] h[19]
            aOff := if s.hdrPay then s.k else 0
            phase := .decide }
        else n
      else if s.drop then { n with aOff := 0 }
      else if s.outFree outReady then { n with outBeat := s.payload, outValid := true, aOff := 0 }
      else n
    else n
  | .decide =>
    { n with
      tel := (policy s.tel s.seq s.cnt).1, drop := (policy s.tel s.seq s.cnt).2, phase := .stream }

/-- One clock edge without `rst`, in mold mode. A later assignment to a register overrides an
earlier one: the output register may be drained and loaded, stage A emptied and loaded. -/
def step (s : StripperState) (i : StripperIn) : StripperState :=
  let n := if s.outValid && i.outReady then { s with outValid := false } else s
  let n := s.control i.outReady n
  if i.inValid && s.inReady i.outReady then
    { n with aBeat := i.inBeat, aSop := i.inSop, aValid := true }
  else if s.aConsume i.outReady then { n with aValid := false }
  else n

end StripperState

/-! ## Handshakes -/

/-- The stripper in mold mode between its handshakes: it takes beats, each with its `sop` flag,
and gives beats. -/
def moldStripper : StreamMachine StripperState StripperIn (Bool × Beat) Beat where
  step := StripperState.step
  taken s i := if i.inValid && s.inReady i.outReady then [(i.inSop, i.inBeat)] else []
  given s i := if s.outValid && i.outReady then [s.outBeat] else []

end ItchOrderbook.Rtl
