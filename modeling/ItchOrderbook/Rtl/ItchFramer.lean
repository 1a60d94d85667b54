import ItchOrderbook.Lib.StreamMachine
import ItchOrderbook.Rtl.ItchDecoder

/-!
# Message framer (`rtl/itch_framer.sv`)

A 32-byte window holds the bytes that are not consumed yet. Each cycle the state machine consumes
from its front (a length prefix, or up to 16 bytes of a body) and an accepted beat is appended
behind the survivors. Body bytes go to the decoder as aligned words.
-/

namespace ItchOrderbook.Rtl

open BigEndian

/-- `state_t`. -/
inductive FramerPhase where
  | hdr
  | body
  | settle
  | drop
  deriving DecidableEq, Repr, Inhabited

/-- The inputs of one cycle. -/
structure FramerIn where
  inBeat : Beat
  inValid : Bool
  decPending : Bool

/-- The registers. The window is never reset. -/
structure FramerState where
  phase : FramerPhase
  win : Vector UInt8 32
  /-- window occupancy -/
  cnt : BitVec 6
  /-- body length of the current message -/
  len : UInt16
  /-- body bytes not yet emitted -/
  remain : UInt16
  /-- body word index of the next beat -/
  widx : BitVec 2
  deriving Inhabited

namespace FramerState

/-! ## Combinational logic -/

/-- The bytes of a body beat, once they are all in the window: `S_BODY` and `S_DROP`. -/
def bodyConsume (s : FramerState) : BitVec 6 :=
  if s.remain ≤ 16 then
    if s.remain.toNat ≤ s.cnt.toNat then s.remain.toBitVec.setWidth 6 else 0
  else if 16 ≤ s.cnt then 16
  else 0

/-- `consume_c`. -/
def consume (s : FramerState) : BitVec 6 :=
  match s.phase with
  | .hdr => if 2 ≤ s.cnt then 2 else 0
  | .body => s.bodyConsume
  | .drop => s.bodyConsume
  | .settle => 0

/-- `keep_c`. -/
def keep (s : FramerState) : BitVec 6 := s.cnt - s.consume

/-- `in_ready`. -/
def inReady (s : FramerState) : Bool := decide (s.keep ≤ 16)

/-- `win_n`: survivors move to the front, an accepted beat goes behind them. -/
def winN (s : FramerState) (accept : Bool) (b : Beat) : Vector UInt8 32 :=
  Vector.ofFn fun i =>
    if i.val < s.keep.toNat then (s.win[i.val + s.consume.toNat]?).getD s.win[i]
    else if accept ∧ i.val < s.keep.toNat + b.nbytes.toNat then
      (b.data[i.val - s.keep.toNat]?).getD s.win[i]
    else s.win[i]

/-- `{win_q[0], win_q[1]}`. -/
def prefixLen (s : FramerState) : UInt16 := word16 s.win[0] s.win[1]

/-- The outputs to the decoder, with the acceptance of the engine passed on. -/
def toDecoder (s : FramerState) (decPending decAccept : Bool) : DecoderIn where
  msgData := Vector.ofFn fun i => (s.win[i.val]?).getD 0
  msgNbytes := s.consume.setWidth 5
  msgBeatValid := decide (s.phase = .body ∧ s.consume ≠ 0)
  msgWidx := s.widx
  msgComplete := decide (s.phase = .settle) && !decPending
  msgLen := s.len
  decAccept := decAccept

/-! ## Clocked process -/

/-- `rst`. -/
def reset (s : FramerState) : FramerState :=
  { s with phase := .hdr, cnt := 0, len := 0, remain := 0, widx := 0 }

/-- The `case (state)` statement of a clock edge: reads the registers `s` from before the edge,
writes those in `n`. -/
def control (s : FramerState) (decPending : Bool) (n : FramerState) : FramerState :=
  match s.phase with
  | .hdr =>
    if 2 ≤ s.cnt then
      { n with
        len := s.prefixLen
        remain := s.prefixLen
        widx := 0
        phase :=
          if s.prefixLen = 0 then .hdr
          else if s.prefixLen.toNat > msgMaxBytes then .drop
          else .body }
    else n
  | .body =>
    if s.consume ≠ 0 then
      let n := { n with remain := s.remain - UInt16.ofNat s.consume.toNat }
      if s.remain ≤ 16 then { n with phase := .settle } else { n with widx := s.widx + 1 }
    else n
  | .settle => if decPending then n else { n with phase := .hdr }
  | .drop =>
    if s.consume ≠ 0 then
      let n := { n with remain := s.remain - UInt16.ofNat s.consume.toNat }
      if s.remain ≤ 16 then { n with phase := .hdr } else n
    else n

/-- One clock edge without `rst`. -/
def step (s : FramerState) (i : FramerIn) : FramerState :=
  let accept := i.inValid && s.inReady
  s.control i.decPending
    { s with
      win := s.winN accept i.inBeat
      cnt := s.keep + if accept then i.inBeat.nbytes.setWidth 6 else 0 }

end FramerState

/-! ## Framer and decoder -/

/-- The framer and the decoder behind it. -/
structure IngestState where
  framer : FramerState
  decoder : DecoderState

/-- The inputs of one cycle: a beat from upstream, and whether the engine accepts a message. -/
structure IngestIn where
  inBeat : Beat
  inValid : Bool
  engineIdle : Bool

namespace IngestState

def reset (s : IngestState) : IngestState := ⟨s.framer.reset, s.decoder.reset⟩

/-- `dec_accept`: the engine takes a message only while `dec_valid` is high. -/
def decAccept (s : IngestState) (i : IngestIn) : Bool := i.engineIdle && s.decoder.decValid

def step (s : IngestState) (i : IngestIn) : IngestState where
  framer := s.framer.step ⟨i.inBeat, i.inValid, s.decoder.decValid⟩
  decoder := s.decoder.step (s.framer.toDecoder s.decoder.decValid (s.decAccept i))

end IngestState

/-- Framer and decoder between their handshakes: beats are taken, messages are given. -/
def ingest : StreamMachine IngestState IngestIn Beat Decoded where
  step := IngestState.step
  taken s i := if i.inValid && s.framer.inReady then [i.inBeat] else []
  given s i := if s.decAccept i then [s.decoder.dec] else []

end ItchOrderbook.Rtl
