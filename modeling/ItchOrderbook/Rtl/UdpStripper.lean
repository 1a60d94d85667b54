import ItchOrderbook.Lib.StreamMachine
import ItchOrderbook.Rtl.Package

/-!
# UDP header stripper (`rtl/udp_stripper.sv`)

The Ethernet, IP and UDP headers are 42 bytes: two whole words and ten bytes of the third. The
stripper counts words, the first word of a datagram being number 0; outputs are combinational, the
count is its only register.
-/

namespace ItchOrderbook.Rtl

/-- `HDR_SKIP_WORDS`. -/
def hdrSkipWords : UInt16 := 2

/-- `HDR_SKIP_REM`. -/
def hdrSkipRem : BitVec 5 := 10

/-- The inputs of one cycle, `raw_mode` apart. -/
structure UdpIn where
  inBeat : Beat
  inValid : Bool
  inSop : Bool
  outReady : Bool

/-- The register. -/
structure UdpState where
  wordIdx : UInt16
  deriving DecidableEq, Repr, Inhabited

namespace UdpState

variable (rawMode : Bool) (s : UdpState) (i : UdpIn)

/-- `word_idx_eff`: the first word of a datagram is number 0 in the cycle it comes. -/
def wordIdxEff : UInt16 := if i.inValid && i.inSop && !rawMode then 0 else s.wordIdx

/-- `hdr_word`: this word is all header. -/
def hdrWord : Bool := !rawMode && decide (s.wordIdxEff rawMode i < hdrSkipWords)

/-- `split_word`: this word is where the header ends. -/
def splitWord : Bool := !rawMode && s.wordIdxEff rawMode i == hdrSkipWords

/-- `in_data >> (8 * HDR_SKIP_REM)` with its count. -/
def repacked (b : Beat) : Beat where
  data := Vector.ofFn fun j => (b.data[j.val + hdrSkipRem.toNat]?).getD 0
  nbytes := if hdrSkipRem < b.nbytes then b.nbytes - hdrSkipRem else 0

/-- `out_data` and `out_nbytes`. -/
def outBeat : Beat := if s.splitWord rawMode i then repacked i.inBeat else i.inBeat

/-- `out_valid`. -/
def outValid : Bool :=
  if s.splitWord rawMode i then i.inValid && decide (hdrSkipRem < i.inBeat.nbytes)
  else i.inValid && !s.hdrWord rawMode i

/-- `out_sop`. -/
def outSop : Bool := s.splitWord rawMode i && s.outValid rawMode i

/-- `in_ready`, which looks at the register and not at the word that comes. -/
def inReady (outReady : Bool) : Bool :=
  outReady || (!rawMode && decide (s.wordIdx < hdrSkipWords))

/-- `rst`. -/
def reset : UdpState := ⟨0⟩

/-- One clock edge without `rst`; the count stops at its largest value. -/
def step : UdpState :=
  if i.inValid && s.inReady rawMode i.outReady then
    if s.wordIdxEff rawMode i < 0xFFFF then ⟨s.wordIdxEff rawMode i + 1⟩ else s
  else s

end UdpState

/-! ## Handshakes -/

/-- The stripper between its handshakes: it takes and gives beats, each with its `sop` flag. -/
def udpStripper (rawMode : Bool) : StreamMachine UdpState UdpIn (Bool × Beat) (Bool × Beat) where
  step := UdpState.step rawMode
  taken s i := if i.inValid && s.inReady rawMode i.outReady then [(i.inSop, i.inBeat)] else []
  given s i :=
    if s.outValid rawMode i && i.outReady then [(s.outSop rawMode i, s.outBeat rawMode i)] else []

end ItchOrderbook.Rtl
