import ItchOrderbook.Rtl.Package

/-!
# Field decoder (`rtl/itch_decoder.sv`)

Body beats land in a 48-byte buffer; when the framer says the body is complete the fields are
wired out of the buffer into the message register `dec`.
-/

namespace ItchOrderbook.Rtl

open BigEndian

/-- The beat and handshake inputs of the decoder. -/
structure DecoderIn where
  msgData : Vector UInt8 16
  msgNbytes : BitVec 5
  msgBeatValid : Bool
  msgWidx : BitVec 2
  msgComplete : Bool
  msgLen : UInt16
  decAccept : Bool

/-- The registers of the decoder. The body buffer is never reset. -/
structure DecoderState where
  body : Vector UInt8 48
  dec : Decoded := {}
  decValid : Bool := false

namespace DecoderState

/-! ## Field wiring -/

/-- `body[k]`. -/
def byteAt (body : Vector UInt8 48) (k : ℕ) : UInt8 := body[k]?.getD 0

def be16 (body : Vector UInt8 48) (k : ℕ) : UInt16 :=
  word16 (byteAt body k) (byteAt body (k + 1))

def be32 (body : Vector UInt8 48) (k : ℕ) : UInt32 :=
  word32 (byteAt body k) (byteAt body (k + 1)) (byteAt body (k + 2)) (byteAt body (k + 3))

def be64 (body : Vector UInt8 48) (k : ℕ) : UInt64 :=
  word64 (byteAt body k) (byteAt body (k + 1)) (byteAt body (k + 2)) (byteAt body (k + 3))
    (byteAt body (k + 4)) (byteAt body (k + 5)) (byteAt body (k + 6)) (byteAt body (k + 7))

/-- `d_c`: the combinational decode of the buffer. -/
def dC (body : Vector UInt8 48) : Decoded :=
  let d : Decoded :=
    { mtype := byteAt body 0, stockLocate := be16 body 1, timestamp := be64 body 5 }
  if byteAt body 0 = tAdd ∨ byteAt body 0 = tAddMpid then
    { d with
      orderRef := be64 body 13, isBid := byteAt body 21 == sideBuy
      shares := be32 body 22, price := be32 body 34 }
  else if byteAt body 0 = tExec then
    { d with orderRef := be64 body 13, shares := be32 body 21 }
  else if byteAt body 0 = tExecPr then
    { d with
      orderRef := be64 body 13, shares := be32 body 21
      printable := byteAt body 33 == 'Y'.toUInt8, price := be32 body 34 }
  else if byteAt body 0 = tCancel then
    { d with orderRef := be64 body 13, shares := be32 body 21 }
  else if byteAt body 0 = tDelete then
    { d with orderRef := be64 body 13 }
  else if byteAt body 0 = tReplace then
    { d with
      orderRef := be64 body 13, newOrderRef := be64 body 21
      shares := be32 body 29, price := be32 body 33 }
  else if byteAt body 0 = tTrade then
    { d with
      orderRef := be64 body 13, isBid := byteAt body 21 == sideBuy
      shares := be32 body 22, price := be32 body 34 }
  else d

/-! ## Clocked process -/

/-- The buffer after a beat: lane `i` of word `widx` goes to byte `16 * widx + i`. -/
def writeBeat (body : Vector UInt8 48) (i : DecoderIn) : Vector UInt8 48 :=
  Vector.ofFn fun j =>
    let lane := j.val - i.msgWidx.toNat * wordBytes
    if i.msgWidx.toNat * wordBytes ≤ j.val ∧ lane < i.msgNbytes.toNat then
      (i.msgData[lane]?).getD body[j]
    else body[j]

/-- `rst`. -/
def reset (s : DecoderState) : DecoderState := { s with dec := {}, decValid := false }

/-- One clock edge without `rst`. -/
def step (s : DecoderState) (i : DecoderIn) : DecoderState :=
  let s' := if i.msgBeatValid then { s with body := writeBeat s.body i } else s
  if i.msgComplete then
    if bodyLen (byteAt s.body 0) ≠ 0 ∧ i.msgLen.toNat = bodyLen (byteAt s.body 0) then
      { s' with dec := dC s.body, decValid := true }
    else { s' with dec := {}, decValid := false }
  else if i.decAccept then { s' with decValid := false }
  else s'

end DecoderState

end ItchOrderbook.Rtl
