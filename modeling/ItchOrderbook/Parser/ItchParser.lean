import ItchOrderbook.Lib.Framing
import ItchOrderbook.Parser.ItchMessages

/-!
# ITCH parser (`sw/parser/itch_parser.hpp`, `sw/parser/itch_parser.cpp`, `sw/util/endian.hpp`)

`ItchParser::decode_body` turns one message body into a `DecodedMessage`; `parse_stream` walks a
length-prefixed stream and hands every message to a handler. A pointer into the data is the
byte list from there on, so `p + k` is `p.drop k`.
-/

namespace ItchOrderbook

open BigEndian

/-! ## Big-endian loads

A little-endian load followed by a byte swap: the byte at the pointer is the high one. -/

def be16 (p : List UInt8) : UInt16 := word16 (p.getD 0 0) (p.getD 1 0)

def be32 (p : List UInt8) : UInt32 :=
  word32 (p.getD 0 0) (p.getD 1 0) (p.getD 2 0) (p.getD 3 0)

def be64 (p : List UInt8) : UInt64 :=
  word64 (p.getD 0 0) (p.getD 1 0) (p.getD 2 0) (p.getD 3 0)
    (p.getD 4 0) (p.getD 5 0) (p.getD 6 0) (p.getD 7 0)

/-- `copy8`, and the loop that copies an `mpid`: `n` characters from `src` on. -/
def copyChars (n : ℕ) (src : List UInt8) : Vector UInt8 n := Vector.ofFn fun i => src.getD i 0

/-! ## One body -/

/-- The fields of one type: the `switch` of `ItchParser::decode_body`. -/
def decodeFields (b : List UInt8) (m : DecodedMessage) : DecodedMessage :=
  match m.type with
  | .addOrder | .addOrderMPID =>
    let m :=
      { m with
        orderRef := be64 (b.drop Off.addRef)
        side := b.getD Off.addSide 0
        shares := be32 (b.drop Off.addShares)
        stock := copyChars 8 (b.drop Off.addStock)
        price := be32 (b.drop Off.addPrice) }
    if m.type = .addOrderMPID then { m with mpid := copyChars 4 (b.drop Off.addMpid) } else m
  | .orderExecuted =>
    { m with
      orderRef := be64 (b.drop Off.execRef)
      shares := be32 (b.drop Off.execShares)
      matchNumber := be64 (b.drop Off.execMatch) }
  | .orderExecutedPrice =>
    { m with
      orderRef := be64 (b.drop Off.execpRef)
      shares := be32 (b.drop Off.execpShares)
      matchNumber := be64 (b.drop Off.execpMatch)
      printable := if b.getD Off.execpPrintable 0 = 'Y'.toUInt8 then 1 else 0
      price := be32 (b.drop Off.execpPrice) }
  | .orderCancel =>
    { m with
      orderRef := be64 (b.drop Off.cancelRef)
      shares := be32 (b.drop Off.cancelShares) }
  | .orderDelete => { m with orderRef := be64 (b.drop Off.deleteRef) }
  | .orderReplace =>
    { m with
      orderRef := be64 (b.drop Off.replOrigRef)
      newOrderRef := be64 (b.drop Off.replNewRef)
      shares := be32 (b.drop Off.replShares)
      price := be32 (b.drop Off.replPrice) }
  | .trade =>
    { m with
      orderRef := be64 (b.drop Off.tradeRef)
      side := b.getD Off.tradeSide 0
      shares := be32 (b.drop Off.tradeShares)
      stock := copyChars 8 (b.drop Off.tradeStock)
      price := be32 (b.drop Off.tradePrice)
      matchNumber := be64 (b.drop Off.tradeMatch) }
  | .systemEvent => { m with eventCode := b.getD Off.sysEvent 0 }
  | .unknown => { m with type := .unknown }

/-- `ItchParser::decode_body`, on the `bodyLen` bytes from `b` on. -/
def decodeBody (b : List UInt8) (bodyLen : ℕ) : DecodedMessage :=
  if bodyLen = 0 then {}
  else
    let type := MsgType.ofByte (b.getD Hdr.type 0)
    let expected := msgBodyLen type
    if expected = 0 ∨ bodyLen ≠ expected then {}
    else
      decodeFields b
        { type
          stockLocate := be16 (b.drop Hdr.stockLoc)
          stockIdx := be16 (b.drop Hdr.stockLoc)
          timestamp := be64 (b.drop Hdr.timestamp) }

/-! ## A stream -/

/-- `struct ParseStats`. -/
structure ParseStats where
  messages : UInt64 := 0
  bytes : UInt64 := 0
  unknown : UInt64 := 0
  deriving DecidableEq, Repr

variable {σ : Type*}

/-- The loop of `ItchParser::parse_stream` from offset `o` on, where `data` is what is left of
the stream there. The handler is any function of its own state `s`. -/
def parseStreamFrom (handler : σ → DecodedMessage → σ) (data : List UInt8) (st : ParseStats)
    (s : σ) : ParseStats × σ :=
  if 2 ≤ data.length then
    let bodyLen := (be16 data).toNat
    if h : bodyLen = 0 ∨ data.length < 2 + bodyLen then (st, s)
    else
      let m := decodeBody (data.drop 2) bodyLen
      let st := if m.type = .unknown then { st with unknown := st.unknown + 1 } else st
      let s := handler s m
      let st := { st with messages := st.messages + 1 }
      let st := { st with bytes := st.bytes + UInt64.ofNat (2 + bodyLen) }
      parseStreamFrom handler (data.drop (2 + bodyLen)) st s
  else (st, s)
termination_by data.length
decreasing_by simp only [List.length_drop]; omega

/-- `ItchParser::parse_stream`. -/
def parseStream (handler : σ → DecodedMessage → σ) (data : List UInt8) (s : σ) : ParseStats × σ :=
  parseStreamFrom handler data {} s

/-- The messages of a stream, in the order the handler sees them. -/
def parsedMessages (data : List UInt8) : List DecodedMessage :=
  (parseStream (fun ms m => ms ++ [m]) data []).2

end ItchOrderbook
