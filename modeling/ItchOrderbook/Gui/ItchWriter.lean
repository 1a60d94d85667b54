import ItchOrderbook.Lib.BigEndian
import Mathlib.Data.Int.Notation

/-!
# ITCH writer (`gui/data/itch_writer.py`)

The message builders. A Python integer is an `ℤ`, a `str` the list of its characters, and a
builder either returns the length-prefixed bytes or raises.
-/

namespace ItchOrderbook.ItchWriter

open BigEndian

/-- The exceptions the builders can raise. -/
inductive PyError where
  | unicodeEncodeError
  | assertionError
  | structError
  deriving DecidableEq, Repr

/-! ## Primitive encoders -/

/-- `s.encode('ascii')`. -/
def encodeAscii (s : List Char) : Except PyError (List UInt8) :=
  if s.all fun c => c.toNat < 128 then .ok (s.map Char.toUInt8) else .error .unicodeEncodeError

/-- `_u16be`: masking keeps the value modulo `2 ^ 16`, for a negative integer too. -/
def u16be (v : ℤ) : List UInt8 := toBytes 2 (v % 0x10000).toNat

/-- `_u32be`. -/
def u32be (v : ℤ) : List UInt8 := toBytes 4 (v % 0x100000000).toNat

/-- `_u64be`. -/
def u64be (v : ℤ) : List UInt8 := toBytes 8 (v % 0x10000000000000000).toNat

/-- Cut to `n` characters and padded on the right with spaces, as `_stock` and `mpid` fields
are. -/
def padded (n : ℕ) (s : List Char) : Except PyError (List UInt8) := do
  let b := (← encodeAscii s).take n
  return b ++ List.replicate (n - b.length) ' '.toUInt8

/-- `_stock`. -/
def stockField (s : List Char) : Except PyError (List UInt8) := padded 8 s

/-- `_header`. -/
def header (typeChar : Char) (locate tracking timestampNs : ℤ) : Except PyError (List UInt8) := do
  return (← encodeAscii [typeChar]) ++ u16be locate ++ u16be tracking ++ u64be timestampNs

/-- `_frame`: `struct.pack('>H', …)` refuses a length that does not fit. -/
def frame (body : List UInt8) : Except PyError (List UInt8) :=
  if body.length < 0x10000 then .ok (toBytes 2 body.length ++ body) else .error .structError

/-- `assert len(body) == n` and the framing behind it. -/
def frameOfLen (n : ℕ) (body : List UInt8) : Except PyError (List UInt8) :=
  if body.length = n then frame body else .error .assertionError

/-! ## Message builders -/

/-- `system_event`. -/
def systemEvent (locate tracking timestampNs : ℤ) (eventCode : List Char) :
    Except PyError (List UInt8) := do
  let body := (← header 'S' locate tracking timestampNs) ++ (← encodeAscii eventCode)
  frameOfLen 14 body

/-- `add_order`. -/
def addOrder (locate tracking timestampNs orderRef : ℤ) (side : List Char) (shares : ℤ)
    (stock : List Char) (price : ℤ) : Except PyError (List UInt8) := do
  let body := (← header 'A' locate tracking timestampNs) ++ u64be orderRef ++ (← encodeAscii side)
    ++ u32be shares ++ (← stockField stock) ++ u32be price
  frameOfLen 38 body

/-- `add_order_mpid`. -/
def addOrderMpid (locate tracking timestampNs orderRef : ℤ) (side : List Char) (shares : ℤ)
    (stock : List Char) (price : ℤ) (mpid : List Char) : Except PyError (List UInt8) := do
  let mpidB ← padded 4 mpid
  let body := (← header 'F' locate tracking timestampNs) ++ u64be orderRef ++ (← encodeAscii side)
    ++ u32be shares ++ (← stockField stock) ++ u32be price ++ mpidB
  frameOfLen 42 body

/-- `order_executed`. -/
def orderExecuted (locate tracking timestampNs orderRef execShares matchNumber : ℤ) :
    Except PyError (List UInt8) := do
  let body := (← header 'E' locate tracking timestampNs) ++ u64be orderRef ++ u32be execShares
    ++ u64be matchNumber
  frameOfLen 33 body

/-- `order_executed_price`. -/
def orderExecutedPrice (locate tracking timestampNs orderRef execShares matchNumber : ℤ)
    (printable : Bool) (price : ℤ) : Except PyError (List UInt8) := do
  let body := (← header 'C' locate tracking timestampNs) ++ u64be orderRef ++ u32be execShares
    ++ u64be matchNumber ++ (if printable then ['Y'.toUInt8] else ['N'.toUInt8]) ++ u32be price
  frameOfLen 38 body

/-- `order_cancel`. -/
def orderCancel (locate tracking timestampNs orderRef cancelledShares : ℤ) :
    Except PyError (List UInt8) := do
  let body := (← header 'X' locate tracking timestampNs) ++ u64be orderRef ++ u32be cancelledShares
  frameOfLen 25 body

/-- `order_delete`. -/
def orderDelete (locate tracking timestampNs orderRef : ℤ) : Except PyError (List UInt8) := do
  let body := (← header 'D' locate tracking timestampNs) ++ u64be orderRef
  frameOfLen 21 body

/-- `order_replace`. -/
def orderReplace (locate tracking timestampNs origRef newRef shares price : ℤ) :
    Except PyError (List UInt8) := do
  let body := (← header 'U' locate tracking timestampNs) ++ u64be origRef ++ u64be newRef
    ++ u32be shares ++ u32be price
  frameOfLen 37 body

/-- `trade`. -/
def trade (locate tracking timestampNs orderRef : ℤ) (side : List Char) (shares : ℤ)
    (stock : List Char) (price matchNumber : ℤ) : Except PyError (List UInt8) := do
  let body := (← header 'P' locate tracking timestampNs) ++ u64be orderRef ++ (← encodeAscii side)
    ++ u32be shares ++ (← stockField stock) ++ u32be price ++ u64be matchNumber
  frameOfLen 46 body

end ItchOrderbook.ItchWriter
