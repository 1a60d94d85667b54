/-!
# ITCH messages (`sw/parser/itch_messages.hpp`)

The decoded message every component consumes: a flat record tagged by `MsgType`, whose
fields that a type does not carry are left zero. Machine integers keep the widths the
source gives them.
-/

namespace ItchOrderbook

/-- Message types (`enum class MsgType`); `unknown` is what the parser returns for a body it
does not support. -/
inductive MsgType where
  | addOrder
  | addOrderMPID
  | orderExecuted
  | orderExecutedPrice
  | orderCancel
  | orderDelete
  | orderReplace
  | trade
  | systemEvent
  | unknown
  deriving DecidableEq, Repr

/-- The type a type byte stands for (`static_cast<MsgType>`); a byte no type has, like `'?'`
itself, is treated as `unknown` everywhere. -/
def MsgType.ofByte (b : UInt8) : MsgType :=
  if b = 'A'.toUInt8 then .addOrder
  else if b = 'F'.toUInt8 then .addOrderMPID
  else if b = 'E'.toUInt8 then .orderExecuted
  else if b = 'C'.toUInt8 then .orderExecutedPrice
  else if b = 'X'.toUInt8 then .orderCancel
  else if b = 'D'.toUInt8 then .orderDelete
  else if b = 'U'.toUInt8 then .orderReplace
  else if b = 'P'.toUInt8 then .trade
  else if b = 'S'.toUInt8 then .systemEvent
  else .unknown

/-! ## Wire layout

Offsets and lengths of the body, as `namespace hdr`, `namespace blen` and `namespace off` give
them. -/

def Hdr.type := 0
def Hdr.stockLoc := 1
def Hdr.timestamp := 5

def Blen.add := 38
def Blen.addMpid := 42
def Blen.exec := 33
def Blen.execPrice := 38
def Blen.cancel := 25
def Blen.delete := 21
def Blen.replace := 37
def Blen.trade := 46
def Blen.system := 14

/-- `msg_body_len`: the exact body length of a supported type, zero for any other. -/
def msgBodyLen : MsgType → Nat
  | .addOrder => Blen.add
  | .addOrderMPID => Blen.addMpid
  | .orderExecuted => Blen.exec
  | .orderExecutedPrice => Blen.execPrice
  | .orderCancel => Blen.cancel
  | .orderDelete => Blen.delete
  | .orderReplace => Blen.replace
  | .trade => Blen.trade
  | .systemEvent => Blen.system
  | .unknown => 0

def Off.addRef := 13
def Off.addSide := 21
def Off.addShares := 22
def Off.addStock := 26
def Off.addPrice := 34
def Off.addMpid := 38

def Off.execRef := 13
def Off.execShares := 21
def Off.execMatch := 25

def Off.execpRef := 13
def Off.execpShares := 21
def Off.execpMatch := 25
def Off.execpPrintable := 33
def Off.execpPrice := 34

def Off.cancelRef := 13
def Off.cancelShares := 21

def Off.deleteRef := 13

def Off.replOrigRef := 13
def Off.replNewRef := 21
def Off.replShares := 29
def Off.replPrice := 33

def Off.tradeRef := 13
def Off.tradeSide := 21
def Off.tradeShares := 22
def Off.tradeStock := 26
def Off.tradePrice := 34
def Off.tradeMatch := 38

def Off.sysEvent := 13

/-! ## Side codes

On the wire and in every record a side is one character; a message can carry any byte
there. -/

/-- `SIDE_BUY`. -/
def sideBuy : UInt8 := 'B'.toUInt8

/-- `SIDE_SELL`. -/
def sideSell : UInt8 := 'S'.toUInt8

theorem sideSell_ne_sideBuy : sideSell ≠ sideBuy := by decide

/-- The decoded message (`struct DecodedMessage`). -/
structure DecodedMessage where
  type : MsgType := .unknown
  side : UInt8 := 0
  eventCode : UInt8 := 0
  printable : UInt8 := 0
  stockLocate : UInt16 := 0
  stockIdx : UInt16 := 0
  shares : UInt32 := 0
  price : UInt32 := 0
  timestamp : UInt64 := 0
  orderRef : UInt64 := 0
  newOrderRef : UInt64 := 0
  matchNumber : UInt64 := 0
  mpid : Vector UInt8 4 := Vector.replicate 4 0
  stock : Vector UInt8 8 := Vector.replicate 8 0
  deriving DecidableEq, Repr

end ItchOrderbook
