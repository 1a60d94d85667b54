import ItchOrderbook.Lib.StreamMachine
import Mathlib

/-!
# Serial engines (`fpga/board/uart_itch_bridge.sv`, UART RX and UART TX)

One byte is a start bit, eight data bits with the low one first, and a stop bit, each for `DIVISOR`
cycles. The transmitter shifts it onto the line; the receiver looks at the line behind two flops and
samples in the middle of a bit. A function `step` is one clock edge with `rst_n` high.
-/

namespace ItchOrderbook.Rtl

/-- The parameter `DIVISOR`, at least 4. -/
structure Divisor where
  n : ℕ
  four_le : 4 ≤ n

namespace Divisor

variable (d : Divisor)

/-- `DW`. -/
def dw : ℕ := Nat.clog 2 d.n

/-- `(DW+1)'(DIVISOR - 1)`. -/
def full : BitVec (d.dw + 1) := BitVec.ofNat _ (d.n - 1)

/-- `(DW+1)'(DIVISOR / 2)`. -/
def half : BitVec (d.dw + 1) := BitVec.ofNat _ (d.n / 2)

end Divisor

/-! ## Transmitter -/

/-- The registers of the transmitter. -/
structure SerialTx (d : Divisor) where
  txdiv : BitVec (d.dw + 1)
  txbit : BitVec 4
  txBusy : Bool
  txsh : BitVec 10

namespace SerialTx

variable {d : Divisor}

/-- `!rst_n`. -/
def reset : SerialTx d where
  txdiv := 0
  txbit := 0
  txBusy := false
  txsh := BitVec.allOnes 10

/-- `uart_tx`. -/
def uartTx (s : SerialTx d) : Bool := if s.txBusy then s.txsh.getLsbD 0 else true

/-- `{1'b1, txb_q, 1'b0}`. -/
def framed (b : UInt8) : BitVec 10 := BitVec.cons true (b.toBitVec.concat false)

/-- `{1'b1, txsh_q[9:1]}`. -/
def shifted (sh : BitVec 10) : BitVec 10 := BitVec.cons true (sh.extractLsb' 1 9)

/-- An edge: `go` is `txb_q` while `txb_go`. -/
def step (s : SerialTx d) (go : Option UInt8) : SerialTx d :=
  if !s.txBusy then
    match go with
    | some b => { txBusy := true, txsh := framed b, txbit := 0, txdiv := d.full }
    | none => s
  else if s.txdiv ≠ 0 then { s with txdiv := s.txdiv - 1 }
  else
    let s' := { s with txdiv := d.full }
    if s.txbit = 9 then { s' with txBusy := false }
    else { s' with txsh := shifted s.txsh, txbit := s.txbit + 1 }

/-- The byte taken at an edge. -/
def sent (s : SerialTx d) (go : Option UInt8) : List UInt8 := if s.txBusy then [] else go.toList

/-- The transmitter: it takes bytes and gives the line. -/
def machine (d : Divisor) : StreamMachine (SerialTx d) (Option UInt8) UInt8 Bool where
  step := step
  taken := sent
  given s _ := [s.uartTx]

end SerialTx

/-! ## Receiver -/

/-- The registers of the receiver behind its synchroniser. -/
structure RxEngine (d : Divisor) where
  rxdiv : BitVec (d.dw + 1)
  rxbit : BitVec 4
  rxBusy : Bool
  rxsh : BitVec 8
  rxbV : Bool
  rxbQ : BitVec 8

namespace RxEngine

variable {d : Divisor}

/-- `!rst_n`. -/
def reset : RxEngine d where
  rxdiv := 0
  rxbit := 0
  rxBusy := false
  rxsh := 0
  rxbV := false
  rxbQ := 0

/-- `{rxd_s, rxsh_q[7:1]}`. -/
def shifted (sh : BitVec 8) (rxdS : Bool) : BitVec 8 := BitVec.cons rxdS (sh.extractLsb' 1 7)

/-- An edge. -/
def step (s : RxEngine d) (rxdS : Bool) : RxEngine d :=
  let s' := { s with rxbV := false }
  if !s.rxBusy then
    -- start bit edge, sample mid-bit
    if !rxdS then { s' with rxBusy := true, rxdiv := d.half, rxbit := 0 } else s'
  else if s.rxdiv ≠ 0 then { s' with rxdiv := s.rxdiv - 1 }
  else
    let s' := { s' with rxdiv := d.full }
    if s.rxbit = 0 then
      -- start-bit centre; a glitch aborts
      let s' := if rxdS then { s' with rxBusy := false } else s'
      { s' with rxbit := 1 }
    else if s.rxbit ≤ 8 then { s' with rxsh := shifted s.rxsh rxdS, rxbit := s.rxbit + 1 }
    else
      -- stop bit
      let s' := { s' with rxBusy := false }
      if rxdS then { s' with rxbV := true, rxbQ := s.rxsh } else s'

/-- The byte of a cycle with `rxb_v`. -/
def delivered (s : RxEngine d) : List UInt8 := if s.rxbV then [⟨s.rxbQ⟩] else []

/-- The engine: it takes the synchronised line and gives bytes. -/
def machine (d : Divisor) : StreamMachine (RxEngine d) Bool Bool UInt8 where
  step := step
  taken _ rxdS := [rxdS]
  given s _ := s.delivered

end RxEngine

/-- The receiver with its synchroniser. -/
structure SerialRx (d : Divisor) where
  rxdM : Bool
  rxdS : Bool
  engine : RxEngine d

namespace SerialRx

variable {d : Divisor}

/-- An edge. -/
def step (s : SerialRx d) (uartRx : Bool) : SerialRx d where
  rxdM := uartRx
  rxdS := s.rxdM
  engine := s.engine.step s.rxdS

/-- An edge with `rst_n` low: the synchroniser has no reset. -/
def resetStep (s : SerialRx d) (uartRx : Bool) : SerialRx d where
  rxdM := uartRx
  rxdS := s.rxdM
  engine := RxEngine.reset

/-- The receiver: it takes the line and gives bytes. -/
def machine (d : Divisor) : StreamMachine (SerialRx d) Bool Bool UInt8 where
  step := step
  taken _ uartRx := [uartRx]
  given s _ := s.engine.delivered

end SerialRx

/-! ## Loopback -/

/-- The transmitter's line is the receiver's. -/
structure Loopback (d : Divisor) where
  tx : SerialTx d
  rx : SerialRx d

namespace Loopback

variable {d : Divisor}

/-- An edge with `rst_n` low. -/
def resetStep (s : Loopback d) : Loopback d where
  tx := SerialTx.reset
  rx := s.rx.resetStep s.tx.uartTx

/-- Reset for three cycles, so that the idle line comes through the synchroniser. -/
def start (s : Loopback d) : Loopback d := s.resetStep.resetStep.resetStep

/-- Both engines on one clock. -/
def machine (d : Divisor) : StreamMachine (Loopback d) (Option UInt8) UInt8 UInt8 where
  step s go := { tx := s.tx.step go, rx := s.rx.step s.tx.uartTx }
  taken s go := s.tx.sent go
  given s _ := s.rx.engine.delivered

end Loopback

end ItchOrderbook.Rtl
