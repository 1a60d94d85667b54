import ItchOrderbook.Lib.LittleEndian
import ItchOrderbook.Lib.StreamMachine
import ItchOrderbook.Rtl.Package

/-!
# Serial bridge (`fpga/board/uart_itch_bridge.sv`)

Carries messages from a serial line to the ingest bus and snapshots of the book back, in frames of
fixed length behind the preamble `A5 5A`: 48 payload bytes down (`PAYLOAD_DN`), 128 up
(`SNAP_BYTES`). The serial engines are left out: a received byte comes in as `rxb_v`/`rxb_q`, and a
byte to send goes out while the transmitter is not busy.
-/

namespace ItchOrderbook.Rtl

open BigEndian

/-- `T_ITCH`. -/
def tItch : UInt8 := 0x01
/-- `T_SNAP`. -/
def tSnap : UInt8 := 0x02
/-- `T_BAND`. -/
def tBand : UInt8 := 0x03

/-! ## Frame receiver and feeder -/

/-- `frx_e`. -/
inductive FrxState where
  | mag0
  | mag1
  | type
  | body
  | csum
  | feed
  | snap
  deriving DecidableEq, Repr, Inhabited

/-- The registers of the receiver and the feeder. The payload is never reset. -/
structure RxState where
  frx : FrxState
  ftype : UInt8
  /-- payload index, 0..47 -/
  frxCnt : BitVec 6
  pay : Vector UInt8 48
  /-- running sum of type and payload -/
  csum : UInt8
  frameErr : UInt32
  feedIdx : BitVec 6
  /-- 2 + body length -/
  feedLen : BitVec 6
  snapGo : Bool
  rxFramePulse : Bool
  frameErrSticky : Bool
  bandCfgValid : Bool
  bandCfgBase : UInt32
  deriving Inhabited

namespace RxState

/-- `itch_len`: the big-endian length prefix. -/
def itchLen (s : RxState) : UInt16 := word16 s.pay[0] s.pay[1]

/-- `in_valid`. -/
def inValid (s : RxState) : Bool := decide (s.frx = .feed)

/-- `in_data` and `in_nbytes`: one payload byte in lane 0. -/
def inBeat (s : RxState) : Beat where
  data := Vector.ofFn fun i => if i.val = 0 then (s.pay[s.feedIdx.toNat]?).getD 0 else 0
  nbytes := 1

/-- `!rst_n`. -/
def reset (s : RxState) : RxState where
  frx := .mag0
  ftype := 0
  frxCnt := 0
  pay := s.pay
  csum := 0
  frameErr := 0
  feedIdx := 0
  feedLen := 0
  snapGo := false
  rxFramePulse := false
  frameErrSticky := false
  bandCfgValid := false
  bandCfgBase := 0

/-- A frame is dropped whole. -/
def dropFrame (n : RxState) : RxState :=
  { n with frameErr := n.frameErr + 1, frameErrSticky := true, frx := .mag0 }

/-- `FR_CSUM` on a byte: reads the registers `s`, writes those in `n`. -/
def judge (s n : RxState) (b : UInt8) : RxState :=
  if b ≠ s.csum then n.dropFrame
  else if s.ftype = tItch then
    if s.itchLen = 0 ∨ s.itchLen > UInt16.ofNat (msgMaxBytes - 2) then n.dropFrame
    else
      { n with
        feedIdx := 0
        feedLen := (s.itchLen + 2).toBitVec.setWidth 6
        frx := .feed }
  else if s.ftype = tSnap then { n with snapGo := true, frx := .snap }
  else if s.ftype = tBand then
    { n with
      bandCfgBase := word32 s.pay[3] s.pay[2] s.pay[1] s.pay[0]
      bandCfgValid := true
      rxFramePulse := true
      frx := .mag0 }
  else n.dropFrame

/-- The states that look at a received byte. -/
def receive (s n : RxState) (b : UInt8) : RxState :=
  match s.frx with
  | .mag0 => if b = 0xA5 then { n with frx := .mag1 } else { n with frameErrSticky := true }
  | .mag1 =>
    if b = 0x5A then { n with frx := .type, csum := 0 }
    else { n with frameErrSticky := true, frx := if b = 0xA5 then .mag1 else .mag0 }
  | .type => { n with ftype := b, csum := b, frxCnt := 0, frx := .body }
  | .body =>
    let n :=
      { n with pay := s.pay.setIfInBounds s.frxCnt.toNat b, csum := s.csum + b }
    if s.frxCnt = 47 then { n with frx := .csum } else { n with frxCnt := s.frxCnt + 1 }
  | .csum => s.judge n b
  | _ => n

/-- What an edge writes first: the pulses of the last cycle end. -/
def fresh (s : RxState) : RxState :=
  { s with rxFramePulse := false, snapGo := false, bandCfgValid := false }

/-- One clock edge with `rst_n` high. -/
def step (s : RxState) (rxb : Option UInt8) (inReady snapBusy : Bool) : RxState :=
  match s.frx with
  | .feed =>
    if inReady then
      if s.feedIdx = s.feedLen - 1 then { s.fresh with rxFramePulse := true, frx := .mag0 }
      else { s.fresh with feedIdx := s.feedIdx + 1 }
    else s.fresh
  | .snap =>
    if !snapBusy && !s.snapGo then { s.fresh with rxFramePulse := true, frx := .mag0 }
    else s.fresh
  | _ =>
    match rxb with
    | some b => s.receive s.fresh b
    | none => s.fresh

/-- The received byte, if the receiver looks at it: while it feeds or waits for a snapshot it does
not. -/
def heard (s : RxState) (rxb : Option UInt8) : List UInt8 :=
  match s.frx with
  | .feed => []
  | .snap => []
  | _ => rxb.toList

end RxState

/-! ## Snapshot -/

/-- The outputs of the book that a snapshot holds. -/
structure BookView where
  bestBidValid : Bool
  bestBidPrice : UInt32
  bestBidShares : UInt32
  bestAskValid : Bool
  bestAskPrice : UInt32
  bestAskShares : UInt32
  totBidVol : UInt64
  totAskVol : UInt64
  vwapNum : UInt64
  vwapDen : UInt64
  tradeCount : UInt64
  spreadValid : Bool
  spread : UInt32
  bandBase : UInt32
  bandDrops : UInt32
  msgTotal : UInt64
  mcAdd : UInt32
  mcAddmpid : UInt32
  mcExec : UInt32
  mcExecpr : UInt32
  mcCancel : UInt32
  mcDelete : UInt32
  mcReplace : UInt32
  mcTrade : UInt32
  mcSystem : UInt32
  tblInsFails : UInt32
  deriving DecidableEq, Inhabited

/-- A word in little-endian order. -/
def le32 (x : UInt32) : List UInt8 := LittleEndian.toBytes 4 x.toNat

/-- A double word in little-endian order. -/
def le64 (x : UInt64) : List UInt8 := LittleEndian.toBytes 8 x.toNat

theorem le32_length (x : UInt32) : (le32 x).length = 4 := LittleEndian.toBytes_length 4 _

theorem le64_length (x : UInt64) : (le64 x).length = 8 := LittleEndian.toBytes_length 8 _

/-- `{5'b0, spread_valid, best_ask_valid, best_bid_valid}`. -/
def BookView.flags (v : BookView) : UInt8 :=
  v.bestBidValid.toUInt8 ||| v.bestAskValid.toUInt8 <<< 1 ||| v.spreadValid.toUInt8 <<< 2

/-- The fields of a snapshot in the order of their offsets. Bytes 2, 3 and 124 to 127 are
reserved. -/
def snapFields (v : BookView) (frameErr : UInt32) : List (List UInt8) :=
  [[1, v.flags, 0, 0],
    -- 4
    le32 v.bestBidPrice, le32 v.bestBidShares, le32 v.bestAskPrice, le32 v.bestAskShares,
    -- 20
    le64 v.totBidVol, le64 v.totAskVol, le64 v.vwapNum, le64 v.vwapDen, le64 v.tradeCount,
    -- 60
    le32 v.spread, le32 v.bandBase, le32 v.bandDrops, le64 v.msgTotal,
    -- 80
    le32 v.mcAdd, le32 v.mcAddmpid, le32 v.mcExec, le32 v.mcExecpr, le32 v.mcCancel,
    le32 v.mcDelete, le32 v.mcReplace, le32 v.mcTrade, le32 v.mcSystem,
    -- 116
    le32 frameErr, le32 v.tblInsFails, [0, 0, 0, 0]]

/-- `snap_now`, byte 0 first. -/
def snapNow (v : BookView) (frameErr : UInt32) : List UInt8 := (snapFields v frameErr).flatten

theorem snapNow_length (v : BookView) (frameErr : UInt32) :
    (snapNow v frameErr).length = 128 := by
  have hlens : (snapFields v frameErr).map List.length =
      [4, 4, 4, 4, 4, 8, 8, 8, 8, 8, 4, 4, 4, 8, 4, 4, 4, 4, 4, 4, 4, 4, 4, 4, 4, 4] := by
    simp only [snapFields, List.map_cons, List.map_nil, le32_length, le64_length]
    rfl
  rw [snapNow, List.length_flatten, hlens]
  decide

/-! ## Frame transmitter -/

/-- `ftx_e`. -/
inductive FtxState where
  | idle
  | mag0
  | mag1
  | type
  | body
  | csum
  deriving DecidableEq, Repr, Inhabited

/-- The registers of the transmitter. -/
structure TxState where
  ftx : FtxState
  ftxCnt : UInt8
  txCsum : UInt8
  snap : Vector UInt8 128
  txFramePulse : Bool
  deriving Inhabited

namespace TxState

/-- `snap_busy`. -/
def snapBusy (s : TxState) : Bool := decide (s.ftx ≠ .idle)

/-- The snapshot byte at the cursor. -/
def snapByte (s : TxState) : UInt8 := (s.snap[s.ftxCnt.toNat]?).getD 0

/-- `txb_go` and `txb_q`: the byte handed to the serial transmitter, if any. -/
def txb (s : TxState) (txBusy : Bool) : Option UInt8 :=
  if txBusy then none
  else
    match s.ftx with
    | .idle => none
    | .mag0 => some 0xA5
    | .mag1 => some 0x5A
    | .type => some 0x81
    | .body => some s.snapByte
    | .csum => some s.txCsum

/-- `!rst_n`. -/
def reset : TxState where
  ftx := .idle
  ftxCnt := 0
  txCsum := 0
  snap := Vector.replicate 128 0
  txFramePulse := false

/-- What an edge writes first: the pulse of the last cycle ends. -/
def fresh (s : TxState) : TxState := { s with txFramePulse := false }

/-- What a byte that goes out changes. -/
def advance (s : TxState) : TxState :=
  match s.ftx with
  | .idle => s.fresh
  | .mag0 => { s.fresh with ftx := .mag1 }
  | .mag1 => { s.fresh with ftx := .type, txCsum := 0 }
  | .type => { s.fresh with txCsum := 0x81, ftxCnt := 0, ftx := .body }
  | .body =>
    if s.ftxCnt = 127 then { s.fresh with txCsum := s.txCsum + s.snapByte, ftx := .csum }
    else { s.fresh with txCsum := s.txCsum + s.snapByte, ftxCnt := s.ftxCnt + 1 }
  | .csum => { s.fresh with txFramePulse := true, ftx := .idle }

/-- `snap_now` captured in a single cycle. -/
def latch (s : TxState) (v : BookView) (frameErr : UInt32) : TxState :=
  { s.fresh with
    snap := ⟨(snapNow v frameErr).toArray, snapNow_length v frameErr⟩
    ftx := .mag0 }

/-- One clock edge with `rst_n` high. -/
def step (s : TxState) (snapGo txBusy : Bool) (v : BookView) (frameErr : UInt32) : TxState :=
  match s.ftx with
  | .idle => if snapGo then s.latch v frameErr else s.fresh
  | _ => if (s.txb txBusy).isSome then s.advance else s.fresh

end TxState

/-! ## Bridge -/

/-- Both directions. -/
structure BridgeState where
  rx : RxState
  tx : TxState
  deriving Inhabited

/-- The inputs of one cycle: a received byte, the acceptance of the ingest bus, whether the serial
transmitter is busy, and the outputs of the book. -/
structure BridgeIn where
  rxb : Option UInt8
  inReady : Bool
  txBusy : Bool
  book : BookView

/-- What can be seen of the bridge in one cycle. The latch of a snapshot is recorded with what it
captures. -/
inductive BridgeEvent where
  | ingest (b : Beat)
  | setBand (base : UInt32)
  | latch (v : BookView) (frameErr : UInt32)
  | send (b : UInt8)
  deriving DecidableEq

namespace BridgeState

def reset (s : BridgeState) : BridgeState := ⟨s.rx.reset, .reset⟩

def step (s : BridgeState) (i : BridgeIn) : BridgeState where
  rx := s.rx.step i.rxb i.inReady s.tx.snapBusy
  tx := s.tx.step s.rx.snapGo i.txBusy i.book s.rx.frameErr

/-- The events of a cycle. -/
def events (s : BridgeState) (i : BridgeIn) : List BridgeEvent :=
  (if s.rx.inValid && i.inReady then [.ingest s.rx.inBeat] else []) ++
  (if s.rx.bandCfgValid then [.setBand s.rx.bandCfgBase] else []) ++
  (if s.rx.snapGo && !s.tx.snapBusy then [.latch i.book s.rx.frameErr] else []) ++
  (s.tx.txb i.txBusy).toList.map .send

/-- The bridge between the serial line and the ingest bus. -/
def bridge : StreamMachine BridgeState BridgeIn UInt8 BridgeEvent :=
  ⟨step, fun s i => s.rx.heard i.rxb, events⟩

end BridgeState

end ItchOrderbook.Rtl
