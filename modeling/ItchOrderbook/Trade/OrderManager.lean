import ItchOrderbook.Book.RefMap
import ItchOrderbook.Trade.DslVm
import ItchOrderbook.Trade.FillEngine

/-!
# The order manager (`class OrderManager`, `sw/trade/order_manager.hpp`, `.cpp`)

Signals become orders, fills become a position, and a position that is closed becomes a trade.
The source holds references to a fill engine and a book engine. No other code submits to the fill
engine, so here it is a part of the manager; the book engine is only read, and is an argument.

Two lists are not in the source: `submissions` notes what is submitted and for what purpose, and
`closed` notes the shares of each round trip as it is closed. No function reads them.
-/

namespace ItchOrderbook

open FloatOps

/-- `RSN_SIGNAL`, `RSN_STOP`, `RSN_TRAIL`, `RSN_TP`, `RSN_EOD`. -/
inductive Reason where
  | signal | stop | trail | tp | eod
  deriving DecidableEq, Repr

/-- `struct TradeRecT`. -/
structure TradeRecT (F : Type) where
  side : ℤ
  entryT : ℤ
  exitT : ℤ
  entryPx : F
  exitPx : F
  qty : F
  pnl : F
  reason : Reason
  deriving DecidableEq, Repr

/-- `struct OmConfig`. -/
structure OmConfig (F : Type) where
  fee : F
  equity0 : F
  entryCross : Bool
  crossTicks : UInt32
  deriving DecidableEq, Repr

/-- What `OmConfig cfg;` starts from: a fee of `0.001f` and an equity of `1e9f`. -/
def OmConfig.initial {F : Type} [FloatOps F] : OmConfig F where
  fee := ofBits 0x3A83126F
  equity0 := ofBits 0x4E6E6B28
  entryCross := false
  crossTicks := 2

/-- What an order is submitted for. -/
inductive Purpose where
  /-- A new entry. -/
  | entry
  /-- What is left of this working entry, at another price. -/
  | repeg (o : OpenOrder)
  /-- An exit. -/
  | exit
  deriving DecidableEq, Repr

/-- A call of `submit_limit`: what for, the order and the reference it got, and the manager's
position and the book at the time. -/
structure Submission where
  purpose : Purpose
  code : UInt8
  price : UInt32
  shares : UInt32
  ts : UInt64
  ref : UInt64
  side : ℤ
  qty : UInt32
  book : Option OrderBook

/-- `class OrderManager`. -/
structure OrderManager (F : Type) where
  fe : FillEngine
  locate : UInt16
  cfg : OmConfig F
  cash : F
  side : ℤ
  qty : UInt32
  entryNotional : F
  entryShares : UInt32
  feesOpen : F
  exitNotional : F
  exitShares : UInt32
  entryBar : ℤ
  anchor : F
  lastPrint : UInt32
  entryRef : UInt64
  entryDir : ℤ
  exitRef : UInt64
  exitReason : Reason
  cfgStop : F
  cfgTp : F
  cfgTrail : F
  curBar : ℤ
  trades : List (TradeRecT F)
  fillsLog : List FillRec
  submissions : List Submission
  closed : List (UInt32 × UInt32)

namespace OrderManager

variable {F : Type} [FloatOps F]

/-- The constructor. -/
def new (fe : FillEngine) (locate : UInt16) (cfg : OmConfig F) : OrderManager F where
  fe := fe
  locate := locate
  cfg := cfg
  cash := cfg.equity0
  side := 0
  qty := 0
  entryNotional := zero
  entryShares := 0
  feesOpen := zero
  exitNotional := zero
  exitShares := 0
  entryBar := -1
  anchor := zero
  lastPrint := 0
  entryRef := 0
  entryDir := 0
  exitRef := 0
  exitReason := .signal
  cfgStop := zero
  cfgTp := zero
  cfgTrail := zero
  curBar := 0
  trades := []
  fillsLog := []
  submissions := []
  closed := []

/-- `side_ > 0 ? SIDE_SELL : SIDE_BUY`. -/
def exitCode (side : ℤ) : UInt8 := if 0 < side then sideSell else sideBuy

/-! ## Fills -/

/-- `close_round_trip`. -/
def closeRoundTrip (om : OrderManager F) (reason : Reason) : OrderManager F :=
  let tr : TradeRecT F :=
    { side := om.side
      entryT := om.entryBar
      exitT := om.curBar
      qty := ofUInt32 om.entryShares
      entryPx := if om.entryShares ≠ 0 then om.entryNotional / ofUInt32 om.entryShares else zero
      exitPx := if om.exitShares ≠ 0 then om.exitNotional / ofUInt32 om.exitShares else zero
      pnl := ofInt om.side * (om.exitNotional - om.entryNotional) - om.feesOpen
      reason }
  { om with
    trades := om.trades ++ [tr]
    side := 0
    qty := 0
    entryNotional := zero
    exitNotional := zero
    entryShares := 0
    exitShares := 0
    feesOpen := zero
    entryBar := -1
    anchor := zero
    closed := om.closed ++ [(om.entryShares, om.exitShares)] }

/-- The beginning of `apply_fill`: the fill is logged and its fee is charged. -/
def charge (om : OrderManager F) (f : FillRec) : OrderManager F :=
  let fee := ofUInt32 f.price * ofUInt32 f.shares * om.cfg.fee
  { om with
    fillsLog := om.fillsLog ++ [f]
    cash := om.cash - fee
    feesOpen := om.feesOpen + fee }

/-- The first entry fill opens the position. -/
def openPosition (om : OrderManager F) (f : FillRec) : OrderManager F :=
  if om.side = 0 then
    { om with side := om.entryDir, entryBar := om.curBar, anchor := ofUInt32 f.price }
  else om

/-- `if (fe_.find(entry_ref_) == nullptr) entry_ref_ = 0`. -/
def forgetEntry (om : OrderManager F) : OrderManager F :=
  if (om.fe.find om.entryRef).isNone then { om with entryRef := 0 } else om

/-- The branch of `apply_fill` for a fill of the entry order. -/
def entryFill (om : OrderManager F) (f : FillRec) : OrderManager F :=
  let notional := ofUInt32 f.price * ofUInt32 f.shares
  let om := om.openPosition f
  forgetEntry
    { om with
      qty := om.qty + f.shares
      entryShares := om.entryShares + f.shares
      entryNotional := om.entryNotional + notional
      cash := om.cash - ofInt om.side * notional }

/-- The end of the branch for a fill of the exit order: the round trip is closed when nothing is
left, and an exit order that is exhausted is forgotten. -/
def settleExit (om : OrderManager F) : OrderManager F :=
  if om.qty = 0 then
    let om := if (om.fe.find om.exitRef).isSome then { om with fe := (om.fe.cancel om.exitRef).2 }
      else om
    closeRoundTrip { om with exitRef := 0 } om.exitReason
  else if (om.fe.find om.exitRef).isNone then { om with exitRef := 0 }
  else om

/-- The branch of `apply_fill` for a fill of the exit order. -/
def exitFill (om : OrderManager F) (f : FillRec) : OrderManager F :=
  let sh := if f.shares ≤ om.qty then f.shares else om.qty
  settleExit
    { om with
      qty := om.qty - sh
      exitShares := om.exitShares + sh
      exitNotional := om.exitNotional + ofUInt32 f.price * ofUInt32 sh
      cash := om.cash + ofInt om.side * ofUInt32 f.price * ofUInt32 sh }

/-- `apply_fill`. -/
def applyFill (om : OrderManager F) (f : FillRec) : OrderManager F :=
  let om := om.charge f
  if f.ourRef = om.entryRef then om.entryFill f
  else if f.ourRef = om.exitRef then om.exitFill f
  else om

/-- `poll_fills`. -/
def pollFills (om : OrderManager F) : OrderManager F :=
  let (fills, fe) := om.fe.takeFills
  fills.foldl applyFill { om with fe }

/-! ## Orders -/

/-- `cancel_working_entry`. -/
def cancelWorkingEntry (om : OrderManager F) : OrderManager F :=
  if om.entryRef = 0 then om
  else { om with fe := (om.fe.cancel om.entryRef).2, entryRef := 0 }

section Book

variable {T : Type}

/-- `submit_limit` on the fill engine: the reference, and the manager with its note of it. -/
def submitLimit (om : OrderManager F) (eng : BookEngine T) (purpose : Purpose) (code : UInt8)
    (price shares : UInt32) (ts : UInt64) : UInt64 × OrderManager F :=
  let (ref, fe) := om.fe.submitLimit eng code price shares ts
  let note : Submission :=
    { purpose, code, price, shares, ts, ref
      side := om.side
      qty := om.qty
      book := eng.books om.fe.locate }
  (ref, { om with fe, submissions := om.submissions ++ [note] })

/-- `entry_price`. -/
def entryPrice (om : OrderManager F) (eng : BookEngine T) (dir : ℤ) : UInt32 :=
  match eng.books om.locate with
  | none => 0
  | some b =>
    if om.cfg.entryCross then
      if 0 < dir then
        if b.bestAsk ≠ 0 then b.bestAsk + om.cfg.crossTicks else 0
      else if b.bestBid > om.cfg.crossTicks then b.bestBid - om.cfg.crossTicks else 0
    else if 0 < dir then b.bestBid
    else b.bestAsk

/-- `exit_price`. -/
def exitPrice (om : OrderManager F) (eng : BookEngine T) : UInt32 :=
  match eng.books om.locate with
  | none => 0
  | some b =>
    if 0 < om.side then
      if b.bestBid > om.cfg.crossTicks then b.bestBid - om.cfg.crossTicks else 0
    else if b.bestAsk ≠ 0 then b.bestAsk + om.cfg.crossTicks
    else 0

/-- `dir > 0 ? SIDE_BUY : SIDE_SELL`. -/
def entryCode (dir : ℤ) : UInt8 := if 0 < dir then sideBuy else sideSell

/-- Submits the entry order and polls the fills, since it may cross and fill at once. -/
def workEntry (om : OrderManager F) (eng : BookEngine T) (purpose : Purpose) (price shares : UInt32)
    (ts : UInt64) : OrderManager F :=
  let (ref, om) := om.submitLimit eng purpose (entryCode om.entryDir) price shares ts
  (pollFills { om with entryRef := ref }).forgetEntry

/-- Submits an exit order for the whole position and polls the fills. -/
def workExit (om : OrderManager F) (eng : BookEngine T) (price : UInt32) (ts : UInt64) :
    OrderManager F :=
  let (ref, om) := om.submitLimit eng .exit (exitCode om.side) price om.qty ts
  pollFills { om with exitRef := ref }

/-- The shares of a new entry, `floor(equity * size / px)`; the manager is flat, so its equity is
its cash. -/
def entrySize (om : OrderManager F) (sizeFrac : F) (px : UInt32) : UInt32 :=
  toUInt32 (floor (om.cash * sizeFrac / ofUInt32 px))

/-- `submit_entry`. -/
def submitEntry (om : OrderManager F) (eng : BookEngine T) (dir : ℤ) (sizeFrac : F)
    (ts : UInt64) : OrderManager F :=
  let px := om.entryPrice eng dir
  if px = 0 then om
  else
    let shares := om.entrySize sizeFrac px
    if shares = 0 then om
    else workEntry { om with entryDir := dir } eng .entry px shares ts

/-- `submit_exit`. -/
def submitExit (om : OrderManager F) (eng : BookEngine T) (reason : Reason) (ts : UInt64) :
    OrderManager F :=
  if om.side = 0 ∨ om.qty = 0 then om
  else
    let px := om.exitPrice eng
    if px = 0 then om
    else workExit { om with exitReason := reason } eng px ts

/-! ## Trade prints -/

/-- `entry_shares_ ? entry_notional_ / (float)entry_shares_ : 0.0f`. -/
def entryVwap (om : OrderManager F) : F :=
  if om.entryShares ≠ 0 then om.entryNotional / ofUInt32 om.entryShares else zero

/-- The trail anchor: the peak of a long position, the trough of a short one. -/
def moveAnchor (om : OrderManager F) (px : F) : OrderManager F :=
  if 0 < om.side then if lt om.anchor px then { om with anchor := px } else om
  else if lt px om.anchor then { om with anchor := px } else om

/-- The protective exit that a print at `px` sets off. -/
def protective (om : OrderManager F) (px : F) : Option Reason :=
  if 0 < om.side then
    if lt zero om.cfgStop && le px (om.entryVwap * (one - om.cfgStop)) then some .stop
    else if lt zero om.cfgTrail && le px (om.anchor * (one - om.cfgTrail)) then some .trail
    else if lt zero om.cfgTp && le (om.entryVwap * (one + om.cfgTp)) px then some .tp
    else none
  else
    if lt zero om.cfgStop && le (om.entryVwap * (one + om.cfgStop)) px then some .stop
    else if lt zero om.cfgTrail && le (om.anchor * (one + om.cfgTrail)) px then some .trail
    else if lt zero om.cfgTp && le px (om.entryVwap * (one - om.cfgTp)) then some .tp
    else none

/-- `on_trade_print`. -/
def onTradePrint (om : OrderManager F) (eng : BookEngine T) (price : UInt32) (ts : UInt64) :
    OrderManager F :=
  let om := { om with lastPrint := price }
  if om.side = 0 ∨ om.exitRef ≠ 0 then om
  else
    let px := ofUInt32 price
    let om := om.moveAnchor px
    match om.protective px with
    | none => om
    | some reason => om.cancelWorkingEntry.submitExit eng reason ts

/-! ## Bars -/

/-- An exit signal: the working entry is cancelled, and an exit is submitted if none works. -/
def exitOnSignal (om : OrderManager F) (eng : BookEngine T) (ts : UInt64) : OrderManager F :=
  let om := om.cancelWorkingEntry
  if om.exitRef = 0 then om.submitExit eng .signal ts else om

/-- A new entry is submitted if none works. -/
def enterIfFree (om : OrderManager F) (eng : BookEngine T) (dir : ℤ) (sizeFrac : F)
    (ts : UInt64) : OrderManager F :=
  if om.entryRef = 0 then
    submitEntry { om with entryDir := dir } eng dir sizeFrac ts
  else om

/-- An entry signal: a working entry the other way (`flip`) is cancelled first. -/
def enterOnSignal (om : OrderManager F) (eng : BookEngine T) (dir : ℤ) (flip : Bool)
    (sizeFrac : F) (ts : UInt64) : OrderManager F :=
  (if flip then om.cancelWorkingEntry else om).enterIfFree eng dir sizeFrac ts

/-- The signal block of `on_bar`. -/
def arbitrate (om : OrderManager F) (eng : BookEngine T) (sig : Signals F) (ts : UInt64) :
    OrderManager F :=
  if 0 < om.side ∧ sig.xl = true then om.exitOnSignal eng ts
  else if om.side < 0 ∧ sig.xs = true then om.exitOnSignal eng ts
  else if om.side = 0 ∧ om.exitRef = 0 then
    if sig.el = true ∧ sig.es = false then
      om.enterOnSignal eng 1 (decide (om.entryDir < 0)) sig.size ts
    else if sig.es = true ∧ sig.el = false then
      om.enterOnSignal eng (-1) (decide (0 < om.entryDir)) sig.size ts
    else om
  else om

/-- The re-peg of `on_bar`: a passive entry that is no longer at the touch goes there. -/
def repeg (om : OrderManager F) (eng : BookEngine T) (ts : UInt64) : OrderManager F :=
  if om.entryRef ≠ 0 ∧ om.cfg.entryCross = false then
    match om.fe.find om.entryRef with
    | none => { om with entryRef := 0 }
    | some o =>
      let best := om.entryPrice eng om.entryDir
      if best ≠ 0 ∧ best ≠ o.price then
        workEntry { om with fe := (om.fe.cancel om.entryRef).2 } eng (.repeg o) best o.remaining ts
      else om
  else om

/-- The first part of `on_bar`: the stops are latched, and the signals acted on. -/
def onSignals (om : OrderManager F) (eng : BookEngine T) (sig : Signals F) (ts : UInt64) :
    OrderManager F :=
  arbitrate { om with cfgStop := sig.stop, cfgTp := sig.tp, cfgTrail := sig.trail } eng sig ts

/-- The second part: the re-peg; fills from here on belong to the next bar. -/
def endBar (om : OrderManager F) (eng : BookEngine T) (t : ℤ) (ts : UInt64) : OrderManager F :=
  { om.repeg eng ts with curBar := t + 1 }

/-- `on_bar`. -/
def onBar (om : OrderManager F) (eng : BookEngine T) (t : ℤ) (sig : Signals F) (ts : UInt64) :
    OrderManager F :=
  (om.onSignals eng sig ts).endBar eng t ts

end Book

/-! ## The end of the stream -/

/-- A working exit order is cancelled. -/
def cancelWorkingExit (om : OrderManager F) : OrderManager F :=
  if om.exitRef ≠ 0 ∧ (om.fe.find om.exitRef).isSome then
    { om with fe := (om.fe.cancel om.exitRef).2, exitRef := 0 }
  else om

/-- The price a position is closed at when the stream ends. -/
def mark (om : OrderManager F) : UInt32 :=
  if om.lastPrint ≠ 0 then om.lastPrint
  else toUInt32 (om.entryNotional / ofUInt32 om.entryShares)

/-- The synthetic fill of `finish`: all that is held, at the mark and with a taker's fee. -/
def markOut (om : OrderManager F) (ts : UInt64) : OrderManager F :=
  let f : FillRec := ⟨ts, 0, exitCode om.side, om.mark, om.qty, false⟩
  let notional : F := ofUInt32 om.mark * ofUInt32 om.qty
  let fee := notional * om.cfg.fee
  { om with
    fillsLog := om.fillsLog ++ [f]
    cash := om.cash + ofInt om.side * notional - fee
    feesOpen := om.feesOpen + fee
    exitShares := om.exitShares + om.qty
    exitNotional := om.exitNotional + notional
    qty := 0 }

/-- The forced close of `finish`. -/
def forceClose (om : OrderManager F) (ts : UInt64) : OrderManager F :=
  if om.side ≠ 0 ∧ om.qty > 0 then (om.markOut ts).closeRoundTrip .eod else om

/-- `finish`. -/
def finish (om : OrderManager F) (ts : UInt64) : OrderManager F :=
  om.cancelWorkingEntry.cancelWorkingExit.forceClose ts

end OrderManager

end ItchOrderbook
