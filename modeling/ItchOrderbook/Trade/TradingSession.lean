import ItchOrderbook.Book.OrderRefTable
import ItchOrderbook.Parser.ItchParser
import ItchOrderbook.Trade.OrderManager

/-!
# One trading session (`run_session`, `sw/trade/session.hpp`)

The loop over a raw ITCH stream that drives the engines, the bar builder, the strategy VM and the
order manager, and what it reports. An engine call may not return (`Option`), and a step of the VM
may access an array out of range (`Except Fault`).
-/

namespace ItchOrderbook

open FloatOps

/-- `struct SessionConfig`. -/
structure SessionConfig (F : Type) where
  locate : UInt16
  barNs : UInt64
  om : OmConfig F
  params : List F

/-- What `SessionConfig sc;` starts from. -/
def SessionConfig.initial {F : Type} [FloatOps F] : SessionConfig F where
  locate := 1
  barNs := 1000000000
  om := .initial
  params := []

/-- `struct SessionResult`. -/
structure SessionResult (F : Type) where
  bars : BarSeries F
  equity : List F
  trades : List (TradeRecT F)
  fills : List FillRec
  finalEquity : F
  totalReturn : F
  maxDd : F
  makerFills : Int32
  takerFills : Int32
  wins : Int32
  messages : UInt64
  malformedMessages : UInt64
  truncatedStream : Bool
  bookCounters : Counters

/-- Why a session has no result: what its constructors throw, or an access out of range. -/
inductive SessionError where
  | invalidArgument (what : String)
  | runtimeError (what : String)
  | fault (f : Fault)
  deriving DecidableEq, Repr

/-- `bars.c[t]`. -/
def BarSeries.closeAt {F : Type} (bars : BarSeries F) (t : ℕ) : Except Fault F :=
  match bars.c[t]? with
  | some c => return c
  | none => throw .bar

namespace OrderManager

variable {F : Type} [FloatOps F]

/-- `equity`. -/
def equity (om : OrderManager F) (markPx : F) : F :=
  om.cash + ofInt om.side * ofUInt32 om.qty * markPx

/-- `ctx`. -/
def ctx (om : OrderManager F) (bars : BarSeries F) (t : ℕ) : Except Fault (VmCtx F) := do
  let close ← bars.closeAt t
  return {
    position := ofInt om.side
    entryPx :=
      if om.side ≠ 0 ∧ om.entryShares ≠ 0 then om.entryNotional / ofUInt32 om.entryShares else zero
    equity := om.equity close }

end OrderManager

/-- The locals of `run_session`. `next_bar` is an `int` that is only incremented below another, so
it is neither negative nor past the largest (`TradingSession.Follows`). -/
structure TradingSession (F : Type) where
  eng : BookEngine OrderRefTable
  om : OrderManager F
  bb : BarBuilder F
  vm : StrategyVM F
  nextBar : ℕ
  lastTs : UInt64
  equity : List F
  messages : UInt64
  malformedMessages : UInt64

namespace TradingSession

variable {F : Type} [FloatMath F]

/-- What the locals start from. -/
def new (sc : SessionConfig F) (refs : OrderRefTable) (vm : StrategyVM F) : TradingSession F where
  eng := .new 1000000 refs
  om := .new { locate := sc.locate } sc.locate sc.om
  bb := .new sc.barNs
  vm := vm
  nextBar := 0
  lastTs := 0
  equity := []
  messages := 0
  malformedMessages := 0

/-! ## Bars -/

/-- The body of the loop of `process_bars`. -/
def barStep (s : TradingSession F) (ts : UInt64) : Except Fault (TradingSession F) := do
  let bars := s.bb.bars
  let ctx ← s.om.ctx bars s.nextBar
  let (sig, vm) ← s.vm.step bars s.nextBar ctx
  let om := s.om.onBar s.eng s.nextBar sig ts
  let close ← bars.closeAt s.nextBar
  return { s with om, vm, equity := s.equity ++ [om.equity close], nextBar := s.nextBar + 1 }

/-- The loop, with `n` bars to go. -/
def barSteps : ℕ → TradingSession F → UInt64 → Except Fault (TradingSession F)
  | 0, s, _ => return s
  | n + 1, s, ts => do barSteps n (← s.barStep ts) ts

/-- `process_bars`. Its loop goes up to `bars.size()`, which is negative from `2 ^ 31` bars on. -/
def processBars (s : TradingSession F) (ts : UInt64) : Except Fault (TradingSession F) :=
  barSteps (s.bb.bars.sizeInt.toInt - s.nextBar).toNat s ts

/-! ## Messages -/

/-- What follows a message that was applied: a trade print of the locate drives the exits and the
bar clock. -/
def onExec (s : TradingSession F) (locate : UInt16) (er : ExecResult) (ts : UInt64) :
    Except Fault (TradingSession F) :=
  if er.contributes = true ∧ er.locate = locate then
    let om := s.om.onTradePrint s.eng er.price ts
    let (completed, bb) := s.bb.onTrade ts er.price er.shares
    let s := { s with om, bb }
    if 0 < completed then s.processBars ts else return s
  else return s

/-- The body of the loop of `run_session`, behind the decoder. -/
def take (locate : UInt16) (s : TradingSession F) (m : DecodedMessage) :
    Option (Except Fault (TradingSession F)) :=
  let s := { s with messages := s.messages + 1 }
  if m.type = .unknown then
    some (.ok { s with malformedMessages := s.malformedMessages + 1 })
  else
    (s.eng.apply m).map fun ((eng, _), er) =>
      let om := { s.om with fe := s.om.fe.onMarketMessage s.eng m }
      onExec { s with lastTs := m.timestamp, eng, om := om.pollFills } locate er m.timestamp

/-- The loop, where `data` is what is left of the stream. It returns what it did not consume. -/
def loop (locate : UInt16) (data : List UInt8) (s : TradingSession F) :
    Option (Except Fault (List UInt8 × TradingSession F)) :=
  if 2 ≤ data.length then
    let blen := (be16 data).toNat
    if data.length < 2 + blen then some (.ok (data, s))
    else
      match s.take locate (decodeBody (data.drop 2) blen) with
      | none => none
      | some (.error f) => some (.error f)
      | some (.ok s) => loop locate (data.drop (2 + blen)) s
  else some (.ok (data, s))
termination_by data.length
decreasing_by simp only [List.length_drop]; omega

/-- The open bar is flushed at the end of the stream. -/
def flushBars (s : TradingSession F) : Except Fault (TradingSession F) :=
  let (completed, bb) := s.bb.flush
  let s := { s with bb }
  if 0 < completed then s.processBars s.lastTs else return s

/-- From the end of the stream on: the last bar, and the position is closed. -/
def close (s : TradingSession F) : Except Fault (TradingSession F) := do
  let s ← s.flushBars
  return { s with om := s.om.finish s.lastTs }

/-! ## The report -/

/-- The body of the loop over the equity, on the peak and the largest drawdown so far. -/
def drawdown (p : F × F) (e : F) : F × F :=
  let peak := if lt p.1 e then e else p.1
  if lt zero peak then
    let dd := (peak - e) / peak
    (peak, if lt p.2 dd then dd else p.2)
  else (peak, p.2)

/-- A count in an `int` of what a loop over a list finds. -/
def countInt {α : Type} (p : α → Bool) (xs : List α) : Int32 :=
  xs.foldl (fun n x => if p x then n + 1 else n) 0

/-- What `run_session` returns. -/
def result (s : TradingSession F) (sc : SessionConfig F) (truncatedStream : Bool) :
    SessionResult F where
  bars := s.bb.bars
  equity := s.equity
  trades := s.om.trades
  fills := s.om.fillsLog
  finalEquity := s.om.cash
  totalReturn := if !eq sc.om.equity0 zero then s.om.cash / sc.om.equity0 - one else zero
  maxDd := (s.equity.foldl drawdown (zero, zero)).2
  makerFills := countInt (·.maker) s.om.fillsLog
  takerFills := countInt (!·.maker) s.om.fillsLog
  wins := countInt (fun t => lt zero t.pnl) s.om.trades
  messages := s.messages
  malformedMessages := s.malformedMessages
  truncatedStream := truncatedStream
  bookCounters := s.eng.ctr

end TradingSession

variable {F : Type} [FloatMath F]

/-- `run_session` up to its report: what is left of the stream, and the locals. It is `none` when an
engine call does not return. -/
def runToEnd (data : List UInt8) (prog : Program) (sc : SessionConfig F) :
    Option (Except SessionError (List UInt8 × TradingSession F)) :=
  if sc.barNs = 0 then some (.error (.invalidArgument "bar_ns must be positive"))
  else
    match OrderRefTable.new ((1 : UInt32) <<< 20), StrategyVM.new prog sc.params with
    | none, _ => none
    | some _, .error what => some (.error (.runtimeError what))
    | some refs, .ok vm =>
      (TradingSession.loop sc.locate data (.new sc refs vm)).map fun ended => do
        let (rest, s) ← ended.mapError SessionError.fault
        let s ← s.close.mapError SessionError.fault
        return (rest, s)

/-- `run_session`. -/
def runSession (data : List UInt8) (prog : Program) (sc : SessionConfig F) :
    Option (Except SessionError (SessionResult F)) :=
  (runToEnd data prog sc).map (Except.map fun (rest, s) =>
    s.result sc (decide (rest.length ≠ 0)))

/-! ## `main` of `sw/trade/trade_main.cpp` -/

/-- Whether `main` suppresses the results, as not to be trusted. -/
def SessionResult.incomplete (r : SessionResult F) : Bool :=
  r.malformedMessages != 0 || r.truncatedStream || r.bookCounters.invalid != 0 ||
    r.bookCounters.duplicateRef != 0 || r.bookCounters.missingRef != 0 ||
    r.bookCounters.refInsertFail != 0 || r.bookCounters.resyncRequired != 0

end ItchOrderbook
