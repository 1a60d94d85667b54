import ItchOrderbook.Book.BookEngine

/-!
# The running statistics (`class StatsEngine`, `sw/stats/stats_engine.{hpp,cpp}`)

Fed one message at a time with the trade information the book engine resolved for it. What is
computed from the sums on demand (`vwap_units`, the message rates, `imbalance`) is left out.
-/

namespace ItchOrderbook

/-- `class StatsEngine`. -/
structure StatsEngine where
  vwapNum : UInt64 := 0
  vwapDen : UInt64 := 0
  tradeCount : UInt64 := 0
  totalMessages : UInt64 := 0
  firstTs : UInt64 := 0
  lastTs : UInt64 := 0
  window : List UInt64 := []
  deriving DecidableEq, Repr

namespace StatsEngine

/-- `ONE_SEC_NS`. -/
def oneSecNs : UInt64 := 1000000000

/-- The message-rate window, in event time: the timestamps of the last second. -/
def onTimestamp (s : StatsEngine) (ts : UInt64) : StatsEngine :=
  if ts ≠ 0 then
    { s with
      firstTs := if s.firstTs = 0 then ts else s.firstTs
      lastTs := ts
      window := (s.window ++ [ts]).dropWhile fun front => front + oneSecNs ≤ ts }
  else s

/-- VWAP and trade count from a resolved trade print. -/
def onTrade (s : StatsEngine) (ex : ExecResult) : StatsEngine :=
  if ex.contributes ∧ ex.shares > 0 then
    { s with
      vwapNum := s.vwapNum + ex.price.toUInt64 * ex.shares.toUInt64
      vwapDen := s.vwapDen + ex.shares.toUInt64
      tradeCount := s.tradeCount + 1 }
  else s

/-- `on_message`. -/
def onMessage (s : StatsEngine) (m : DecodedMessage) (ex : ExecResult) : StatsEngine :=
  ({ s with totalMessages := s.totalMessages + 1 }.onTimestamp m.timestamp).onTrade ex

section Access

variable (s : StatsEngine)

@[simp] theorem vwapNum_onTimestamp (ts : UInt64) : (s.onTimestamp ts).vwapNum = s.vwapNum := by
  unfold onTimestamp
  split <;> rfl

@[simp] theorem vwapDen_onTimestamp (ts : UInt64) : (s.onTimestamp ts).vwapDen = s.vwapDen := by
  unfold onTimestamp
  split <;> rfl

@[simp] theorem tradeCount_onTimestamp (ts : UInt64) :
    (s.onTimestamp ts).tradeCount = s.tradeCount := by
  unfold onTimestamp
  split <;> rfl

end Access

end StatsEngine

end ItchOrderbook
