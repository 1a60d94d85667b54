import ItchOrderbook.Rtl.BookUpdateEngine

/-!
# Statistics (`rtl/stats_engine.sv`), and the book with its statistics

The product of a trade is registered before it is accumulated, so a trade event reaches the sums
two cycles after the engine has raised it. `imbalance_q16` and `msg_rate` are left out.
-/

namespace ItchOrderbook.Rtl

/-- The registers of the statistics. -/
structure StatsEngineState where
  tvQ : Bool := false
  prodQ : UInt64 := 0
  shQ : UInt64 := 0
  vwapNum : UInt64 := 0
  vwapDen : UInt64 := 0
  tradeCount : UInt64 := 0
  deriving DecidableEq, Repr

namespace StatsEngineState

/-- `rst`. The product and the shares staged are not reset. -/
def reset (s : StatsEngineState) : StatsEngineState :=
  { s with tvQ := false, vwapNum := 0, vwapDen := 0, tradeCount := 0 }

/-- One clock edge without `rst`. -/
def step (s : StatsEngineState) (tradeValid : Bool) (tradePrice tradeShares : UInt32) :
    StatsEngineState :=
  let n :=
    { s with
      tvQ := tradeValid
      prodQ := tradePrice.toUInt64 * tradeShares.toUInt64
      shQ := tradeShares.toUInt64 }
  if s.tvQ then
    { n with
      vwapNum := s.vwapNum + s.prodQ, vwapDen := s.vwapDen + s.shQ
      tradeCount := s.tradeCount + 1 }
  else n

end StatsEngineState

/-- The engine and the statistics it feeds, as wired in `rtl/orderbook_top.sv`. -/
structure BookState (c : Build) where
  engine : BookUpdateEngineState c := {}
  stats : StatsEngineState := {}

namespace BookState

variable {c : Build}

/-- One clock edge. -/
def step (s : BookState c) (i : EngineIn) : BookState c where
  engine := s.engine.step i
  stats :=
    if i.rst then s.stats.reset
    else s.stats.step s.engine.tradeValid s.engine.tradePrice s.engine.tradeShares

/-- `rst` for one cycle. -/
def reset (s : BookState c) : BookState c := ⟨s.engine.reset, s.stats.reset⟩

/-- `spread_valid`. -/
def spreadValid (s : BookState c) : Bool := s.engine.bestValid true && s.engine.bestValid false

/-- `spread`. -/
def spread (s : BookState c) : UInt32 :=
  if s.spreadValid then s.engine.bestPrice false - s.engine.bestPrice true else 0

end BookState

end ItchOrderbook.Rtl
