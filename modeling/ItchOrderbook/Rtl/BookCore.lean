import ItchOrderbook.Rtl.BookUpdateEngine
import ItchOrderbook.Rtl.OrderRefTableSpec

/-!
# What a message does to the hardware book

`BookCore.apply` says in one step what the engine takes many cycles to do: the commands it gives
the table, the level it writes, and the best it has after its tracker has come to rest. The state
is what lasts from one message to the next, with the statistics as they will be once every trade
event has passed through the pipeline of the statistics engine.
-/

namespace ItchOrderbook.Rtl

/-- The sums of `stats_engine`. -/
structure TradeSums where
  vwapNum : UInt64 := 0
  vwapDen : UInt64 := 0
  tradeCount : UInt64 := 0
  deriving DecidableEq

/-- A trade accumulated. -/
def TradeSums.add (t : TradeSums) (prod shares : UInt64) : TradeSums where
  vwapNum := t.vwapNum + prod
  vwapDen := t.vwapDen + shares
  tradeCount := t.tradeCount + 1

/-- The trade of a price and a size accumulated. -/
def TradeSums.trade (t : TradeSums) (price shares : UInt32) : TradeSums :=
  t.add (price.toUInt64 * shares.toUInt64) shares.toUInt64

/-! ## One side -/

/-- One side of the book: its levels, its counters and its best level. -/
structure SideCore (c : Build) where
  sharesMem : BitVec c.levelAw → UInt32 := fun _ => 0
  countMem : BitVec c.levelAw → UInt32 := fun _ => 0
  cnt : UInt32 := 0
  totVol : UInt64 := 0
  best : Option (BitVec c.levelAw) := none

/-- The level a scan ends at, from `a` on. -/
def scan {c : Build} (isBid : Bool) (mem : BitVec c.levelAw → UInt32) :
    ℕ → BitVec c.levelAw → Option (BitVec c.levelAw)
  | 0, _ => none
  | fuel + 1, a =>
    if mem a ≠ 0 then some a
    else if a = BestTrackerState.boundary c isBid then none
    else scan isBid mem fuel (BestTrackerState.inward isBid a)

namespace SideCore

variable {c : Build}

/-- The best level once an order has come to `addr`. -/
def raise (s : SideCore c) (isBid : Bool) (addr : BitVec c.levelAw) : Option (BitVec c.levelAw) :=
  match s.best with
  | none => some addr
  | some b => if BestTrackerState.better isBid addr b then some addr else some b

/-- An order comes to a level. -/
def add (s : SideCore c) (isBid : Bool) (addr : BitVec c.levelAw) (shares : UInt32) :
    SideCore c where
  sharesMem := Function.update s.sharesMem addr (s.sharesMem addr + shares)
  countMem := Function.update s.countMem addr (s.countMem addr + 1)
  cnt := s.cnt + 1
  totVol := s.totVol + shares.toUInt64
  best := s.raise isBid addr

/-- An order loses `amt` shares of a level, and with `gone` leaves it. -/
def take (s : SideCore c) (addr : BitVec c.levelAw) (amt : UInt32) (gone : Bool) : SideCore c :=
  { s with
    sharesMem := Function.update s.sharesMem addr (s.sharesMem addr - amt)
    countMem := if gone then Function.update s.countMem addr (s.countMem addr - 1) else s.countMem
    cnt := if gone then s.cnt - 1 else s.cnt
    totVol := s.totVol - amt.toUInt64 }

/-- The best level once the level at `addr` has lost its shares. -/
def vacate (s : SideCore c) (isBid : Bool) (addr : BitVec c.levelAw) : SideCore c :=
  if s.best = some addr then
    { s with
      best := if s.cnt = 0 then none
        else scan isBid s.sharesMem c.priceLevels (BestTrackerState.inward isBid addr) }
  else s

/-- The tracker told, when a level has lost its shares. -/
def settle (s : SideCore c) (isBid : Bool) (addr : BitVec c.levelAw) : SideCore c :=
  if s.sharesMem addr = 0 then s.vacate isBid addr else s

end SideCore

/-! ## The book -/

/-- The book between messages. -/
structure BookCore (c : Build) where
  table : TableCore c := {}
  bid : SideCore c := {}
  ask : SideCore c := {}
  bandValid : Bool := false
  bandBase : UInt32 := 0
  bandDrops : UInt32 := 0
  sums : TradeSums := {}

namespace BookCore

variable {c : Build}

/-- The bid side or the ask side. -/
def side (k : BookCore c) (isBid : Bool) : SideCore c := if isBid then k.bid else k.ask

/-- One side replaced. -/
def setSide (k : BookCore c) (isBid : Bool) (side : SideCore c) : BookCore c :=
  if isBid then { k with bid := side } else { k with ask := side }

/-- The level of a price. -/
def addr (k : BookCore c) (price : UInt32) : BitVec c.levelAw := levelAddr c (price - k.bandBase)

/-- A price outside the band. -/
def drop (k : BookCore c) : BookCore c := { k with bandDrops := k.bandDrops + 1 }

/-- An order arrives: its INSERT, and the level when the table says it was found a slot. -/
def arrive (k : BookCore c) (q : TblCmd) : BookCore c :=
  let k := { k with table := k.table.exec q }
  if k.table.resFound then
    k.setSide q.isBid ((k.side q.isBid).add q.isBid (k.addr q.price) q.shares)
  else k

/-- The band base an Add will see. -/
def baseEff (k : BookCore c) (price : UInt32) : UInt32 :=
  if k.bandValid ∨ !c.bandAutoInit then k.bandBase
  else if price > bandHalf c then price - bandHalf c else 0

/-- The INSERT of an Add. -/
def addCmd (d : Decoded) : TblCmd :=
  ⟨.insert, true, d.orderRef, d.price, d.shares, d.isBid, d.stockLocate⟩

/-- An Add. -/
def add (k : BookCore c) (d : Decoded) : BookCore c :=
  let base := k.baseEff d.price
  if inWindow c (d.price - base) then
    { k with bandBase := base, bandValid := true }.arrive (addCmd d)
  else k.drop

/-- A LOOKUP. -/
def lookup (k : BookCore c) (ref : UInt64) : BookCore c :=
  { k with table := k.table.exec { op := .lookup, ref } }

/-- The amount a message takes from a resting order. -/
def modAmt (d : Decoded) (rem : UInt32) : UInt32 :=
  if d.mtype = tDelete ∨ d.mtype = tReplace then rem else BookUpdateEngineState.minU d.shares rem

/-- The trade event of a message. -/
def print (k : BookCore c) (d : Decoded) (amt : UInt32) : BookCore c :=
  if d.mtype = tExec then { k with sums := k.sums.trade k.table.resPrice amt }
  else if d.mtype = tExecPr ∧ d.printable then { k with sums := k.sums.trade d.price amt }
  else k

/-- The command that gives the table what is left of an order. -/
def restCmd (t : TableCore c) (ref : UInt64) (left : UInt32) : TblCmd :=
  if left = 0 then { op := .delete, ref }
  else ⟨.insert, false, ref, t.resPrice, left, t.resIsBid, t.resLocate⟩

/-- A resting order, as the LOOKUP has returned it, loses `amt` shares. -/
def reduce (k : BookCore c) (ref : UInt64) (amt : UInt32) : BookCore c :=
  let isBid := k.table.resIsBid
  let a := k.addr k.table.resPrice
  let left := k.table.resShares - amt
  { k.setSide isBid (((k.side isBid).take a amt (left == 0)).settle isBid a) with
    table := k.table.exec (restCmd k.table ref left) }

/-- The INSERT of a Replace, for the side and the locate of the order it replaces. -/
def replaceCmd (d : Decoded) (isBid : Bool) (locate : UInt16) : TblCmd :=
  ⟨.insert, true, d.newOrderRef, d.price, d.shares, isBid, locate⟩

/-- The second half of a Replace. -/
def readd (k : BookCore c) (d : Decoded) (isBid : Bool) (locate : UInt16) : BookCore c :=
  if inWindow c (d.price - k.bandBase) then k.arrive (replaceCmd d isBid locate) else k.drop

/-- A message about a resting order. -/
def modify (k : BookCore c) (d : Decoded) : BookCore c :=
  let k := k.lookup d.orderRef
  if k.table.resFound then
    let amt := modAmt d k.table.resShares
    let k' := (k.print d amt).reduce d.orderRef amt
    if d.mtype = tReplace then k'.readd d k.table.resIsBid k.table.resLocate else k'
  else k

/-- A decoded message. -/
def apply (k : BookCore c) (d : Decoded) : BookCore c :=
  if d.mtype = tAdd ∨ d.mtype = tAddMpid then k.add d
  else if d.mtype = tExec ∨ d.mtype = tExecPr ∨ d.mtype = tCancel ∨ d.mtype = tDelete
      ∨ d.mtype = tReplace then k.modify d
  else if d.mtype = tTrade then { k with sums := k.sums.trade d.price d.shares }
  else k

end BookCore

end ItchOrderbook.Rtl
