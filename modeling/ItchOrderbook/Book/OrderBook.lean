import ItchOrderbook.Parser.ItchMessages
import Mathlib.Logic.Function.Basic
import Mathlib.Order.Bounds.Basic
import Mathlib.Data.UInt

/-!
# The direct-indexed order book (`class OrderBook`, `sw/book/order_book.hpp`)

Each side is an array of price levels indexed by price, here a function of the price; the
guards `price == 0 || price > max_price_` keep every access inside the array. Best bid and
best ask are cached: an update moves them directly, and only emptying the current best level
rescans, with the scalar loop.
-/

namespace ItchOrderbook

/-- `struct PriceLevel`. -/
structure PriceLevel where
  totalShares : UInt32 := 0
  orderCount : UInt32 := 0
  deriving DecidableEq, Repr

/-- Subtract shares from a level and, when the order left it, one order. -/
def PriceLevel.take (level : PriceLevel) (shares : UInt32) (orderGone : Bool) : PriceLevel :=
  ⟨level.totalShares - shares,
   if orderGone then level.orderCount - 1 else level.orderCount⟩

/-- `class OrderBook`. -/
structure OrderBook where
  maxPrice : UInt32
  bid : UInt32 → PriceLevel
  ask : UInt32 → PriceLevel
  bestBid : UInt32 := 0
  bestAsk : UInt32 := 0
  scanCount : UInt64 := 0
  scanSteps : UInt64 := 0

namespace OrderBook

/-- The constructor: `price_levels` empty levels a side. -/
def new (priceLevels : UInt32) : OrderBook where
  maxPrice := if priceLevels > 0 then priceLevels - 1 else 0
  bid := fun _ => {}
  ask := fun _ => {}

/-! ## Queries -/

def bestBidDepth (b : OrderBook) : UInt32 :=
  if b.bestBid ≠ 0 then (b.bid b.bestBid).totalShares else 0

def bestAskDepth (b : OrderBook) : UInt32 :=
  if b.bestAsk ≠ 0 then (b.ask b.bestAsk).totalShares else 0

def bidSharesAt (b : OrderBook) (p : UInt32) : UInt32 :=
  if p ≤ b.maxPrice then (b.bid p).totalShares else 0

def askSharesAt (b : OrderBook) (p : UInt32) : UInt32 :=
  if p ≤ b.maxPrice then (b.ask p).totalShares else 0

/-- Ticks between the best prices; 0 when a side is empty or the book is crossed. -/
def spread (b : OrderBook) : UInt32 :=
  if b.bestBid ≠ 0 ∧ b.bestAsk ≠ 0 ∧ b.bestAsk > b.bestBid then b.bestAsk - b.bestBid else 0

/-- `side == SIDE_BUY ? bid_[price] : ask_[price]`. -/
def level (b : OrderBook) (side : UInt8) (price : UInt32) : PriceLevel :=
  if side = sideBuy then b.bid price else b.ask price

/-! ## The scalar best-price scans

Each returns the price found and the number of levels looked at. -/

/-- `for (; p >= 1; --p)`: the highest nonempty price at or below `p`, else 0. -/
def scanDownFrom (levels : UInt32 → PriceLevel) : ℕ → UInt32 × ℕ
  | 0 => (0, 0)
  | p + 1 =>
    if (levels (UInt32.ofNat (p + 1))).totalShares ≠ 0 then (UInt32.ofNat (p + 1), 1)
    else
      let (found, steps) := scanDownFrom levels p
      (found, steps + 1)

/-- `for (; p <= hi; ++p)` over the `n` prices from `p` on: the lowest nonempty one, else 0. -/
def scanUpFrom (levels : UInt32 → PriceLevel) : ℕ → ℕ → UInt32 × ℕ
  | _, 0 => (0, 0)
  | p, n + 1 =>
    if (levels (UInt32.ofNat p)).totalShares ≠ 0 then (UInt32.ofNat p, 1)
    else
      let (found, steps) := scanUpFrom levels (p + 1) n
      (found, steps + 1)

/-- `scan_down`: the new best bid, and the book with its scan counters advanced. -/
def scanDown (b : OrderBook) (start : UInt32) : UInt32 × OrderBook :=
  let start := if start = 0 ∨ start > b.maxPrice
    then (if start > b.maxPrice then b.maxPrice else 0) else start
  let (found, steps) := scanDownFrom b.bid start.toNat
  (found, { b with scanCount := b.scanCount + 1
                   scanSteps := b.scanSteps + UInt64.ofNat steps })

/-- `scan_up`: the new best ask, and the book with its scan counters advanced. -/
def scanUp (b : OrderBook) (start : UInt32) : UInt32 × OrderBook :=
  let start := if start = 0 then 1 else start
  let (found, steps) := scanUpFrom b.ask start.toNat (b.maxPrice.toNat + 1 - start.toNat)
  (found, { b with scanCount := b.scanCount + 1
                   scanSteps := b.scanSteps + UInt64.ofNat steps })

/-! ## Updates -/

def canAdd (b : OrderBook) (side : UInt8) (price shares : UInt32) : Bool :=
  if (side ≠ sideBuy ∧ side ≠ sideSell) ∨ price = 0 ∨ price > b.maxPrice ∨ shares = 0 then false
  else
    let level := b.level side price
    ((level.totalShares == 0) == (level.orderCount == 0))
      && decide (level.totalShares ≤ 0xFFFFFFFF - shares)
      && (level.orderCount != 0xFFFFFFFF)

def add (b : OrderBook) (side : UInt8) (price shares : UInt32) : Bool × OrderBook :=
  if !b.canAdd side price shares then (false, b)
  else if side = sideBuy then
    let level := b.bid price
    (true, { b with
      bid := Function.update b.bid price ⟨level.totalShares + shares, level.orderCount + 1⟩
      bestBid := if price > b.bestBid then price else b.bestBid })
  else
    let level := b.ask price
    (true, { b with
      ask := Function.update b.ask price ⟨level.totalShares + shares, level.orderCount + 1⟩
      bestAsk := if b.bestAsk = 0 ∨ price < b.bestAsk then price else b.bestAsk })

def canRemove (b : OrderBook) (side : UInt8) (price shares : UInt32) (orderGone : Bool) : Bool :=
  if (side ≠ sideBuy ∧ side ≠ sideSell) ∨ price = 0 ∨ price > b.maxPrice ∨ shares = 0 then false
  else
    let level := b.level side price
    if shares > level.totalShares ∨ (orderGone ∧ level.orderCount = 0) then false
    else
      let remainingShares := level.totalShares - shares
      let remainingOrders := level.orderCount - (if orderGone then 1 else 0)
      (remainingShares == 0) == (remainingOrders == 0)

def remove (b : OrderBook) (side : UInt8) (price shares : UInt32) (orderGone : Bool) :
    Bool × OrderBook :=
  if !b.canRemove side price shares orderGone then (false, b)
  else if side = sideBuy then
    let level := (b.bid price).take shares orderGone
    let b := { b with bid := Function.update b.bid price level }
    if level.totalShares = 0 ∧ price = b.bestBid then
      let (found, b) := b.scanDown (if price = 0 then 0 else price - 1)
      (true, { b with bestBid := found })
    else (true, b)
  else
    let level := (b.ask price).take shares orderGone
    let b := { b with ask := Function.update b.ask price level }
    if level.totalShares = 0 ∧ price = b.bestAsk then
      let (found, b) := b.scanUp (price + 1)
      (true, { b with bestAsk := found })
    else (true, b)

def canReplace (b : OrderBook) (side : UInt8) (oldPrice oldShares newPrice newShares : UInt32) :
    Bool :=
  if !b.canRemove side oldPrice oldShares true ∨ newPrice = 0 ∨ newPrice > b.maxPrice
      ∨ newShares = 0 then false
  else if oldPrice ≠ newPrice then b.canAdd side newPrice newShares
  else
    let level := b.level side oldPrice
    let afterRemove := level.totalShares - oldShares
    decide (afterRemove ≤ 0xFFFFFFFF - newShares)

def replace (b : OrderBook) (side : UInt8) (oldPrice oldShares newPrice newShares : UInt32) :
    Bool × OrderBook :=
  if !b.canReplace side oldPrice oldShares newPrice newShares then (false, b)
  else
    let (removed, b) := b.remove side oldPrice oldShares true
    let (added, b) := b.add side newPrice newShares
    (removed && added, b)

end OrderBook

end ItchOrderbook
