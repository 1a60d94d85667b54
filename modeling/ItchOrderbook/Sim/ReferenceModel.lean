import ItchOrderbook.Lib.BigEndian
import ItchOrderbook.Parser.ItchMessages
import Mathlib.Data.Finmap
import Std.Data.ExtTreeMap

/-!
# The simulation's reference model (`sim/reference_model.hpp`, `sim/reference_model.cpp`)

The golden model of the hardware testbench, written apart from the software: its own decoder
and its own order book over ordered maps.
-/

namespace ItchOrderbook.Sim

open BigEndian
open Std (ExtTreeMap)

/-! ## Decoder -/

/-- `struct RefMsg`. -/
structure RefMsg where
  type : UInt8 := 0
  isBid : Bool := false
  printable : Bool := false
  locate : UInt16 := 0
  price : UInt32 := 0
  shares : UInt32 := 0
  orderRef : UInt64 := 0
  newOrderRef : UInt64 := 0
  deriving DecidableEq, Repr

/-! The loads index the vector; an index outside it is undefined behaviour, here `none`. -/

def be16 (b : List UInt8) (k : ℕ) : Option UInt16 := do
  return word16 (← b[k]?) (← b[k + 1]?)

def be32 (b : List UInt8) (k : ℕ) : Option UInt32 := do
  return word32 (← b[k]?) (← b[k + 1]?) (← b[k + 2]?) (← b[k + 3]?)

def be64 (b : List UInt8) (k : ℕ) : Option UInt64 :=
  (List.range 8).foldlM (fun v (i : ℕ) => do return v <<< 8 ||| (← b[k + i]?).toUInt64) 0

/-- `obsim::decode_body`. -/
def decodeBody (b : List UInt8) : Option RefMsg :=
  match b with
  | [] => some {}
  | type :: _ => do
    let m : RefMsg := { type, locate := ← be16 b 1 }
    if type = 'A'.toUInt8 ∨ type = 'F'.toUInt8 then
      return { m with
        orderRef := ← be64 b 13, isBid := (← b[21]?) == 'B'.toUInt8
        shares := ← be32 b 22, price := ← be32 b 34 }
    else if type = 'E'.toUInt8 then
      return { m with orderRef := ← be64 b 13, shares := ← be32 b 21 }
    else if type = 'C'.toUInt8 then
      return { m with
        orderRef := ← be64 b 13, shares := ← be32 b 21
        printable := (← b[33]?) == 'Y'.toUInt8, price := ← be32 b 34 }
    else if type = 'X'.toUInt8 then
      return { m with orderRef := ← be64 b 13, shares := ← be32 b 21 }
    else if type = 'D'.toUInt8 then
      return { m with orderRef := ← be64 b 13 }
    else if type = 'U'.toUInt8 then
      return { m with
        orderRef := ← be64 b 13, newOrderRef := ← be64 b 21
        shares := ← be32 b 29, price := ← be32 b 33 }
    else if type = 'P'.toUInt8 then
      return { m with
        orderRef := ← be64 b 13, isBid := (← b[21]?) == 'B'.toUInt8
        shares := ← be32 b 22, price := ← be32 b 34 }
    else
      return m

/-! ## Book -/

/-- `struct Level`. -/
structure Level where
  shares : UInt64 := 0
  count : UInt32 := 0
  deriving DecidableEq, Repr

/-- `RefBook::Order`. -/
structure Order where
  isBid : Bool
  locate : UInt16
  price : UInt32
  shares : UInt64
  deriving DecidableEq, Repr

/-- `class RefBook`. -/
structure RefBook where
  bids : ExtTreeMap UInt32 Level := ∅
  asks : ExtTreeMap UInt32 Level := ∅
  orders : Finmap fun _ : UInt64 => Order := ∅
  totBid : UInt64 := 0
  totAsk : UInt64 := 0
  vwapNum : UInt64 := 0
  vwapDen : UInt64 := 0
  tradeCount : UInt64 := 0

namespace RefBook

/-- `is_bid ? bids_ : asks_`. -/
def side (r : RefBook) (isBid : Bool) : ExtTreeMap UInt32 Level := if isBid then r.bids else r.asks

/-- The book with the levels of one side replaced. -/
def setSide (r : RefBook) (isBid : Bool) (m : ExtTreeMap UInt32 Level) : RefBook :=
  if isBid then { r with bids := m } else { r with asks := m }

/-- `is_bid ? tot_bid_ : tot_ask_`, updated. -/
def modifyTot (r : RefBook) (isBid : Bool) (f : UInt64 → UInt64) : RefBook :=
  if isBid then { r with totBid := f r.totBid } else { r with totAsk := f r.totAsk }

/-- `RefBook::add_order`. -/
def addOrder (r : RefBook) (ref : UInt64) (isBid : Bool) (locate : UInt16) (price : UInt32)
    (shares : UInt64) : RefBook :=
  let r := { r with orders := r.orders.insert ref ⟨isBid, locate, price, shares⟩ }
  let lv := ((r.side isBid)[price]?).getD {}
  let r := r.setSide isBid
    ((r.side isBid).insert price { shares := lv.shares + shares, count := lv.count + 1 })
  r.modifyTot isBid (· + shares)

/-- `RefBook::reduce_order`: part of an order; it goes when nothing is left of it. -/
def reduceOrder (r : RefBook) (ref : UInt64) (amt : UInt64) : RefBook :=
  match r.orders.lookup ref with
  | none => r
  | some o =>
    let amt := if amt > o.shares then o.shares else amt
    match (r.side o.isBid)[o.price]? with
    | none => r
    | some lv =>
      let lv := { lv with shares := lv.shares - amt }
      let left := o.shares - amt
      if left = 0 then
        let lv := { lv with count := if lv.count > 0 then lv.count - 1 else lv.count }
        let m := if lv.shares = 0 then (r.side o.isBid).erase o.price
          else (r.side o.isBid).insert o.price lv
        { ((r.setSide o.isBid m).modifyTot o.isBid (· - amt)) with orders := r.orders.erase ref }
      else
        { ((r.setSide o.isBid ((r.side o.isBid).insert o.price lv)).modifyTot o.isBid (· - amt)) with
          orders := r.orders.insert ref { o with shares := left } }

/-- `RefBook::remove_order`. -/
def removeOrder (r : RefBook) (ref : UInt64) : RefBook :=
  match r.orders.lookup ref with
  | none => r
  | some o =>
    let r' :=
      match (r.side o.isBid)[o.price]? with
      | none => r
      | some lv =>
        let lv : Level :=
          { shares := lv.shares - o.shares
            count := if lv.count > 0 then lv.count - 1 else lv.count }
        let m := if lv.shares = 0 then (r.side o.isBid).erase o.price
          else (r.side o.isBid).insert o.price lv
        (r.setSide o.isBid m).modifyTot o.isBid (· - o.shares)
    { r' with orders := r.orders.erase ref }

/-- Statistics of a trade: `vwap_num_`, `vwap_den_` and `trade_count_`. -/
def trade (r : RefBook) (price : UInt32) (amt : UInt64) : RefBook :=
  { r with
    vwapNum := r.vwapNum + price.toUInt64 * amt
    vwapDen := r.vwapDen + amt
    tradeCount := r.tradeCount + 1 }

/-- `RefBook::apply`. -/
def apply (r : RefBook) (m : RefMsg) : RefBook :=
  if m.type = 'A'.toUInt8 ∨ m.type = 'F'.toUInt8 then
    r.addOrder m.orderRef m.isBid m.locate m.price m.shares.toUInt64
  else if m.type = 'E'.toUInt8 then
    match r.orders.lookup m.orderRef with
    | none => r
    | some o =>
      let amt := if m.shares.toUInt64 > o.shares then o.shares else m.shares.toUInt64
      (r.reduceOrder m.orderRef amt).trade o.price amt
  else if m.type = 'C'.toUInt8 then
    match r.orders.lookup m.orderRef with
    | none => r
    | some o =>
      let amt := if m.shares.toUInt64 > o.shares then o.shares else m.shares.toUInt64
      let r := r.reduceOrder m.orderRef amt
      if m.printable then r.trade m.price amt else r
  else if m.type = 'X'.toUInt8 then
    match r.orders.lookup m.orderRef with
    | none => r
    | some o =>
      let amt := if m.shares.toUInt64 > o.shares then o.shares else m.shares.toUInt64
      r.reduceOrder m.orderRef amt
  else if m.type = 'D'.toUInt8 then
    r.removeOrder m.orderRef
  else if m.type = 'U'.toUInt8 then
    match r.orders.lookup m.orderRef with
    | none => r
    | some o =>
      (r.removeOrder m.orderRef).addOrder m.newOrderRef o.isBid o.locate m.price m.shares.toUInt64
  else if m.type = 'P'.toUInt8 then
    r.trade m.price m.shares.toUInt64
  else r

/-! ### Queries -/

def bestBidValid (r : RefBook) : Bool := !r.bids.isEmpty

def bestBidPrice (r : RefBook) : UInt32 := r.bids.maxKey?.getD 0

def bestBidShares (r : RefBook) : UInt64 := (r.bids.maxEntry?.map fun e => e.2.shares).getD 0

def bestAskValid (r : RefBook) : Bool := !r.asks.isEmpty

def bestAskPrice (r : RefBook) : UInt32 := r.asks.minKey?.getD 0

def bestAskShares (r : RefBook) : UInt64 := (r.asks.minEntry?.map fun e => e.2.shares).getD 0

def levelShares (r : RefBook) (isBid : Bool) (price : UInt32) : UInt64 :=
  (((r.side isBid)[price]?).map Level.shares).getD 0

def levelCount (r : RefBook) (isBid : Bool) (price : UInt32) : UInt32 :=
  (((r.side isBid)[price]?).map Level.count).getD 0

def spreadValid (r : RefBook) : Bool := r.bestBidValid && r.bestAskValid

def spread (r : RefBook) : UInt32 :=
  if r.spreadValid then r.bestAskPrice - r.bestBidPrice else 0

end RefBook

end ItchOrderbook.Sim
