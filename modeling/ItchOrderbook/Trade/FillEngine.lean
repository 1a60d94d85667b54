import ItchOrderbook.Book.BookEngine
import ItchOrderbook.Lib.VectorLoop

/-!
# The fill engine (`class FillEngine`, `sw/trade/fill_engine.hpp`, `.cpp`)

Synthetic orders live in a vector of their own, next to the market book they are simulated
against. The book is never changed here: each function takes the engine it reads from. The
loops that update the vector in place are `forEach` loops over its indices, since their
bodies also write to later elements.
-/

namespace ItchOrderbook

open VectorLoop (forEach)

/-- `OUR_REF_BIT`. -/
def ourRefBit : UInt64 := (1 : UInt64) <<< 63

/-- `struct FillRec`. -/
structure FillRec where
  ts : UInt64 := 0
  ourRef : UInt64 := 0
  side : UInt8 := 0
  price : UInt32 := 0
  shares : UInt32 := 0
  maker : Bool := false
  deriving DecidableEq, Repr

/-- `struct OpenOrder`. -/
structure OpenOrder where
  ref : UInt64 := 0
  side : UInt8 := 0
  price : UInt32 := 0
  remaining : UInt32 := 0
  original : UInt32 := 0
  queueAhead : UInt64 := 0
  watermark : UInt64 := 0
  seq : UInt64 := 0
  deriving DecidableEq, Repr

/-- `class FillEngine`, less the reference to the book engine. -/
structure FillEngine where
  locate : UInt16
  nextRef : UInt64 := ourRefBit ||| 1
  nextSeq : UInt64 := 0
  maxMarketRef : UInt64 := 0
  openOrders : List OpenOrder := []
  fills : List FillRec := []
  deriving DecidableEq, Repr

def umin (a b : UInt32) : UInt32 := if a < b then a else b

/-! ## The sweep of a marketable order -/

/-- The loop of the sweep, over prices from `p` on while `crosses` holds of them: the fills,
which are `taker` with a price and shares, and the shares left. -/
def sweep (opposite : UInt32 → UInt32) (crosses : UInt32 → Bool) (next : UInt32 → UInt32)
    (taker : FillRec) : ℕ → UInt32 → UInt32 → List FillRec × UInt32
  | 0, _, remaining => ([], remaining)
  | fuel + 1, p, remaining =>
    if remaining = 0 ∨ p = 0 ∨ crosses p = false then ([], remaining)
    else
      let avail := opposite p
      if avail = 0 then sweep opposite crosses next taker fuel (next p) remaining
      else
        let f := umin remaining avail
        let (fills, left) := sweep opposite crosses next taker fuel (next p) (remaining - f)
        ({ taker with price := p, shares := f } :: fills, left)

/-- `for (p = best_ask(); remaining && p && p <= price; ++p)`; there are `price + 1 - best_ask`
prices to visit. -/
def OrderBook.sweepBuy (b : OrderBook) (price : UInt32) (taker : FillRec) (shares : UInt32) :
    List FillRec × UInt32 :=
  sweep b.askSharesAt (fun p => decide (p ≤ price)) (· + 1) taker
    (price.toNat + 1 - b.bestAsk.toNat) b.bestAsk shares

/-- `for (p = best_bid(); remaining && p && p >= price; --p)`; there are at most `best_bid`
prices to visit. -/
def OrderBook.sweepSell (b : OrderBook) (price : UInt32) (taker : FillRec) (shares : UInt32) :
    List FillRec × UInt32 :=
  sweep b.bidSharesAt (fun p => decide (p ≥ price)) (· - 1) taker
    b.bestBid.toNat b.bestBid shares

/-! ## Own orders -/

/-- What `x` shares take of the queue ahead of an order: all of them, or all that is ahead. -/
def OpenOrder.taken (o : OpenOrder) (x : UInt32) : UInt64 :=
  if x.toUInt64 < o.queueAhead then x.toUInt64 else o.queueAhead

/-- `o.queue_ahead -= (x < o.queue_ahead) ? x : o.queue_ahead`. -/
def OpenOrder.drainQueue (o : OpenOrder) (x : UInt32) : OpenOrder :=
  { o with queueAhead := o.queueAhead - o.taken x }

/-- The body of `reduce_later`. -/
def OpenOrder.reduceBehind (o : OpenOrder) (amount : UInt32) (later : OpenOrder) : OpenOrder :=
  if later.seq ≤ o.seq ∨ later.side ≠ o.side ∨ later.price ≠ o.price then later
  else later.drainQueue amount

/-- `reduce_later`: own orders behind `o` at its level have `amount` shares less ahead. -/
def reduceLater (orders : List OpenOrder) (o : OpenOrder) (amount : UInt32) : List OpenOrder :=
  orders.map (o.reduceBehind amount)

/-- `fill`: the order after the fill, and the fills with the record of it. -/
def fill (fills : List FillRec) (o : OpenOrder) (shares price : UInt32) (maker : Bool)
    (ts : UInt64) : OpenOrder × List FillRec :=
  if shares = 0 then (o, fills)
  else
    ({ o with remaining := o.remaining - shares },
      fills ++ [⟨ts, o.ref, o.side, price, shares, maker⟩])

/-- The state of a loop of `handle_exec`: the open orders, what is left of its budget, the
fills. -/
structure ExecState where
  orders : List OpenOrder
  budget : UInt32
  fills : List FillRec

/-- Fill the order at index `i` from the budget; own orders behind it counted those shares. -/
def ExecState.fillFromBudget (st : ExecState) (i : ℕ) (o : OpenOrder) (ts : UInt64) : ExecState :=
  let f := umin st.budget o.remaining
  let (o, fills) := fill st.fills o f o.price true ts
  let orders := st.orders.set i o
  ⟨if f ≠ 0 then reduceLater orders o f else orders, st.budget - f, fills⟩

/-- The executed shares were ahead of the order at index `i`: they drain its queue, and what
exceeds the queue fills it. -/
def ExecState.drainAhead (st : ExecState) (i : ℕ) (o : OpenOrder) (q : UInt32) (ts : UInt64) :
    ExecState :=
  let leftover := q - (o.taken q).toUInt32
  let o := o.drainQueue q
  let (o, fills) := fill st.fills o (umin leftover o.remaining) o.price true ts
  { st with orders := st.orders.set i o, fills := fills }

/-- `superior`: our price is better than the executed one. -/
def superior (side : UInt8) (ours price : UInt32) : Bool :=
  if side = sideBuy then decide (ours > price) else decide (ours < price)

/-- The body of the price-through loop: an execution at a worse price fills us first. -/
def priceThroughAt (side : UInt8) (price : UInt32) (ts : UInt64) (st : ExecState) (i : ℕ) :
    ExecState :=
  match st.orders[i]? with
  | none => st
  | some o =>
    if o.side ≠ side ∨ o.remaining = 0 then st
    else if !superior side o.price price then st
    else st.fillFromBudget i o ts

/-- The body of the loop at the executed level: an order that was ahead drains our queue, one
that was behind us fills us first. -/
def atLevelAt (r : UInt64) (side : UInt8) (price q : UInt32) (ts : UInt64) (st : ExecState)
    (i : ℕ) : ExecState :=
  match st.orders[i]? with
  | none => st
  | some o =>
    if o.side ≠ side ∨ o.price ≠ price ∨ o.remaining = 0 then st
    else if r ≤ o.watermark then st.drainAhead i o q ts
    else st.fillFromBudget i o ts

namespace FillEngine

/-- `erase_filled`. -/
def eraseFilled (orders : List OpenOrder) : List OpenOrder :=
  orders.filter fun o => o.remaining != 0

/-- `handle_exec`: the two loops, each with a budget of `q` of its own. -/
def handleExec (fe : FillEngine) (r : UInt64) (side : UInt8) (price q : UInt32) (ts : UInt64) :
    FillEngine :=
  let n := fe.openOrders.length
  let st := forEach n (priceThroughAt side price ts) ⟨fe.openOrders, q, fe.fills⟩
  let st := forEach n (atLevelAt r side price q ts) { st with budget := q }
  { fe with openOrders := eraseFilled st.orders, fills := st.fills }

/-- `handle_remove`. -/
def handleRemove (fe : FillEngine) (r : UInt64) (side : UInt8) (price x : UInt32) : FillEngine :=
  { fe with
    openOrders := fe.openOrders.map fun o =>
      if o.side ≠ side ∨ o.price ≠ price then o
      else if r ≤ o.watermark then o.drainQueue x
      else o }

/-- `max_market_ref_` after a message that brings the reference `ref`. -/
def raiseWatermark (fe : FillEngine) (ref : UInt64) : FillEngine :=
  { fe with maxMarketRef := if ref > fe.maxMarketRef then ref else fe.maxMarketRef }

section Book

variable {T : Type} {M : Type → Type} [RefTable T M]

/-- The shares displayed on our side at a price, 0 where there is no book. -/
def displayed (b : Option OrderBook) (side : UInt8) (price : UInt32) : UInt32 :=
  match b with
  | none => 0
  | some b => if side = sideBuy then b.bidSharesAt price else b.askSharesAt price

/-- The queue ahead of an order that comes to rest: what is displayed, and our own orders
there. -/
def queueSnapshot (fe : FillEngine) (b : Option OrderBook) (side : UInt8) (price : UInt32) :
    UInt64 :=
  fe.openOrders.foldl
    (fun qa o => if o.side = side ∧ o.price = price then qa + o.remaining.toUInt64 else qa)
    (displayed b side price).toUInt64

/-- The marketable sweep: it walks the displayed opposite side from the touch to our limit. -/
def sweepBook (b : Option OrderBook) (side : UInt8) (price : UInt32) (taker : FillRec)
    (shares : UInt32) : List FillRec × UInt32 :=
  match b with
  | none => ([], shares)
  | some b => if side = sideBuy then b.sweepBuy price taker shares else b.sweepSell price taker shares

/-- `submit_limit`. -/
def submitLimit (fe : FillEngine) (eng : BookEngine T) (side : UInt8) (price shares : UInt32)
    (ts : UInt64) : UInt64 × FillEngine :=
  let ref := fe.nextRef
  let b := eng.books fe.locate
  let (taken, remaining) :=
    sweepBook b side price { ts, ourRef := ref, side, maker := false } shares
  let fe := { fe with nextRef := fe.nextRef + 1, fills := fe.fills ++ taken }
  if remaining ≠ 0 then
    let o : OpenOrder :=
      ⟨ref, side, price, remaining, shares, fe.queueSnapshot b side price, fe.maxMarketRef,
        fe.nextSeq⟩
    (ref, { fe with openOrders := fe.openOrders ++ [o], nextSeq := fe.nextSeq + 1 })
  else (ref, fe)

/-- `find`. -/
def find (fe : FillEngine) (ourRef : UInt64) : Option OpenOrder :=
  fe.openOrders.find? fun o => o.ref == ourRef

/-- `cancel`. -/
def cancel (fe : FillEngine) (ourRef : UInt64) : Bool × FillEngine :=
  match fe.find ourRef with
  | none => (false, fe)
  | some o =>
    let orders := fe.openOrders.eraseP fun o => o.ref == ourRef
    (true, { fe with openOrders := reduceLater orders o o.remaining })

/-- `on_market_message`, to be called before the book engine applies the message. -/
def onMarketMessage (fe : FillEngine) (eng : BookEngine T) (m : DecodedMessage) : FillEngine :=
  match m.type with
  | .addOrder | .addOrderMPID => fe.raiseWatermark m.orderRef
  | .orderExecuted | .orderExecutedPrice =>
    match RefTable.find eng.refs m.orderRef with
    | none => fe
    | some v =>
      if v.locate ≠ fe.locate then fe
      else fe.handleExec m.orderRef v.side v.price (umin m.shares v.shares) m.timestamp
  | .orderCancel =>
    match RefTable.find eng.refs m.orderRef with
    | none => fe
    | some v =>
      if v.locate ≠ fe.locate then fe
      else fe.handleRemove m.orderRef v.side v.price (umin m.shares v.shares)
  | .orderDelete =>
    match RefTable.find eng.refs m.orderRef with
    | none => fe
    | some v =>
      if v.locate ≠ fe.locate then fe
      else fe.handleRemove m.orderRef v.side v.price v.shares
  | .orderReplace =>
    let fe :=
      match RefTable.find eng.refs m.orderRef with
      | none => fe
      | some v =>
        if v.locate = fe.locate then fe.handleRemove m.orderRef v.side v.price v.shares else fe
    fe.raiseWatermark m.newOrderRef
  | .trade | .systemEvent | .unknown => fe

/-- `take_fills`. -/
def takeFills (fe : FillEngine) : List FillRec × FillEngine := (fe.fills, { fe with fills := [] })

end Book

end FillEngine

end ItchOrderbook
