import ItchOrderbook.Book.OrderBookSpec
import ItchOrderbook.Lib.FinmapTotal
import Std.Data.ExtTreeMap

/-!
# The reference book (`class ReferenceBook`, `sw/book/reference_book.hpp`)

The oracle the engine is diffed against: ordered maps from price to shares and to order
count, with an emptied level erased. It validates nothing; a message goes in as it is, and an
oversized reduction is clamped.
-/

namespace ItchOrderbook

open Std (ExtTreeMap)

/-- `ReferenceBook::Side`. -/
structure RefSide where
  shares : ExtTreeMap UInt32 UInt32 := ∅
  orders : ExtTreeMap UInt32 UInt32 := ∅

namespace RefSide

def add (s : RefSide) (price qty : UInt32) : RefSide where
  shares := s.shares.insert price (s.shares[price]?.getD 0 + qty)
  orders := s.orders.insert price (s.orders[price]?.getD 0 + 1)

/-- Reduce the shares at a price and, when the order is gone, its order count; erase the level
once it is out of shares. -/
def reduce (s : RefSide) (price qty : UInt32) (orderGone : Bool) : RefSide :=
  match s.shares[price]? with
  | none => s
  | some total =>
    let shares := s.shares.insert price (total - qty)
    let orders :=
      if orderGone then
        match s.orders[price]? with
        | some n => if n > 0 then s.orders.insert price (n - 1) else s.orders
        | none => s.orders
      else s.orders
    if total - qty = 0 then ⟨shares.erase price, orders.erase price⟩ else ⟨shares, orders⟩

end RefSide

/-- `ReferenceBook::SymbolBook`. -/
structure SymbolBook where
  bid : RefSide := {}
  ask : RefSide := {}

/-- `side_ref`. -/
def SymbolBook.side (b : SymbolBook) (side : UInt8) : RefSide :=
  if side = sideBuy then b.bid else b.ask

/-- The book with the side that `side_ref` names replaced. -/
def SymbolBook.setSide (b : SymbolBook) (side : UInt8) (s : RefSide) : SymbolBook :=
  if side = sideBuy then { b with bid := s } else { b with ask := s }

/-- `ReferenceBook::Order`. -/
structure RefOrder where
  locate : UInt16
  side : UInt8
  price : UInt32
  shares : UInt32
  deriving DecidableEq

/-- `class ReferenceBook`. -/
structure ReferenceBook where
  books : UInt16 → Option SymbolBook := fun _ => none
  orders : Finmap fun _ : UInt64 => RefOrder := ∅

namespace ReferenceBook

/-- `books_[locate]`, an empty book where there is none. -/
def bookAt (r : ReferenceBook) (locate : UInt16) : SymbolBook := (r.books locate).getD {}

/-- Replace one side of a locate's book. -/
def modifySide (r : ReferenceBook) (locate : UInt16) (side : UInt8) (f : RefSide → RefSide) :
    ReferenceBook :=
  let b := r.bookAt locate
  { r with books := Function.update r.books locate (some (b.setSide side (f (b.side side)))) }

def onAdd (r : ReferenceBook) (m : DecodedMessage) : ReferenceBook :=
  let r := r.modifySide m.stockLocate m.side fun s => s.add m.price m.shares
  { r with orders := r.orders.insert m.orderRef ⟨m.stockLocate, m.side, m.price, m.shares⟩ }

/-- `on_exec` and `on_cancel`, which have the same body. -/
def onReduce (r : ReferenceBook) (m : DecodedMessage) : ReferenceBook :=
  match r.orders.lookup m.orderRef with
  | none => r
  | some o =>
    let ex := if m.shares > o.shares then o.shares else m.shares
    let left := o.shares - ex
    let gone := left == 0
    let r := { r with orders := r.orders.insert m.orderRef { o with shares := left } }
    let r := r.modifySide o.locate o.side fun s => s.reduce o.price ex gone
    if gone then { r with orders := r.orders.erase m.orderRef } else r

def onDelete (r : ReferenceBook) (m : DecodedMessage) : ReferenceBook :=
  match r.orders.lookup m.orderRef with
  | none => r
  | some o =>
    let r := r.modifySide o.locate o.side fun s => s.reduce o.price o.shares true
    { r with orders := r.orders.erase m.orderRef }

def onReplace (r : ReferenceBook) (m : DecodedMessage) : ReferenceBook :=
  match r.orders.lookup m.orderRef with
  | none => r
  | some o =>
    let r := r.modifySide o.locate o.side fun s => s.reduce o.price o.shares true
    let r := { r with orders := r.orders.erase m.orderRef }
    let r := r.modifySide o.locate o.side fun s => s.add m.price m.shares
    { r with orders := r.orders.insert m.newOrderRef ⟨o.locate, o.side, m.price, m.shares⟩ }

def apply (r : ReferenceBook) (m : DecodedMessage) : ReferenceBook :=
  match m.type with
  | .addOrder | .addOrderMPID => r.onAdd m
  | .orderExecuted | .orderExecutedPrice | .orderCancel => r.onReduce m
  | .orderDelete => r.onDelete m
  | .orderReplace => r.onReplace m
  | .trade | .systemEvent | .unknown => r

/-! ## Queries -/

/-- The largest bid price, 0 for none. -/
def bestBid (r : ReferenceBook) (locate : UInt16) : UInt32 :=
  match r.books locate with
  | none => 0
  | some b => b.bid.shares.maxKey?.getD 0

/-- The smallest ask price, 0 for none. -/
def bestAsk (r : ReferenceBook) (locate : UInt16) : UInt32 :=
  match r.books locate with
  | none => 0
  | some b => b.ask.shares.minKey?.getD 0

def bidSharesAt (r : ReferenceBook) (locate : UInt16) (price : UInt32) : UInt32 :=
  match r.books locate with
  | none => 0
  | some b => b.bid.shares[price]?.getD 0

def askSharesAt (r : ReferenceBook) (locate : UInt16) (price : UInt32) : UInt32 :=
  match r.books locate with
  | none => 0
  | some b => b.ask.shares[price]?.getD 0

def bestBidDepth (r : ReferenceBook) (locate : UInt16) : UInt32 :=
  if r.bestBid locate ≠ 0 then r.bidSharesAt locate (r.bestBid locate) else 0

def bestAskDepth (r : ReferenceBook) (locate : UInt16) : UInt32 :=
  if r.bestAsk locate ≠ 0 then r.askSharesAt locate (r.bestAsk locate) else 0

def liveOrders (r : ReferenceBook) : ℕ := r.orders.size

section ThroughBookAt

variable (r : ReferenceBook) (locate : UInt16)

theorem bestBid_eq :
    r.bestBid locate = ((r.bookAt locate).bid.shares.maxKey?).getD 0 := by
  unfold bestBid bookAt
  cases r.books locate <;> simp

theorem bestAsk_eq :
    r.bestAsk locate = ((r.bookAt locate).ask.shares.minKey?).getD 0 := by
  unfold bestAsk bookAt
  cases r.books locate <;> simp

theorem bidSharesAt_eq (price : UInt32) :
    r.bidSharesAt locate price = ((r.bookAt locate).bid.shares[price]?).getD 0 := by
  unfold bidSharesAt bookAt
  cases r.books locate <;> simp

theorem askSharesAt_eq (price : UInt32) :
    r.askSharesAt locate price = ((r.bookAt locate).ask.shares[price]?).getD 0 := by
  unfold askSharesAt bookAt
  cases r.books locate <;> simp

end ThroughBookAt

end ReferenceBook

end ItchOrderbook
