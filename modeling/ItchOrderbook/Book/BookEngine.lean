import ItchOrderbook.Book.OrderBookSpec
import ItchOrderbook.Book.RefMap
import Mathlib.Control.Basic

/-!
# The book engine (`class BookEngine`, `sw/book/order_book.hpp`)

The engine owns the order-reference store and one `OrderBook` per stock locate, and applies
decoded messages. It is written over any `RefTable`; the functions run in the store's monad
because an erase may not return. The pointer to the affected book that `apply` returns is
modelled by that book's locate.
-/

namespace ItchOrderbook

/-- `BookEngine::ApplyStatus`. -/
inductive ApplyStatus where
  | ignored
  | applied
  | invalidEvent
  | duplicateReference
  | missingReference
  | referenceTableFull
  | resyncRequired
  deriving DecidableEq, Repr

/-- `BookEngine::Counters`. -/
structure Counters where
  add : UInt64 := 0
  exec : UInt64 := 0
  cancel : UInt64 := 0
  del : UInt64 := 0
  replace : UInt64 := 0
  trade : UInt64 := 0
  sys : UInt64 := 0
  invalid : UInt64 := 0
  duplicateRef : UInt64 := 0
  missingRef : UInt64 := 0
  refInsertFail : UInt64 := 0
  resyncRequired : UInt64 := 0
  deriving DecidableEq, Repr

/-- `BookEngine::ExecResult`. -/
structure ExecResult where
  contributes : Bool := false
  price : UInt32 := 0
  shares : UInt32 := 0
  locate : UInt16 := 0
  deriving DecidableEq, Repr

/-- `class BookEngine`. -/
structure BookEngine (T : Type) where
  priceLevels : UInt32
  refs : T
  books : UInt16 → Option OrderBook
  ctr : Counters := {}
  lastStatus : ApplyStatus := .ignored

namespace BookEngine

variable {T : Type} {M : Type → Type} [Monad M] [RefTable T M]

/-- The constructor, over an empty store. -/
def new (priceLevels : UInt32) (refs : T) : BookEngine T where
  priceLevels := priceLevels
  refs := refs
  books := fun _ => none

/-- The engine with its counters advanced. -/
def count (e : BookEngine T) (f : Counters → Counters) : BookEngine T :=
  { e with ctr := f e.ctr }

/-- The engine with another store. -/
def withRefs (e : BookEngine T) (refs : T) : BookEngine T := { e with refs := refs }

/-- `last_status_ = status`. -/
def withStatus (e : BookEngine T) (status : ApplyStatus) : BookEngine T :=
  { e with lastStatus := status }

/-- Which counter a rejection bumps. -/
def rejectCount (status : ApplyStatus) (c : Counters) : Counters :=
  match status with
  | .invalidEvent => { c with invalid := c.invalid + 1 }
  | .duplicateReference => { c with duplicateRef := c.duplicateRef + 1 }
  | .missingReference => { c with missingRef := c.missingRef + 1 }
  | .referenceTableFull => { c with refInsertFail := c.refInsertFail + 1 }
  | .resyncRequired => { c with resyncRequired := c.resyncRequired + 1 }
  | _ => c

/-- `reject`: record the status, return no book. -/
def reject (e : BookEngine T) (status : ApplyStatus) : BookEngine T × Option UInt16 :=
  ((e.withStatus status).count (rejectCount status), none)

/-- The end of a handler that went through: the book at `locate` is the affected one. -/
def accept (e : BookEngine T) (locate : UInt16) : BookEngine T × Option UInt16 :=
  (e.withStatus .applied, some locate)

/-- `books_[locate] = b`, the book pointed to by `get_or_make` having been updated. -/
def setBook (e : BookEngine T) (locate : UInt16) (b : OrderBook) : BookEngine T :=
  { e with books := Function.update e.books locate (some b) }

/-- `get_or_make`. -/
def getOrMake (e : BookEngine T) (locate : UInt16) : BookEngine T × OrderBook :=
  match e.books locate with
  | some b => (e, b)
  | none => (e.setBook locate (OrderBook.new e.priceLevels), OrderBook.new e.priceLevels)

/-- `on_add`. -/
def onAdd (e : BookEngine T) (m : DecodedMessage) : M (BookEngine T × Option UInt16) :=
  let e := e.count fun c => { c with add := c.add + 1 }
  if (m.side ≠ sideBuy ∧ m.side ≠ sideSell) ∨ m.orderRef = 0 ∨ m.stockLocate = 0
      ∨ m.price = 0 ∨ m.price ≥ e.priceLevels ∨ m.shares = 0 then
    pure (e.reject .invalidEvent)
  else if (RefTable.find e.refs m.orderRef).isSome then
    pure (e.reject .duplicateReference)
  else
    let (e, b) := e.getOrMake m.stockLocate
    if !b.canAdd m.side m.price m.shares then
      pure (e.reject .invalidEvent)
    else
      let (inserted, refs) := RefTable.insert e.refs m.orderRef
        ⟨m.price, m.shares, m.stockLocate, m.side⟩
      let e := e.withRefs refs
      if !inserted then
        pure (e.reject .referenceTableFull)
      else
        let (added, b) := b.add m.side m.price m.shares
        if !added then do
          let (_, refs) ← RefTable.erase e.refs m.orderRef
          pure ((e.withRefs refs).reject .resyncRequired)
        else
          pure ((e.setBook m.stockLocate b).accept m.stockLocate)

/-- `on_reduce`: an execution (`isExec`) or a cancel of part or all of an order. -/
def onReduce (e : BookEngine T) (m : DecodedMessage) (isExec : Bool) :
    M ((BookEngine T × Option UInt16) × ExecResult) :=
  let e := e.count fun c =>
    if isExec then { c with exec := c.exec + 1 } else { c with cancel := c.cancel + 1 }
  if m.orderRef = 0 ∨ m.shares = 0 then
    pure (e.reject .invalidEvent, {})
  else match RefTable.find e.refs m.orderRef with
  | none => pure (e.reject .missingReference, {})
  | some v =>
    if m.shares > v.shares then
      pure (e.reject .invalidEvent, {})
    else
      let qty := m.shares
      let (e, b) := e.getOrMake v.locate
      let printable := if m.type = .orderExecutedPrice then decide (m.printable ≠ 0) else true
      let execPx := if m.type = .orderExecutedPrice then m.price else v.price
      let willBeGone := v.shares == qty
      let (removed, b) := b.remove v.side v.price qty willBeGone
      if !removed then
        pure (e.reject .resyncRequired, {})
      else
        let out := if isExec then ⟨printable, execPx, qty, v.locate⟩ else {}
        let refs := RefTable.store e.refs m.orderRef { v with shares := v.shares - qty }
        let e := e.withRefs refs
        if willBeGone then do
          let (_, refs) ← RefTable.erase e.refs m.orderRef
          pure (((e.withRefs refs).setBook v.locate b).accept v.locate, out)
        else
          pure ((e.setBook v.locate b).accept v.locate, out)

/-- `on_delete`. -/
def onDelete (e : BookEngine T) (m : DecodedMessage) : M (BookEngine T × Option UInt16) :=
  let e := e.count fun c => { c with del := c.del + 1 }
  match RefTable.find e.refs m.orderRef with
  | none => pure (e.reject .missingReference)
  | some v =>
    let (e, b) := e.getOrMake v.locate
    let (removed, b) := b.remove v.side v.price v.shares true
    if !removed then
      pure (e.reject .resyncRequired)
    else do
      let (_, refs) ← RefTable.erase e.refs m.orderRef
      pure (((e.withRefs refs).setBook v.locate b).accept v.locate)

/-- `on_replace`: erase the old reference, insert the new one, move the shares; each later
failure restores the old reference. -/
def onReplace (e : BookEngine T) (m : DecodedMessage) : M (BookEngine T × Option UInt16) :=
  let e := e.count fun c => { c with replace := c.replace + 1 }
  match RefTable.find e.refs m.orderRef with
  | none => pure (e.reject .missingReference)
  | some old =>
    if m.newOrderRef = 0 ∨ m.newOrderRef = m.orderRef ∨ m.price = 0 ∨ m.price ≥ e.priceLevels
        ∨ m.shares = 0 then
      pure (e.reject .invalidEvent)
    else if (RefTable.find e.refs m.newOrderRef).isSome then
      pure (e.reject .duplicateReference)
    else
      let (e, b) := e.getOrMake old.locate
      if !b.canReplace old.side old.price old.shares m.price m.shares then
        pure (e.reject .invalidEvent)
      else do
        let (_, refs) ← RefTable.erase e.refs m.orderRef
        let (inserted, refs) := RefTable.insert refs m.newOrderRef
          ⟨m.price, m.shares, old.locate, old.side⟩
        if !inserted then
          let (_, refs) := RefTable.insert refs m.orderRef old
          pure ((e.withRefs refs).reject .referenceTableFull)
        else
          let (replaced, b) := b.replace old.side old.price old.shares m.price m.shares
          if !replaced then do
            let (_, refs) ← RefTable.erase refs m.newOrderRef
            let (_, refs) := RefTable.insert refs m.orderRef old
            pure (((e.withRefs refs).setBook old.locate b).reject .resyncRequired)
          else
            pure (((e.withRefs refs).setBook old.locate b).accept old.locate)

/-- `apply`: the engine after the message, the affected book, and the trade information. -/
def apply (e : BookEngine T) (m : DecodedMessage) :
    M ((BookEngine T × Option UInt16) × ExecResult) :=
  let e := e.withStatus .ignored
  match m.type with
  | .addOrder | .addOrderMPID => do pure (← onAdd e m, {})
  | .orderExecuted | .orderExecutedPrice => onReduce e m true
  | .orderCancel => onReduce e m false
  | .orderDelete => do pure (← onDelete e m, {})
  | .orderReplace => do pure (← onReplace e m, {})
  | .trade =>
    pure (((e.count fun c => { c with trade := c.trade + 1 }).withStatus .applied, none),
      ⟨true, m.price, m.shares, m.stockLocate⟩)
  | .systemEvent =>
    pure (((e.count fun c => { c with sys := c.sys + 1 }).withStatus .applied, none), {})
  | .unknown => pure ((e, none), {})

/-! ## Queries

Those of a locate that has no book yet are those of an empty one. -/

/-- The book of a locate, a fresh one where there is none. -/
def bookOf (e : BookEngine T) (locate : UInt16) : OrderBook :=
  (e.books locate).getD (OrderBook.new e.priceLevels)

section Access

variable (e : BookEngine T)

@[simp] theorem refs_count (f : Counters → Counters) : (e.count f).refs = e.refs := rfl
@[simp] theorem refs_withRefs (refs : T) : (e.withRefs refs).refs = refs := rfl
@[simp] theorem refs_withStatus (st : ApplyStatus) : (e.withStatus st).refs = e.refs := rfl
@[simp] theorem refs_setBook (locate : UInt16) (b : OrderBook) :
    (e.setBook locate b).refs = e.refs := rfl

@[simp] theorem priceLevels_count (f : Counters → Counters) :
    (e.count f).priceLevels = e.priceLevels := rfl
@[simp] theorem priceLevels_withRefs (refs : T) :
    (e.withRefs refs).priceLevels = e.priceLevels := rfl
@[simp] theorem priceLevels_withStatus (st : ApplyStatus) :
    (e.withStatus st).priceLevels = e.priceLevels := rfl
@[simp] theorem priceLevels_setBook (locate : UInt16) (b : OrderBook) :
    (e.setBook locate b).priceLevels = e.priceLevels := rfl

@[simp] theorem bookOf_count (f : Counters → Counters) (locate : UInt16) :
    (e.count f).bookOf locate = e.bookOf locate := rfl
@[simp] theorem bookOf_withRefs (refs : T) (locate : UInt16) :
    (e.withRefs refs).bookOf locate = e.bookOf locate := rfl
@[simp] theorem bookOf_withStatus (st : ApplyStatus) (locate : UInt16) :
    (e.withStatus st).bookOf locate = e.bookOf locate := rfl

@[simp] theorem bookOf_setBook (locate locate' : UInt16) (b : OrderBook) :
    (e.setBook locate b).bookOf locate' = if locate' = locate then b else e.bookOf locate' := by
  unfold setBook bookOf
  by_cases hl : locate' = locate
  · simp [hl]
  · simp [hl]

@[simp] theorem lastStatus_count (f : Counters → Counters) :
    (e.count f).lastStatus = e.lastStatus := rfl
@[simp] theorem lastStatus_withStatus (st : ApplyStatus) :
    (e.withStatus st).lastStatus = st := rfl

@[simp] theorem getOrMake_snd (locate : UInt16) : (e.getOrMake locate).2 = e.bookOf locate := by
  unfold getOrMake bookOf
  cases e.books locate <;> rfl

@[simp] theorem refs_getOrMake (locate : UInt16) : (e.getOrMake locate).1.refs = e.refs := by
  unfold getOrMake
  cases e.books locate <;> rfl

@[simp] theorem priceLevels_getOrMake (locate : UInt16) :
    (e.getOrMake locate).1.priceLevels = e.priceLevels := by
  unfold getOrMake
  cases e.books locate <;> rfl

/-- Making an empty book for a locate shows nowhere. -/
@[simp] theorem bookOf_getOrMake (locate locate' : UInt16) :
    (e.getOrMake locate).1.bookOf locate' = e.bookOf locate' := by
  unfold getOrMake
  cases h : e.books locate with
  | some b => rfl
  | none =>
    rw [bookOf_setBook]
    split
    · rename_i hl
      rw [hl, bookOf, h, Option.getD_none]
    · rfl

end Access

end BookEngine

end ItchOrderbook
