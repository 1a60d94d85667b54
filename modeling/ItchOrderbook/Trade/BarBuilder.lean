import ItchOrderbook.Trade.FloatOps

/-!
# Bar arrays and their builder (`sw/trade/bar_builder.hpp`)

Trade prints go into the open bar of their bucket `timestamp_ns / bar_ns`; a print in a later bucket
closes it. An `int` is an `Int32`: where the addition overflows, which C++ leaves undefined, it
wraps.
-/

namespace ItchOrderbook

/-- `struct BarSeries`: one array per series, grown together. -/
structure BarSeries (F : Type) where
  o : List F
  h : List F
  l : List F
  c : List F
  v : List F
  o_length : o.length = c.length
  h_length : h.length = c.length
  l_length : l.length = c.length
  v_length : v.length = c.length

/-- The number of completed bars. -/
def BarSeries.size {F : Type} (bars : BarSeries F) : ℕ := bars.c.length

/-- `BarSeries::size()`, which is that number cut to an `int`. -/
def BarSeries.sizeInt {F : Type} (bars : BarSeries F) : Int32 := Int32.ofNat bars.size

/-- No bars. -/
def BarSeries.empty {F : Type} : BarSeries F := ⟨[], [], [], [], [], rfl, rfl, rfl, rfl⟩

/-- A bar behind the others, as `emit` pushes it. -/
def BarSeries.push {F : Type} (bars : BarSeries F) (o h l c v : F) : BarSeries F where
  o := bars.o ++ [o]
  h := bars.h ++ [h]
  l := bars.l ++ [l]
  c := bars.c ++ [c]
  v := bars.v ++ [v]
  o_length := by rw [List.length_append, List.length_append, bars.o_length]; rfl
  h_length := by rw [List.length_append, List.length_append, bars.h_length]; rfl
  l_length := by rw [List.length_append, List.length_append, bars.l_length]; rfl
  v_length := by rw [List.length_append, List.length_append, bars.v_length]; rfl

/-- `class BarBuilder`. -/
structure BarBuilder (F : Type) where
  barNs : UInt64
  curBucket : Int64
  o : F
  h : F
  l : F
  c : F
  vol : F
  open_ : Bool
  bars : BarSeries F

namespace BarBuilder

open FloatOps

variable {F : Type} [FloatOps F]

/-- The constructor. -/
def new (barNs : UInt64) : BarBuilder F :=
  ⟨barNs, 0, zero, zero, zero, zero, zero, false, BarSeries.empty⟩

/-- `emit`. -/
def emit (b : BarBuilder F) (o h l c v : F) : BarBuilder F :=
  { b with bars := b.bars.push o h l c v }

/-- The loop over the gap, `n` flat bars still to emit. -/
def emitFlat : ℕ → Int32 × BarBuilder F → Int32 × BarBuilder F
  | 0, p => p
  | n + 1, (completed, b) => emitFlat n (completed + 1, b.emit b.c b.c b.c b.c zero)

/-- `on_trade`. -/
def onTrade (b : BarBuilder F) (tsNs : UInt64) (priceRaw shares : UInt32) :
    Int32 × BarBuilder F :=
  let px : F := ofUInt32 priceRaw
  let bucket := (tsNs / b.barNs).toInt64
  if !b.open_ then
    (0, { b with
      open_ := true
      curBucket := bucket
      o := px
      h := px
      l := px
      c := px
      vol := ofUInt32 shares })
  else if bucket ≤ b.curBucket then
    (0, { b with
      h := if lt b.h px then px else b.h
      l := if lt px b.l then px else b.l
      c := px
      vol := b.vol + ofUInt32 shares })
  else
    let (completed, b) := emitFlat (bucket.toInt - b.curBucket.toInt - 1).toNat
      (1, b.emit b.o b.h b.l b.c b.vol)
    (completed, { b with
      curBucket := bucket
      o := px
      h := px
      l := px
      c := px
      vol := ofUInt32 shares })

/-- `flush`. -/
def flush (b : BarBuilder F) : Int32 × BarBuilder F :=
  if !b.open_ then (0, b)
  else (1, { b.emit b.o b.h b.l b.c b.vol with open_ := false })

end BarBuilder

end ItchOrderbook
