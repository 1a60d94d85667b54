import ItchOrderbook.Lib.BigEndian
import ItchOrderbook.Parser.ItchMessages
import Mathlib.Data.UInt
import Mathlib.Logic.Function.Basic

/-!
# Synthetic streams (`sw/util/itch_gen.hpp`)

`ItchGenerator` keeps the orders it has left resting and writes messages about them. What its random
engine gives is a parameter of the model, the draws in order. A message body is the zeroed bytes of
`begin_msg` with the fields stored at their offsets.
-/

namespace ItchOrderbook

open BigEndian

/-- `hdr::TRACK_NUM`. -/
def Hdr.trackNum := 3

/-- `EVT_START_MESSAGES`, `EVT_START_HOURS`, `EVT_END_HOURS` and `EVT_END_MESSAGES`. -/
def evtStartMessages : UInt8 := 'O'.toUInt8
def evtStartHours : UInt8 := 'Q'.toUInt8
def evtEndHours : UInt8 := 'M'.toUInt8
def evtEndMessages : UInt8 := 'C'.toUInt8

/-- `struct GenConfig`, with at least one symbol and no more than an `int` counts. The seed is left
to the draws. -/
structure GenConfig where
  numSymbols : ℕ
  pos : 0 < numSymbols
  int : numSymbols < 2 ^ 31
  basePrice : UInt32 := 500000
  symSpacing : UInt32 := 50000
  tick : UInt32 := 100
  bandTicks : UInt32 := 100
  maxPrice : UInt32 := 999990
  minPrice : UInt32 := 10000
  maxShares : UInt32 := 1000
  aggressProb : UInt32 := 0
  tsScale : UInt64 := 1

/-- `mids_[s]`: the middle of a symbol's prices, on the tick grid. -/
def GenConfig.mid (cfg : GenConfig) (s : ℕ) : UInt32 :=
  (cfg.basePrice + UInt32.ofNat s * cfg.symSpacing) / cfg.tick * cfg.tick

/-- `struct GenStats`. -/
structure GenStats where
  perType : MsgType → UInt64 := fun _ => 0
  total : UInt64 := 0
  liveOrdersPeak : ℕ := 0

/-- `ItchGenerator::LiveOrder`. -/
structure LiveOrder where
  ref : UInt64
  stockLocate : UInt16
  side : UInt8
  price : UInt32
  shares : UInt32
  deriving DecidableEq, Repr

/-- `class ItchGenerator`. -/
structure ItchGenerator where
  cfg : GenConfig
  /-- what `rng_` gives, call after call -/
  rng : ℕ → UInt64
  drawn : ℕ := 0
  out : List UInt8 := []
  live : List LiveOrder := []
  stats : GenStats := {}
  nextRef : UInt64 := 1
  matchNumber : UInt64 := 1
  ts : UInt64 := 34200 * 1000000000
  track : UInt16 := 0

/-! ## Stores -/

/-- Bytes stored at an offset. -/
def storeAt (off : ℕ) (bs b : List UInt8) : List UInt8 :=
  b.take off ++ bs ++ b.drop (off + bs.length)

def storeBe16 (off : ℕ) (v : UInt16) : List UInt8 → List UInt8 := storeAt off (toBytes 2 v.toNat)
def storeBe32 (off : ℕ) (v : UInt32) : List UInt8 → List UInt8 := storeAt off (toBytes 4 v.toNat)
def storeBe48 (off : ℕ) (v : UInt64) : List UInt8 → List UInt8 := storeAt off (toBytes 6 v.toNat)
def storeBe64 (off : ℕ) (v : UInt64) : List UInt8 → List UInt8 := storeAt off (toBytes 8 v.toNat)

/-- `char('1' + sym)`. -/
def symChar (sym : ℕ) : UInt8 := '1'.toUInt8 + UInt8.ofNat sym

/-- `write_stock`. -/
def writeStock (off sym : ℕ) : List UInt8 → List UInt8 :=
  storeAt off ['S'.toUInt8, 'Y'.toUInt8, 'M'.toUInt8, symChar sym,
    ' '.toUInt8, ' '.toUInt8, ' '.toUInt8, ' '.toUInt8]

/-- The conversion of a `uint64_t` to an `int`. -/
def toInt (x : ℕ) : ℤ :=
  if x % 2 ^ 32 < 2 ^ 31 then (x % 2 ^ 32 : ℕ) else (x % 2 ^ 32 : ℕ) - 2 ^ 32

namespace ItchGenerator

/-! ## Draws -/

/-- `rng_()`. -/
def draw (g : ItchGenerator) : UInt64 × ItchGenerator :=
  (g.rng g.drawn, { g with drawn := g.drawn + 1 })

/-- `int(rng_() % cfg_.num_symbols)`. -/
def drawSymbol (g : ItchGenerator) : ℕ × ItchGenerator :=
  let (r, g) := g.draw
  (r.toNat % g.cfg.numSymbols, g)

/-- `(rng_() & 1) ? SIDE_BUY : SIDE_SELL`. -/
def drawSide (g : ItchGenerator) : UInt8 × ItchGenerator :=
  let (r, g) := g.draw
  (if r &&& 1 ≠ 0 then sideBuy else sideSell, g)

/-- `1 + uint32_t(rng_() % bound)`. -/
def drawUpTo (g : ItchGenerator) (bound : UInt32) : UInt32 × ItchGenerator :=
  let (r, g) := g.draw
  (1 + (r % bound.toUInt64).toUInt32, g)

/-- `rand_price`. The products stay far inside an `int64_t`. -/
def randPrice (g : ItchGenerator) (sym : ℕ) (side : UInt8) : UInt32 × ItchGenerator :=
  let (k, g) := g.drawUpTo g.cfg.bandTicks
  let (k2, g) := g.drawUpTo g.cfg.bandTicks
  let k := if k2 < k then k2 else k
  let m : ℤ := (g.cfg.mid sym).toNat
  let p := if side = sideBuy then m - k.toNat * g.cfg.tick.toNat
    else m + k.toNat * g.cfg.tick.toNat
  let p := if p < g.cfg.minPrice.toNat then (g.cfg.minPrice.toNat : ℤ) else p
  let p := if p > g.cfg.maxPrice.toNat then (g.cfg.maxPrice.toNat : ℤ) else p
  (UInt32.ofNat p.toNat, g)

/-! ## Writing -/

/-- `begin_msg`: the body with its header. -/
def beginMsg (g : ItchGenerator) (bodyLen : ℕ) (type : UInt8) (locate : UInt16) :
    List UInt8 × ItchGenerator :=
  let body := List.replicate bodyLen 0
  let body := storeAt Hdr.type [type] body
  let body := storeBe16 Hdr.stockLoc locate body
  let body := storeBe16 Hdr.trackNum g.track body
  -- 8-byte ts: high 2 bytes 0
  let body := storeBe48 (Hdr.timestamp + 2) g.ts body
  (body, { g with track := g.track + 1 })

/-- The body is in `out_`, behind its length. -/
def put (g : ItchGenerator) (body : List UInt8) : ItchGenerator :=
  { g with out := g.out ++ (toBytes 2 body.length ++ body) }

/-- `count`. -/
def count (g : ItchGenerator) (t : MsgType) : ItchGenerator :=
  { g with stats := { g.stats with
      perType := Function.update g.stats.perType t (g.stats.perType t + 1)
      total := g.stats.total + 1 } }

/-- `match_++`. -/
def nextMatch (g : ItchGenerator) : UInt64 × ItchGenerator :=
  (g.matchNumber, { g with matchNumber := g.matchNumber + 1 })

/-- `next_ref_++`. -/
def takeRef (g : ItchGenerator) : UInt64 × ItchGenerator :=
  (g.nextRef, { g with nextRef := g.nextRef + 1 })

def withLive (g : ItchGenerator) (live : List LiveOrder) : ItchGenerator := { g with live := live }

/-- `remove_live`: the last order takes the place. -/
def removeLive (live : List LiveOrder) (i : ℕ) : List LiveOrder :=
  match live.getLast? with
  | some back => (live.set i back).dropLast
  | none => live

/-- What is left of the order at `i` that gave up `shares`. -/
def reduceLive (live : List LiveOrder) (i : ℕ) (o : LiveOrder) (shares : UInt32) : List LiveOrder :=
  if o.shares - shares = 0 then removeLive live i
  else live.set i { o with shares := o.shares - shares }

/-! ## Emitters -/

/-- `emit_system`. -/
def emitSystem (g : ItchGenerator) (code : UInt8) : ItchGenerator :=
  let (b, g) := g.beginMsg Blen.system 'S'.toUInt8 0
  let b := storeAt Off.sysEvent [code] b
  (g.put b).count .systemEvent

/-- `emit_add` behind its draws. -/
def addOrder (g : ItchGenerator) (mpid : Bool) (sym : ℕ) (side : UInt8) (price shares : UInt32) :
    ItchGenerator :=
  let locate := UInt16.ofNat (sym + 1)
  let (ref, g) := g.takeRef
  let (b, g) := g.beginMsg (if mpid then Blen.addMpid else Blen.add)
    (if mpid then 'F'.toUInt8 else 'A'.toUInt8) locate
  let b := storeBe64 Off.addRef ref b
  let b := storeAt Off.addSide [side] b
  let b := storeBe32 Off.addShares shares b
  let b := writeStock Off.addStock sym b
  let b := storeBe32 Off.addPrice price b
  let b := if mpid then storeAt Off.addMpid ['M'.toUInt8, 'M'.toUInt8, '0'.toUInt8, symChar sym] b
    else b
  let g := (g.put b).withLive (g.live ++ [⟨ref, locate, side, price, shares⟩])
  g.count (if mpid then .addOrderMPID else .addOrder)

/-- `emit_add`. -/
def emitAdd (g : ItchGenerator) (mpid : Bool) : ItchGenerator :=
  let (sym, g) := g.drawSymbol
  let (side, g) := g.drawSide
  let (price, g) := g.randPrice sym side
  let (shares, g) := g.drawUpTo g.cfg.maxShares
  g.addOrder mpid sym side price shares

/-- `pick_live`. -/
def pickLive (g : ItchGenerator) : ℤ × ItchGenerator :=
  if g.live = [] then (-1, g)
  else
    let (r, g) := g.draw
    (toInt (r.toNat % g.live.length), g)

/-- `exec_at`. -/
def execAt (g : ItchGenerator) (i : ℕ) (withPrice : Bool) : ItchGenerator :=
  match g.live[i]? with
  -- `i` is an index at every call
  | none => g
  | some o =>
    let (ex, g) := g.drawUpTo o.shares
    let g :=
      if withPrice then
        let (b, g) := g.beginMsg Blen.execPrice 'C'.toUInt8 o.stockLocate
        let (mn, g) := g.nextMatch
        let b := storeBe64 Off.execpRef o.ref b
        let b := storeBe32 Off.execpShares ex b
        let b := storeBe64 Off.execpMatch mn b
        let b := storeAt Off.execpPrintable ['Y'.toUInt8] b
        let b := storeBe32 Off.execpPrice o.price b
        (g.put b).count .orderExecutedPrice
      else
        let (b, g) := g.beginMsg Blen.exec 'E'.toUInt8 o.stockLocate
        let (mn, g) := g.nextMatch
        let b := storeBe64 Off.execRef o.ref b
        let b := storeBe32 Off.execShares ex b
        let b := storeBe64 Off.execMatch mn b
        (g.put b).count .orderExecuted
    g.withLive (reduceLive g.live i o ex)

/-- Whether the order at `o` goes before the one at `b` in a sweep of the side. -/
def better (side : UInt8) (o b : LiveOrder) : Bool :=
  if side = sideBuy then decide (o.price > b.price ∨ (o.price = b.price ∧ o.ref < b.ref))
  else decide (o.price < b.price ∨ (o.price = b.price ∧ o.ref < b.ref))

/-- The loop of `emit_sweep`: the index of the order at the touch, if there is one. -/
def sweepBest (live : List LiveOrder) (locate : UInt16) (side : UInt8) : Option ℕ :=
  (List.range (toInt live.length).toNat).foldl (fun best i =>
    match live[i]? with
    | none => best
    | some o =>
      if o.stockLocate ≠ locate ∨ o.side ≠ side then best
      else
        match best.bind (live[·]?) with
        | none => some i
        | some b => if better side o b then some i else best) none

/-- `emit_sweep`. -/
def emitSweep (g : ItchGenerator) : ItchGenerator :=
  let (sym, g) := g.drawSymbol
  let (side, g) := g.drawSide
  match sweepBest g.live (UInt16.ofNat (sym + 1)) side with
  | none => g.emitAdd false
  | some best => g.execAt best false

/-- `emit_execute`. -/
def emitExecute (g : ItchGenerator) (withPrice : Bool) : ItchGenerator :=
  let (i, g) := g.pickLive
  if i < 0 then g.emitAdd false else g.execAt i.toNat withPrice

/-- `emit_cancel`. -/
def emitCancel (g : ItchGenerator) : ItchGenerator :=
  let (i, g) := g.pickLive
  if i < 0 then g.emitAdd false
  else
    match g.live[i.toNat]? with
    | none => g
    | some o =>
      let (cx, g) := g.drawUpTo o.shares
      let (b, g) := g.beginMsg Blen.cancel 'X'.toUInt8 o.stockLocate
      let b := storeBe64 Off.cancelRef o.ref b
      let b := storeBe32 Off.cancelShares cx b
      let g := (g.put b).count .orderCancel
      g.withLive (reduceLive g.live i.toNat o cx)

/-- `emit_delete`. -/
def emitDelete (g : ItchGenerator) : ItchGenerator :=
  let (i, g) := g.pickLive
  if i < 0 then g.emitAdd false
  else
    match g.live[i.toNat]? with
    | none => g
    | some o =>
      let (b, g) := g.beginMsg Blen.delete 'D'.toUInt8 o.stockLocate
      let b := storeBe64 Off.deleteRef o.ref b
      let g := (g.put b).count .orderDelete
      g.withLive (removeLive g.live i.toNat)

/-- `emit_replace`: the replacement rests on the same side. -/
def emitReplace (g : ItchGenerator) : ItchGenerator :=
  let (i, g) := g.pickLive
  if i < 0 then g.emitAdd false
  else
    match g.live[i.toNat]? with
    | none => g
    | some o =>
      let (newRef, g) := g.takeRef
      -- a locate of 0 counts as the first symbol
      let (newPrice, g) := g.randPrice (o.stockLocate.toNat - 1) o.side
      let (newShares, g) := g.drawUpTo g.cfg.maxShares
      let (b, g) := g.beginMsg Blen.replace 'U'.toUInt8 o.stockLocate
      let b := storeBe64 Off.replOrigRef o.ref b
      let b := storeBe64 Off.replNewRef newRef b
      let b := storeBe32 Off.replShares newShares b
      let b := storeBe32 Off.replPrice newPrice b
      let g := (g.put b).count .orderReplace
      g.withLive (g.live.set i.toNat
        { o with ref := newRef, price := newPrice, shares := newShares })

/-- `emit_trade`. -/
def emitTrade (g : ItchGenerator) : ItchGenerator :=
  let (sym, g) := g.drawSymbol
  let (side, g) := g.drawSide
  let (price, g) := g.randPrice sym side
  let (shares, g) := g.drawUpTo g.cfg.maxShares
  let (b, g) := g.beginMsg Blen.trade 'P'.toUInt8 (UInt16.ofNat (sym + 1))
  let (mn, g) := g.nextMatch
  -- non-displayable: ref 0
  let b := storeBe64 Off.tradeRef 0 b
  let b := storeAt Off.tradeSide [side] b
  let b := storeBe32 Off.tradeShares shares b
  let b := writeStock Off.tradeStock sym b
  let b := storeBe32 Off.tradePrice price b
  let b := storeBe64 Off.tradeMatch mn b
  (g.put b).count .trade

/-! ## Runs -/

/-- The peak of the live orders, at the end of a step. -/
def notePeak (g : ItchGenerator) : ItchGenerator :=
  { g with stats := { g.stats with liveOrdersPeak := max g.stats.liveOrdersPeak g.live.length } }

/-- The emitter a roll of 100 chooses. -/
def emitRolled (g : ItchGenerator) (roll : ℕ) : ItchGenerator :=
  -- bias toward Add early so there is inventory to modify
  if g.live.length < 16 ∨ roll < 45 then g.emitAdd (roll % 7 == 0)
  else if roll < 62 then g.emitExecute (roll % 5 == 0)
  else if roll < 74 then g.emitCancel
  else if roll < 86 then g.emitDelete
  else if roll < 96 then g.emitReplace
  else g.emitTrade

/-- Whether a step sweeps: no draw is made for it when `aggress_prob` is 0. -/
def drawAggress (g : ItchGenerator) : Bool × ItchGenerator :=
  if g.cfg.aggressProb > 0 then
    let (r, g) := g.draw
    (decide (r % 100 < g.cfg.aggressProb.toUInt64), g)
  else (false, g)

/-- `step`. -/
def step (g : ItchGenerator) : ItchGenerator :=
  let (r, g) := g.draw
  let g := { g with ts := g.ts + (1 + r % 50) * g.cfg.tsScale }
  let (aggress, g) := g.drawAggress
  if aggress then g.emitSweep.notePeak
  else
    let (r, g) := g.draw
    (g.emitRolled (r % 100).toNat).notePeak

/-- The loop of `generate`. -/
def steps (g : ItchGenerator) : ℕ → ItchGenerator
  | 0 => g
  | n + 1 => (steps g n).step

/-- `generate`: the generator with the stream in `out_`. -/
def generate (g : ItchGenerator) (n : ℕ) : ItchGenerator :=
  let g := { g with out := [], stats := {} }
  let g := g.emitSystem evtStartMessages
  let g := g.emitSystem evtStartHours
  let g := g.steps n
  let g := g.emitSystem evtEndHours
  g.emitSystem evtEndMessages

end ItchGenerator

end ItchOrderbook
