import ItchOrderbook.Rtl.BestTracker
import ItchOrderbook.Rtl.OrderRefTable

/-!
# Book update engine (`rtl/book_update_engine.sv`)

One FSM applies one decoded message at a time to the level memories, the order-reference table and
the two best trackers. The registers and memories named `bid_*` and `ask_*` in the source are the
fields of `bid` and `ask`. A phase of the FSM is a function of the state `s` before the edge, which
it reads, and of `n`, the state with the one-cycle pulses deasserted, which it writes.
-/

namespace ItchOrderbook.Rtl

/-- `state_t` of the engine. -/
inductive EnginePhase where
  | idle
  | addTbl
  | addLvl
  | lk
  | modLvl
  | modTbl
  | empty
  | emptyWait
  | raddTbl
  | raddLvl
  | finish
  deriving DecidableEq, Repr

/-- The level memories, the counters and the tracker of one side. -/
structure SideState (c : Build) where
  sharesMem : BitVec c.levelAw → UInt32 := fun _ => 0
  countMem : BitVec c.levelAw → UInt32 := fun _ => 0
  cnt : UInt32 := 0
  totVol : UInt64 := 0
  btAddEn : Bool := false
  btAddAddr : BitVec c.levelAw := 0
  btEmptEn : Bool := false
  btEmptAddr : BitVec c.levelAw := 0
  tracker : BestTrackerState c := {}

/-- The registers and the memories of the engine, with the table and the trackers in it. -/
structure BookUpdateEngineState (c : Build) where
  table : OrderRefTableState c := {}
  bid : SideState c := {}
  ask : SideState c := {}
  state : EnginePhase := .idle
  tblCmdValid : Bool := false
  tblCmd : TblCmd := {}
  tblReq : Bool := false
  -- latched message context
  mtype : UInt8 := 0
  isReplace : Bool := false
  ref : UInt64 := 0
  newRef : UInt64 := 0
  opSide : Bool := false
  opPrice : UInt32 := 0
  opShares : UInt32 := 0
  opLocate : UInt16 := 0
  decPrice : UInt32 := 0
  decShares : UInt32 := 0
  printable : Bool := false
  -- resting-order context from the lookup
  rSide : Bool := false
  rPrice : UInt32 := 0
  rRem : UInt32 := 0
  rLocate : UInt16 := 0
  emptied : Bool := false
  newRem : UInt32 := 0
  lvlAddr : BitVec c.levelAw := 0
  -- price band
  bandValid : Bool := false
  bandBase : UInt32 := 0
  bandDrops : UInt32 := 0
  expectScan : Bool := false
  scanSeen : Bool := false
  engineDone : Bool := false
  tradeValid : Bool := false
  tradePrice : UInt32 := 0
  tradeShares : UInt32 := 0

/-- The inputs of one cycle. -/
structure EngineIn where
  rst : Bool := false
  dec : Decoded := {}
  decValid : Bool := false
  bandCfgValid : Bool := false
  bandCfgBase : UInt32 := 0

/-- `LEVEL_AW'(off)`. -/
def levelAddr (c : Build) (off : UInt32) : BitVec c.levelAw := off.toBitVec.setWidth c.levelAw

/-- `off < PRICE_W'(PRICE_LEVELS)`. -/
def inWindow (c : Build) (off : UInt32) : Bool := off < UInt32.ofNat c.priceLevels

/-- `BAND_HALF`. -/
def bandHalf (c : Build) : UInt32 := UInt32.ofNat (c.priceLevels / 2)

namespace SideState

variable {c : Build}

/-- The level memories and the counters after an order has come to a level, and the pulse to the
tracker. -/
def addLevel (s : SideState c) (addr : BitVec c.levelAw) (shares : UInt32) : SideState c :=
  { s with
    sharesMem := Function.update s.sharesMem addr (s.sharesMem addr + shares)
    countMem := Function.update s.countMem addr (s.countMem addr + 1)
    cnt := s.cnt + 1
    totVol := s.totVol + shares.toUInt64
    btAddEn := true
    btAddAddr := addr }

/-- The level memories and the counters after an order has lost `amt` shares, and with `gone` has
left. -/
def modLevel (s : SideState c) (addr : BitVec c.levelAw) (amt : UInt32) (gone : Bool) :
    SideState c :=
  { s with
    sharesMem := Function.update s.sharesMem addr (s.sharesMem addr - amt)
    countMem := if gone then Function.update s.countMem addr (s.countMem addr - 1) else s.countMem
    cnt := if gone then s.cnt - 1 else s.cnt
    totVol := s.totVol - amt.toUInt64 }

/-- The pulses to the tracker deasserted. -/
def clearPulses (s : SideState c) : SideState c := { s with btAddEn := false, btEmptEn := false }

/-- The inputs of the side's tracker. -/
def trackerIn (s : SideState c) : BestTrackerIn c where
  addEn := s.btAddEn
  addAddr := s.btAddAddr
  emptEn := s.btEmptEn
  emptAddr := s.btEmptAddr
  sideNonempty := s.cnt ≠ 0
  scanRdShares := s.sharesMem s.tracker.scanIdx

end SideState

namespace BookUpdateEngineState

variable {c : Build}

/-- The bid side or the ask side. -/
def side (s : BookUpdateEngineState c) (isBid : Bool) : SideState c :=
  if isBid then s.bid else s.ask

/-- One side replaced. -/
def setSide (s : BookUpdateEngineState c) (isBid : Bool) (side : SideState c) :
    BookUpdateEngineState c :=
  if isBid then { s with bid := side } else { s with ask := side }

/-! ## Combinational signals -/

/-- `any_scanning`. -/
def anyScanning (s : BookUpdateEngineState c) : Bool :=
  s.bid.tracker.scanning || s.ask.tracker.scanning

/-- `base_eff`: the band base an incoming Add will see. -/
def baseEff (s : BookUpdateEngineState c) (dec : Decoded) : UInt32 :=
  if s.bandValid ∨ !c.bandAutoInit then s.bandBase
  else if dec.price > bandHalf c then dec.price - bandHalf c else 0

/-- `add_in_win`. -/
def addInWin (s : BookUpdateEngineState c) (dec : Decoded) : Bool :=
  inWindow c (dec.price - s.baseEff dec)

/-- `radd_off`. -/
def raddOff (s : BookUpdateEngineState c) : UInt32 := s.decPrice - s.bandBase

/-- `dec_accept`. -/
def decAccept (s : BookUpdateEngineState c) (i : EngineIn) : Bool :=
  s.state == .idle && i.decValid

/-- `min_u`. -/
def minU (a b : UInt32) : UInt32 := if a < b then a else b

/-! ## The phases of the FSM -/

/-- The one-cycle pulses deasserted. -/
def clearPulses (s : BookUpdateEngineState c) : BookUpdateEngineState c :=
  { s with
    bid := s.bid.clearPulses
    ask := s.ask.clearPulses
    engineDone := false
    tradeValid := false
    tblCmdValid := false
    tblCmd := { s.tblCmd with unique := false } }

/-- A trade event. -/
def emitTrade (s : BookUpdateEngineState c) (price shares : UInt32) : BookUpdateEngineState c :=
  { s with tradeValid := true, tradePrice := price, tradeShares := shares }

/-- A request to the table. -/
def request (s : BookUpdateEngineState c) (cmd : TblCmd) : BookUpdateEngineState c :=
  { s with tblCmdValid := true, tblCmd := cmd, tblReq := true }

/-- `S_IDLE`: latch a message. -/
def onIdle (s n : BookUpdateEngineState c) (i : EngineIn) : BookUpdateEngineState c :=
  if i.decValid then
    let n :=
      { n with
        mtype := i.dec.mtype, ref := i.dec.orderRef, newRef := i.dec.newOrderRef
        decPrice := i.dec.price, decShares := i.dec.shares, printable := i.dec.printable
        opLocate := i.dec.stockLocate, isReplace := false }
    if i.dec.mtype = tAdd ∨ i.dec.mtype = tAddMpid then
      let n := { n with opSide := i.dec.isBid, opPrice := i.dec.price, opShares := i.dec.shares }
      if s.addInWin i.dec then
        { n with bandBase := s.baseEff i.dec, bandValid := true, state := .addTbl }
      else { n with bandDrops := s.bandDrops + 1, state := .finish }
    else if i.dec.mtype = tExec ∨ i.dec.mtype = tExecPr ∨ i.dec.mtype = tCancel
        ∨ i.dec.mtype = tDelete then
      { n with state := .lk }
    else if i.dec.mtype = tReplace then { n with isReplace := true, state := .lk }
    else if i.dec.mtype = tTrade then
      { n.emitTrade i.dec.price i.dec.shares with state := .finish }
    else { n with state := .finish }
  else n

/-- `S_ADD_TBL`. -/
def onAddTbl (s n : BookUpdateEngineState c) : BookUpdateEngineState c :=
  if !s.tblReq then
    n.request ⟨.insert, true, s.ref, s.opPrice, s.opShares, s.opSide, s.opLocate⟩
  else if s.table.done then
    if s.table.resFound then
      { n with
        tblReq := false, lvlAddr := levelAddr c (s.opPrice - s.bandBase), state := .addLvl }
    else
      -- never create depth that has no corresponding reference-table entry
      { n with tblReq := false, state := .finish }
  else n

/-- `S_ADD_LVL`. -/
def onAddLvl (s n : BookUpdateEngineState c) : BookUpdateEngineState c :=
  { n.setSide s.opSide ((n.side s.opSide).addLevel s.lvlAddr s.opShares) with state := .finish }

/-- `S_LK`. -/
def onLk (s n : BookUpdateEngineState c) : BookUpdateEngineState c :=
  if !s.tblReq then n.request { n.tblCmd with op := .lookup, ref := s.ref }
  else if s.table.done then
    if !s.table.resFound then { n with tblReq := false, state := .finish }
    else
      { n with
        tblReq := false, rSide := s.table.resIsBid, rPrice := s.table.resPrice
        rRem := s.table.resShares, rLocate := s.table.resLocate
        lvlAddr := levelAddr c (s.table.resPrice - s.bandBase), state := .modLvl }
  else n

/-- The amount a modify message takes from the resting order. -/
def modAmt (s : BookUpdateEngineState c) : UInt32 :=
  if s.mtype = tDelete ∨ s.isReplace then s.rRem else minU s.decShares s.rRem

/-- `S_MOD_LVL`. -/
def onModLvl (s n : BookUpdateEngineState c) : BookUpdateEngineState c :=
  let amt := s.modAmt
  let nrem := s.rRem - amt
  let n := n.setSide s.rSide ((n.side s.rSide).modLevel s.lvlAddr amt (nrem == 0))
  let n :=
    { n with
      newRem := nrem, emptied := (s.side s.rSide).sharesMem s.lvlAddr - amt == 0
      state := .modTbl }
  if s.mtype = tExec then n.emitTrade s.rPrice amt
  else if s.mtype = tExecPr ∧ s.printable then n.emitTrade s.decPrice amt
  else n

/-- `S_MOD_TBL`. -/
def onModTbl (s n : BookUpdateEngineState c) : BookUpdateEngineState c :=
  if !s.tblReq then
    if s.newRem = 0 then n.request { n.tblCmd with op := .delete, ref := s.ref }
    else
      n.request
        { n.tblCmd with
          op := .insert, ref := s.ref, price := s.rPrice, shares := s.newRem, isBid := s.rSide
          locate := s.rLocate }
  else if s.table.done then { n with tblReq := false, state := .empty }
  else n

/-- `S_EMPTY`: tell the tracker of an emptied level, and whether a scan is expected. -/
def onEmpty (s n : BookUpdateEngineState c) : BookUpdateEngineState c :=
  let n := { n with expectScan := false, scanSeen := false, state := .emptyWait }
  if s.emptied then
    let side := s.side s.rSide
    let n := n.setSide s.rSide
      { n.side s.rSide with btEmptEn := true, btEmptAddr := s.lvlAddr }
    if side.tracker.bestValid ∧ s.lvlAddr = side.tracker.bestAddr ∧ side.cnt ≠ 0 then
      { n with expectScan := true }
    else n
  else n

/-- `S_EMPTY_WAIT`: wait for the scan to begin and to end, when there is one. -/
def onEmptyWait (s n : BookUpdateEngineState c) : BookUpdateEngineState c :=
  let n := if s.anyScanning then { n with scanSeen := true } else n
  if !s.expectScan ∨ (s.scanSeen ∧ !s.anyScanning) then
    if s.isReplace ∧ inWindow c s.raddOff then { n with state := .raddTbl }
    else if s.isReplace then { n with bandDrops := s.bandDrops + 1, state := .finish }
    else { n with state := .finish }
  else n

/-- `S_RADD_TBL`. -/
def onRaddTbl (s n : BookUpdateEngineState c) : BookUpdateEngineState c :=
  if !s.tblReq then
    n.request ⟨.insert, true, s.newRef, s.decPrice, s.decShares, s.rSide, s.rLocate⟩
  else if s.table.done then
    if s.table.resFound then
      { n with tblReq := false, lvlAddr := levelAddr c s.raddOff, state := .raddLvl }
    else { n with tblReq := false, state := .finish }
  else n

/-- `S_RADD_LVL`. -/
def onRaddLvl (s n : BookUpdateEngineState c) : BookUpdateEngineState c :=
  { n.setSide s.rSide ((n.side s.rSide).addLevel s.lvlAddr s.decShares) with state := .finish }

/-- The clocked process of the FSM, without `rst` and band configuration. -/
def fsm (s : BookUpdateEngineState c) (i : EngineIn) : BookUpdateEngineState c :=
  let n := s.clearPulses
  match s.state with
  | .idle => s.onIdle n i
  | .addTbl => s.onAddTbl n
  | .addLvl => s.onAddLvl n
  | .lk => s.onLk n
  | .modLvl => s.onModLvl n
  | .modTbl => s.onModTbl n
  | .empty => s.onEmpty n
  | .emptyWait => s.onEmptyWait n
  | .raddTbl => s.onRaddTbl n
  | .raddLvl => s.onRaddLvl n
  | .finish => { n with engineDone := true, state := .idle }

/-! ## One clock edge -/

/-- `rst` of a side: the counters and the pulses, not the level memories. -/
def resetSide (s : SideState c) : SideState c :=
  { s with cnt := 0, totVol := 0, btAddEn := false, btEmptEn := false, tracker := s.tracker.reset }

/-- `rst`. -/
def reset (s : BookUpdateEngineState c) : BookUpdateEngineState c :=
  { s with
    table := s.table.reset
    bid := resetSide s.bid
    ask := resetSide s.ask
    state := .idle
    tblCmdValid := false
    tblCmd := { s.tblCmd with unique := false }
    tblReq := false
    isReplace := false
    bandValid := false
    bandBase := 0
    bandDrops := 0
    expectScan := false
    scanSeen := false
    engineDone := false
    tradeValid := false }

/-- The table and the trackers clocked, with the engine's registers before the edge as their
inputs. -/
def clockUnits (s n : BookUpdateEngineState c) : BookUpdateEngineState c :=
  { n with
    table := s.table.step s.tblCmdValid s.tblCmd
    bid := { n.bid with tracker := s.bid.tracker.step true s.bid.trackerIn }
    ask := { n.ask with tracker := s.ask.tracker.step false s.ask.trackerIn } }

/-- One clock edge. -/
def step (s : BookUpdateEngineState c) (i : EngineIn) : BookUpdateEngineState c :=
  if i.rst then s.reset
  else if i.bandCfgValid then
    s.clockUnits { s with bandBase := i.bandCfgBase, bandValid := true }
  else s.clockUnits (s.fsm i)

/-! ## Outputs -/

/-- `best_bid_valid`, `best_ask_valid`. -/
def bestValid (s : BookUpdateEngineState c) (isBid : Bool) : Bool := (s.side isBid).tracker.bestValid

/-- `best_bid_price`, `best_ask_price`. -/
def bestPrice (s : BookUpdateEngineState c) (isBid : Bool) : UInt32 :=
  if s.bestValid isBid then
    s.bandBase + UInt32.ofNat (s.side isBid).tracker.bestAddr.toNat
  else 0

/-- `best_bid_shares`, `best_ask_shares`. -/
def bestShares (s : BookUpdateEngineState c) (isBid : Bool) : UInt32 :=
  if s.bestValid isBid then (s.side isBid).sharesMem (s.side isBid).tracker.bestAddr else 0

/-- `tot_bid_vol`, `tot_ask_vol`. -/
def totVol (s : BookUpdateEngineState c) (isBid : Bool) : UInt64 := (s.side isBid).totVol

/-- `dbg_shares`. -/
def dbgShares (s : BookUpdateEngineState c) (isBid : Bool) (price : UInt32) : UInt32 :=
  (s.side isBid).sharesMem (levelAddr c (price - s.bandBase))

/-- `dbg_count`. -/
def dbgCount (s : BookUpdateEngineState c) (isBid : Bool) (price : UInt32) : UInt32 :=
  (s.side isBid).countMem (levelAddr c (price - s.bandBase))

end BookUpdateEngineState

end ItchOrderbook.Rtl
