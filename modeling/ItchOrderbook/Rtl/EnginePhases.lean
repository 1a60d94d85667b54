import ItchOrderbook.Rtl.BookCore
import ItchOrderbook.Rtl.StatsEngine

/-!
# The phases of the engine

A run of cycles is followed by the phase the engine is in (`Sit`): each phase has a lemma that says
which phase comes next and what has become of the book and of the latched message. A phase with a
request waits for the table (`Sit.call`), `S_EMPTY_WAIT` for a tracker's scan (`Scanning.run`).
-/

namespace ItchOrderbook.Rtl

variable {c : Build}

/-! ## What lasts from one message to the next -/

/-- The best level of a tracker. -/
def BestTrackerState.best (t : BestTrackerState c) : Option (BitVec c.levelAw) :=
  if t.bestValid then some t.bestAddr else none

/-- A side as the messages see it. -/
def SideState.core (s : SideState c) : SideCore c where
  sharesMem := s.sharesMem
  countMem := s.countMem
  cnt := s.cnt
  totVol := s.totVol
  best := s.tracker.best

/-- The engine as the messages see it, with given trade sums. -/
def BookUpdateEngineState.core (e : BookUpdateEngineState c) (sums : TradeSums) : BookCore c where
  table := e.table.core
  bid := e.bid.core
  ask := e.ask.core
  bandValid := e.bandValid
  bandBase := e.bandBase
  bandDrops := e.bandDrops
  sums := sums

/-- The sums accumulated. -/
def StatsEngineState.sums (s : StatsEngineState) : TradeSums := ⟨s.vwapNum, s.vwapDen, s.tradeCount⟩

/-- The sums once the staged product has been accumulated. -/
def StatsEngineState.settled (s : StatsEngineState) : TradeSums :=
  if s.tvQ then s.sums.add s.prodQ s.shQ else s.sums

/-- The sums with the trade event the engine raises. -/
def BookUpdateEngineState.emitted (e : BookUpdateEngineState c) (sums : TradeSums) : TradeSums :=
  if e.tradeValid then sums.trade e.tradePrice e.tradeShares else sums

/-- The sums once every trade event on its way has been accumulated. -/
def BookState.settled (s : BookState c) : TradeSums := s.engine.emitted s.stats.settled

/-- The book as the messages see it. -/
def BookState.core (s : BookState c) : BookCore c := s.engine.core s.settled

/-- A cycle moves the trade events on, and adds the one the engine raises. -/
theorem BookState.settled_step {s : BookState c} {i : EngineIn} (hi : i.rst = false) :
    (s.step i).settled = (s.engine.step i).emitted s.settled := by
  have hstats : (s.step i).stats.settled = s.settled := by
    unfold BookState.step BookState.settled BookUpdateEngineState.emitted
    simp only [hi, Bool.false_eq_true, if_false]
    unfold StatsEngineState.settled StatsEngineState.step
    cases s.stats.tvQ <;> cases s.engine.tradeValid <;> rfl
  rw [← hstats]
  rfl

/-- The message latched, and what the phases have written down about it. -/
structure Latch (c : Build) where
  mtype : UInt8
  isReplace : Bool
  ref : UInt64
  newRef : UInt64
  opSide : Bool
  opPrice : UInt32
  opShares : UInt32
  opLocate : UInt16
  decPrice : UInt32
  decShares : UInt32
  printable : Bool
  rSide : Bool
  rPrice : UInt32
  rRem : UInt32
  rLocate : UInt16
  emptied : Bool
  newRem : UInt32
  lvlAddr : BitVec c.levelAw

/-- What the LOOKUP of a resting order leaves in the registers. -/
def Latch.resting (l : Latch c) (t : TableCore c) (base : UInt32) : Latch c :=
  { l with
    rSide := t.resIsBid, rPrice := t.resPrice, rRem := t.resShares, rLocate := t.resLocate
    lvlAddr := levelAddr c (t.resPrice - base) }

/-- The amount a modify message takes from the resting order. -/
def Latch.modAmt (l : Latch c) : UInt32 :=
  if l.mtype = tDelete ∨ l.isReplace then l.rRem
  else BookUpdateEngineState.minU l.decShares l.rRem

/-- What the level's update leaves in the registers. -/
def Latch.reduced (l : Latch c) (side : SideCore c) : Latch c :=
  { l with newRem := l.rRem - l.modAmt, emptied := side.sharesMem l.lvlAddr - l.modAmt == 0 }

/-- The command that gives the table what is left of the resting order. -/
def Latch.restCmd (l : Latch c) : TblCmd :=
  if l.newRem = 0 then { op := .delete, ref := l.ref }
  else ⟨.insert, false, l.ref, l.rPrice, l.newRem, l.rSide, l.rLocate⟩

/-- The sums with the trade event of a modify message. -/
def Latch.printed (l : Latch c) (sums : TradeSums) : TradeSums :=
  if l.mtype = tExec then sums.trade l.rPrice l.modAmt
  else if l.mtype = tExecPr ∧ l.printable then sums.trade l.decPrice l.modAmt
  else sums

/-- Where `S_EMPTY_WAIT` goes on to. -/
def Latch.after (l : Latch c) (base : UInt32) : EnginePhase :=
  if l.isReplace ∧ inWindow c (l.decPrice - base) then .raddTbl else .finish

/-- The latched registers of the engine. -/
def BookUpdateEngineState.latch (e : BookUpdateEngineState c) : Latch c where
  mtype := e.mtype
  isReplace := e.isReplace
  ref := e.ref
  newRef := e.newRef
  opSide := e.opSide
  opPrice := e.opPrice
  opShares := e.opShares
  opLocate := e.opLocate
  decPrice := e.decPrice
  decShares := e.decShares
  printable := e.printable
  rSide := e.rSide
  rPrice := e.rPrice
  rRem := e.rRem
  rLocate := e.rLocate
  emptied := e.emptied
  newRem := e.newRem
  lvlAddr := e.lvlAddr

/-! ## Quiet units -/

/-- No pulse to the tracker, and no scan. -/
structure SideState.Quiet (s : SideState c) : Prop where
  addEn : s.btAddEn = false
  emptEn : s.btEmptEn = false
  tracker : s.tracker.state = .idle

/-- Neither side has anything to do. -/
structure BookUpdateEngineState.Quiet (e : BookUpdateEngineState c) : Prop where
  bid : e.bid.Quiet
  ask : e.ask.Quiet

/-- A tracker without a pulse stays as it is. -/
theorem SideState.Quiet.tracker_step {s : SideState c} (h : s.Quiet) (isBid : Bool) :
    s.tracker.step isBid s.trackerIn = s.tracker := by
  unfold BestTrackerState.step BestTrackerState.addUpdate SideState.trackerIn
  simp only [h.tracker, h.addEn, h.emptEn, Bool.false_eq_true, false_and, if_false]

/-- A table at rest stays at rest, with the same contents. -/
theorem OrderRefTableState.Ready.tick {t : OrderRefTableState c} (h : t.Ready) :
    t.tick.Ready ∧ t.tick.done = false ∧ t.tick.core = t.core := by
  have htick : t.tick = t.clearPulses := by
    unfold OrderRefTableState.tick OrderRefTableState.step
    rw [h.state]
    rfl
  rw [htick]
  exact ⟨⟨h.state, h.marked⟩, rfl, rfl⟩

/-- What the FSM never writes: the units themselves. -/
structure BookUpdateEngineState.Unwritten (e n : BookUpdateEngineState c) : Prop where
  table : n.table = e.table
  bid : n.bid.tracker = e.bid.tracker
  ask : n.ask.tracker = e.ask.tracker

/-- One cycle with the sides quiet: the registers are those the FSM has written. -/
theorem BookUpdateEngineState.Quiet.step {e n : BookUpdateEngineState c} (h : e.Quiet)
    {i : EngineIn} (hr : i.rst = false) (hb : i.bandCfgValid = false) (hn : e.fsm i = n)
    (hu : e.Unwritten n) :
    e.step i = { n with table := e.table.step e.tblCmdValid e.tblCmd } := by
  unfold BookUpdateEngineState.step BookUpdateEngineState.clockUnits
  simp only [hr, hb, Bool.false_eq_true, if_false, h.bid.tracker_step, h.ask.tracker_step, hn]
  rw [← hu.bid, ← hu.ask]

/-! ## The phases -/

namespace BookState

/-- The engine works, with no `engine_done` raised. -/
def Busy (s : BookState c) : Prop := s.engine.state ≠ .idle ∧ s.engine.engineDone = false

/-- A cycle without inputs. -/
def work (s : BookState c) : BookState c := s.step {}

/-- The engine is in a phase with its sides quiet, a request to the table out or not. Of the book
the table is left out. -/
structure InPhase (p : EnginePhase) (req : Bool) (k : BookCore c) (l : Latch c) (s : BookState c) :
    Prop where
  state : s.engine.state = p
  req : s.engine.tblReq = req
  quiet : s.engine.Quiet
  core : { s.core with table := k.table } = k
  latch : s.engine.latch = l
  notDone : s.engine.engineDone = false

/-- The engine is in a phase with all its units quiet. -/
structure Sit (p : EnginePhase) (k : BookCore c) (l : Latch c) (s : BookState c) : Prop extends
    InPhase p false k l s where
  cmd : s.engine.tblCmdValid = false
  ready : s.engine.table.Ready
  table : s.engine.table.core = k.table

/-- The engine is in a phase whose request has just been served. -/
structure Answered (p : EnginePhase) (k : BookCore c) (l : Latch c) (s : BookState c) : Prop extends
    InPhase p true k l s where
  cmd : s.engine.tblCmdValid = false
  served : s.engine.table.Served k.table

/-- The engine is at rest. -/
structure Rest (s : BookState c) (k : BookCore c) : Prop where
  state : s.engine.state = .idle
  req : s.engine.tblReq = false
  cmd : s.engine.tblCmdValid = false
  quiet : s.engine.Quiet
  ready : s.engine.table.Ready
  noTrade : s.engine.tradeValid = false
  core : s.core = k

/-- The engine is at rest and has just raised `engine_done`. -/
def Finished (k : BookCore c) (s : BookState c) : Prop := s.Rest k ∧ s.engine.engineDone = true

variable {p p' : EnginePhase} {req : Bool} {k k' : BookCore c} {l l' : Latch c} {s : BookState c}

theorem InPhase.busy (h : InPhase p req k l s) (hp : p ≠ .idle) : s.Busy :=
  ⟨by rw [h.state]; exact hp, h.notDone⟩

theorem core_eq_of_table {k₀ k₁ : BookCore c} (h : { k₀ with table := k₁.table } = k₁)
    (ht : k₀.table = k₁.table) : k₀ = k₁ := by
  rw [← h, ← ht]

/-- One cycle with the sides quiet, once the FSM's part of it is known. -/
theorem inPhase_of_step (hq : s.engine.Quiet) {i : EngineIn} (hr : i.rst = false)
    (hb : i.bandCfgValid = false) {n : BookUpdateEngineState c} (hn : s.engine.fsm i = n)
    (hu : s.engine.Unwritten n) (hquiet : n.Quiet) (hdone : n.engineDone = false)
    (hcore : { n.core (n.emitted s.settled) with table := k'.table } = k') :
    InPhase n.state n.tblReq k' n.latch (s.step i) := by
  have hengine : (s.step i).engine
      = { n with table := (s.engine.table.step s.engine.tblCmdValid s.engine.tblCmd) } :=
    hq.step hr hb hn hu
  have hsettled : (s.step i).settled = n.emitted s.settled := by
    rw [settled_step hr, show s.engine.step i = _ from hengine]
    rfl
  refine ⟨?_, ?_, ?_, ?_, ?_, ?_⟩
  · rw [hengine]
  · rw [hengine]
  · rw [hengine]
    exact ⟨hquiet.bid, hquiet.ask⟩
  · rw [core, hsettled, hengine, ← hcore]
    rfl
  · rw [hengine]
    rfl
  · rw [hengine]
    exact hdone

/-- One cycle with all the units quiet. -/
theorem sit_of_step (hq : s.engine.Quiet) (hcmd : s.engine.tblCmdValid = false)
    (hr : s.engine.table.Ready) {i : EngineIn} (hrst : i.rst = false)
    (hcfg : i.bandCfgValid = false) {n : BookUpdateEngineState c} (hn : s.engine.fsm i = n)
    (hu : s.engine.Unwritten n) (hquiet : n.Quiet) (hncmd : n.tblCmdValid = false)
    (hreq : n.tblReq = false) (hdone : n.engineDone = false)
    (hcore : n.core (n.emitted s.settled) = k') : Sit n.state k' n.latch (s.step i) := by
  have hengine : (s.step i).engine
      = { n with table := (s.engine.table.step s.engine.tblCmdValid s.engine.tblCmd) } :=
    hq.step hrst hcfg hn hu
  have hphase : InPhase n.state n.tblReq k' n.latch (s.step i) :=
    inPhase_of_step hq hrst hcfg hn hu hquiet hdone (by rw [hcore])
  have htick := hr.tick
  rw [hreq] at hphase
  refine ⟨hphase, ?_, ?_, ?_⟩
  · rw [hengine]
    exact hncmd
  · rw [hengine, hcmd, OrderRefTableState.step_eq_tick]
    exact htick.1
  · rw [hengine, hcmd, OrderRefTableState.step_eq_tick, htick.2.2, ← hcore, ← hu.table]
    rfl

/-- The engine after a cycle with the sides quiet. -/
theorem work_engine (hq : s.engine.Quiet) {n : BookUpdateEngineState c}
    (hn : s.engine.fsm {} = n) (hu : s.engine.Unwritten n) :
    s.work.engine
      = { n with table := (s.engine.table.step s.engine.tblCmdValid s.engine.tblCmd) } :=
  hq.step (i := {}) rfl rfl hn hu

/-! ## A request to the table -/

/-- The pulses deasserted leave the units, and the sides quiet. -/
theorem unwritten_clearPulses (e : BookUpdateEngineState c) : e.Unwritten e.clearPulses :=
  ⟨rfl, rfl, rfl⟩

theorem quiet_clearPulses {e : BookUpdateEngineState c} (h : e.Quiet) : e.clearPulses.Quiet :=
  ⟨⟨rfl, rfl, h.bid.tracker⟩, ⟨rfl, rfl, h.ask.tracker⟩⟩

/-- What a phase does while its request is out. -/
def Waits (c : Build) (p : EnginePhase) : Prop :=
  ∀ e : BookUpdateEngineState c, e.state = p → e.tblReq = true → e.table.done = false →
    e.fsm {} = e.clearPulses

/-- While the table works, the engine waits. Induction on the table's run. -/
theorem InPhase.wait {P : OrderRefTableState c → Prop} (h : InPhase p true k l s) (hp : p ≠ .idle)
    (hw : Waits c p) (hcmd : s.engine.tblCmdValid = false)
    (ht : Leads OrderRefTableState.tick OrderRefTableState.Working P s.engine.table) :
    Leads work Busy (fun s' => InPhase p true k l s' ∧ s'.engine.tblCmdValid = false
      ∧ P s'.engine.table) s := by
  generalize htab : s.engine.table = t at ht
  induction ht generalizing s with
  | here hP => exact .here ⟨h, hcmd, htab ▸ hP⟩
  | @next t hb _ ih =>
    have hn := hw s.engine h.state h.req (htab ▸ hb.2)
    have hengine := work_engine h.quiet hn (unwritten_clearPulses _)
    have hphase : InPhase _ _ k _ s.work :=
      inPhase_of_step h.quiet rfl rfl hn (unwritten_clearPulses _) (quiet_clearPulses h.quiet) rfl
        h.core
    refine .next (h.busy hp) (ih ?_ ?_ ?_)
    · rw [← h.state, ← h.req, ← h.latch]
      exact hphase
    · rw [hengine]
      rfl
    · rw [hengine, hcmd, OrderRefTableState.step_eq_tick, htab]

/-- A phase with a request: it is given to the table, and served. -/
theorem Sit.call (h : Sit p k l s) (hp : p ≠ .idle) (hw : Waits c p) (cmd : TblCmd)
    (hreq : s.engine.fsm {} = s.engine.clearPulses.request cmd) :
    Leads work Busy (Answered p { k with table := k.table.exec cmd } l) s := by
  -- the cycle that gives the request
  have hu : s.engine.Unwritten (s.engine.clearPulses.request cmd) := ⟨rfl, rfl, rfl⟩
  have he1 := work_engine h.quiet hreq hu
  have h1 : InPhase p true { k with table := k.table.exec cmd } l s.work := by
    have hq := quiet_clearPulses h.quiet
    rw [← h.state, ← h.latch]
    refine inPhase_of_step h.quiet rfl rfl hreq hu ⟨hq.bid, hq.ask⟩ rfl ?_
    conv_rhs => rw [← h.core]
    rfl
  have hr1 : s.work.engine.table.Ready ∧ s.work.engine.table.done = false
      ∧ s.work.engine.table.core = k.table := by
    rw [he1, h.cmd, OrderRefTableState.step_eq_tick, ← h.table]
    exact h.ready.tick
  -- the cycle the table takes it in
  have hn2 := hw s.work.engine h1.state h1.req hr1.2.1
  have he2 := work_engine h1.quiet hn2 (unwritten_clearPulses _)
  have h2 : InPhase p true { k with table := k.table.exec cmd } l s.work.work := by
    have hphase : InPhase _ _ { k with table := k.table.exec cmd } _ s.work.work :=
      inPhase_of_step h1.quiet rfl rfl hn2 (unwritten_clearPulses _) (quiet_clearPulses h1.quiet) rfl
        h1.core
    rw [← h1.latch, ← h1.state, ← h1.req]
    exact hphase
  have hlatched : s.work.work.engine.table = s.work.engine.table.step true cmd := by
    rw [he2, he1]
    rfl
  refine .next (h.busy hp) (.next (h1.busy hp) ?_)
  have hserve := hr1.1.serve cmd
  rw [hr1.2.2, ← hlatched] at hserve
  refine (h2.wait hp hw ?_ hserve).mono fun s' hs' => ⟨hs'.1, hs'.2.1, hs'.2.2⟩
  rw [he2]
  rfl

/-! ## Phases without a request -/

theorem Sit.core_eq (h : Sit p k l s) : s.core = k := core_eq_of_table h.core h.table

/-- A side after the cycle in which its tracker sees an add pulse. -/
def afterPulse (isBid : Bool) (d : SideState c) : SideCore c :=
  if d.btAddEn then { d.core with best := d.core.raise isBid d.btAddAddr } else d.core

/-- A tracker that sees at most an add pulse takes the better level. -/
theorem best_of_addEn {d : SideState c} (isBid : Bool) (ht : d.tracker.state = .idle)
    (he : d.btEmptEn = false) :
    (d.tracker.step isBid d.trackerIn).state = .idle
      ∧ (d.tracker.step isBid d.trackerIn).best = (afterPulse isBid d).best := by
  unfold BestTrackerState.step BestTrackerState.addUpdate SideState.trackerIn afterPulse
    SideCore.raise SideState.core BestTrackerState.best
  simp only [ht, he, Bool.false_eq_true, false_and, if_false]
  cases d.btAddEn with
  | false => simp [ht]
  | true =>
    cases hv : d.tracker.bestValid with
    | false => simp
    | true => by_cases hb : BestTrackerState.better isBid d.btAddAddr d.tracker.bestAddr <;>
        simp [hb, hv, ht]

/-- The last cycle: `engine_done`, while the trackers take what pulses there are. -/
theorem finish_engine (hs : s.engine.state = .finish) :
    s.work.engine
      = s.engine.clockUnits { s.engine.clearPulses with engineDone := true, state := .idle } := by
  show s.engine.step {} = _
  unfold BookUpdateEngineState.step
  simp only [Bool.false_eq_true, if_false]
  unfold BookUpdateEngineState.fsm
  rw [hs]

/-- `S_FINISH`, with an add pulse still on its way to a tracker. -/
theorem finish_of (hs : s.engine.state = .finish) (hreq : s.engine.tblReq = false)
    (hcmd : s.engine.tblCmdValid = false) (hr : s.engine.table.Ready)
    (hb : s.engine.bid.tracker.state = .idle ∧ s.engine.bid.btEmptEn = false)
    (ha : s.engine.ask.tracker.state = .idle ∧ s.engine.ask.btEmptEn = false) :
    Finished { s.core with
      bid := afterPulse true s.engine.bid, ask := afterPulse false s.engine.ask } s.work := by
  have hengine := finish_engine hs
  have htick := hr.tick
  have hbid := best_of_addEn true hb.1 hb.2
  have hask := best_of_addEn false ha.1 ha.2
  have htable : s.work.engine.table = s.engine.table.tick := by
    rw [hengine]
    show s.engine.table.step _ _ = _
    rw [hcmd, OrderRefTableState.step_eq_tick]
  have hsettled : s.work.settled = s.settled := by
    rw [work, settled_step rfl, show s.engine.step {} = _ from hengine]
    rfl
  have hside (isBid : Bool) (d : SideState c)
      (hd : (d.tracker.step isBid d.trackerIn).best = (afterPulse isBid d).best) :
      SideState.core { d.clearPulses with tracker := d.tracker.step isBid d.trackerIn }
        = afterPulse isBid d := by
    show SideCore.mk _ _ _ _ (BestTrackerState.best _) = _
    rw [hd]
    unfold afterPulse
    split <;> rfl
  refine ⟨⟨?_, ?_, ?_, ?_, ?_, ?_, ?_⟩, ?_⟩
  · rw [hengine]
    rfl
  · rw [hengine]
    exact hreq
  · rw [hengine]
    rfl
  · rw [hengine]
    exact ⟨⟨rfl, rfl, hbid.1⟩, ⟨rfl, rfl, hask.1⟩⟩
  · rw [htable]
    exact htick.1
  · rw [hengine]
    rfl
  · have hcore : s.work.core = { s.core with
        table := s.work.engine.table.core
        bid := s.work.engine.bid.core
        ask := s.work.engine.ask.core } := by
      rw [core, hsettled, hengine]
      rfl
    rw [hcore, htable, htick.2.2, ← hside true _ hbid.2, ← hside false _ hask.2, hengine]
    rfl
  · rw [hengine]
    rfl

/-- `S_FINISH` with all the units quiet. -/
theorem Sit.finish (h : Sit .finish k l s) : Leads work Busy (Finished k) s := by
  refine .next (h.busy (fun h => (by cases h))) (.here ?_)
  have hdone := finish_of h.state h.req h.cmd h.ready ⟨h.quiet.bid.tracker, h.quiet.bid.emptEn⟩
    ⟨h.quiet.ask.tracker, h.quiet.ask.emptEn⟩
  have hside (isBid : Bool) {d : SideState c} (hd : d.Quiet) : afterPulse isBid d = d.core := by
    rw [afterPulse, hd.addEn]
    rfl
  rw [hside true h.quiet.bid, hside false h.quiet.ask] at hdone
  rw [← h.core_eq]
  exact hdone

/-- `S_ADD_LVL` and `S_RADD_LVL`: the level, and the tracker's pulse. -/
theorem Sit.level (h : Sit p k l s) (hp : p ≠ .idle) (isBid : Bool) (a : BitVec c.levelAw)
    (shares : UInt32)
    (hn : s.engine.fsm {} = { s.engine.clearPulses.setSide isBid
      ((s.engine.clearPulses.side isBid).addLevel a shares) with state := .finish }) :
    Leads work Busy (Finished (k.setSide isBid ((k.side isBid).add isBid a shares))) s := by
  have hu : s.engine.Unwritten { s.engine.clearPulses.setSide isBid
      ((s.engine.clearPulses.side isBid).addLevel a shares) with state := .finish } := by
    cases isBid <;> exact ⟨rfl, rfl, rfl⟩
  have hengine := work_engine h.quiet hn hu
  have htick := h.ready.tick
  have hsettled : s.work.settled = s.settled := by
    rw [work, settled_step rfl, show s.engine.step {} = _ from hengine]
    cases isBid <;> rfl
  have htable : s.work.engine.table = s.engine.table.tick := by
    rw [hengine, h.cmd, OrderRefTableState.step_eq_tick]
  have hdone := finish_of (s := s.work) (by rw [hengine])
    (by rw [hengine]; cases isBid <;> exact h.req) (by rw [hengine]; cases isBid <;> rfl)
    (by rw [htable]; exact htick.1)
    (by rw [hengine]; cases isBid <;> exact ⟨h.quiet.bid.tracker, rfl⟩)
    (by rw [hengine]; cases isBid <;> exact ⟨h.quiet.ask.tracker, rfl⟩)
  refine .next (h.busy hp) (.next ⟨?_, ?_⟩ (.here ?_))
  · rw [hengine]
    exact fun h => (by cases h)
  · rw [hengine]
    cases isBid <;> rfl
  · have hcore : s.work.core = { s.core with
        table := s.work.engine.table.core
        bid := s.work.engine.bid.core
        ask := s.work.engine.ask.core } := by
      rw [core, hsettled, hengine]
      cases isBid <;> rfl
    rw [hcore, htable, htick.2.2, hengine] at hdone
    rw [← h.core_eq]
    cases isBid <;> exact hdone

/-! ## The add path -/

theorem Answered.core_eq (h : Answered p k l s) : s.core = k :=
  core_eq_of_table h.core h.served.core

theorem Answered.resFound (h : Answered p k l s) :
    s.engine.table.resFound = k.table.resFound := congrArg TableCore.resFound h.served.core

/-- The cycle that takes the answer to a request and goes on to the next phase. -/
theorem Answered.next (h : Answered p k l s) {n : BookUpdateEngineState c}
    (hn : s.engine.fsm {} = n) (hu : s.engine.Unwritten n) (hquiet : n.Quiet)
    (hncmd : n.tblCmdValid = false) (hreq : n.tblReq = false) (hdone : n.engineDone = false)
    (hcore : n.core (n.emitted s.settled) = s.core) : Sit n.state k n.latch s.work :=
  sit_of_step h.quiet h.cmd h.served.toReady rfl rfl hn hu hquiet hncmd hreq hdone
    (hcore.trans h.core_eq)

/-- A phase `p` that makes an INSERT, and the phase `lvl` that adds to the level of its order. The
Add path and the second half of a Replace are the two of them. -/
structure InsertPath (c : Build) (p lvl : EnginePhase) (cmd : Latch c → TblCmd) : Prop where
  busy : p ≠ .idle ∧ lvl ≠ .idle
  waits : Waits c p
  request : ∀ e : BookUpdateEngineState c, e.state = p → e.tblReq = false →
    e.fsm {} = e.clearPulses.request (cmd e.latch)
  answer : ∀ e : BookUpdateEngineState c, e.state = p → e.tblReq = true → e.table.done = true →
    e.fsm {} = if e.table.resFound then
      { e.clearPulses with
        tblReq := false, lvlAddr := levelAddr c ((cmd e.latch).price - e.bandBase), state := lvl }
    else { e.clearPulses with tblReq := false, state := .finish }
  level : ∀ e : BookUpdateEngineState c, e.state = lvl → e.fsm {} =
    { e.clearPulses.setSide (cmd e.latch).isBid
        ((e.clearPulses.side (cmd e.latch).isBid).addLevel e.lvlAddr (cmd e.latch).shares) with
      state := .finish }
  keeps : ∀ l a, cmd { l with lvlAddr := a } = cmd l

/-- The INSERT of an order and, when it was stored, the level. -/
theorem Sit.insert {lvl : EnginePhase} {cmd : Latch c → TblCmd} (h : Sit p k l s)
    (path : InsertPath c p lvl cmd) : Leads work Busy (Finished (k.arrive (cmd l))) s := by
  have hreq := path.request s.engine h.state h.req
  rw [h.latch] at hreq
  refine (h.call path.busy.1 path.waits (cmd l) hreq).bind fun s' h' => .next
    (h'.busy path.busy.1) ?_
  have hn := path.answer s'.engine h'.state h'.req h'.served.done
  rw [h'.resFound, h'.latch] at hn
  have hq := quiet_clearPulses h'.quiet
  unfold BookCore.arrive
  cases hf : (k.table.exec (cmd l)).resFound with
  | false =>
    simp only [hf, Bool.false_eq_true, if_false] at hn ⊢
    exact (h'.next hn ⟨rfl, rfl, rfl⟩ ⟨hq.bid, hq.ask⟩ rfl rfl rfl rfl).finish
  | true =>
    simp only [hf, if_true] at hn ⊢
    have hsit := h'.next hn ⟨rfl, rfl, rfl⟩ ⟨hq.bid, hq.ask⟩ rfl rfl rfl rfl
    -- the command is the one the order came with, its level that of the price
    have hcmd : cmd s'.work.engine.latch = cmd l := by
      rw [hsit.latch, ← h'.latch]
      exact path.keeps s'.engine.latch _
    have hbase : s'.engine.bandBase = k.bandBase := congrArg BookCore.bandBase h'.core_eq
    have haddr : s'.work.engine.lvlAddr = levelAddr c ((cmd l).price - k.bandBase) := by
      rw [← hbase]
      exact congrArg Latch.lvlAddr hsit.latch
    have hlvl := path.level s'.work.engine hsit.state
    rw [hcmd, haddr] at hlvl
    exact hsit.level path.busy.2 _ _ _ hlvl

/-- `S_ADD_TBL` and `S_ADD_LVL`. -/
theorem addPath (c : Build) : InsertPath c .addTbl .addLvl fun l =>
    ⟨.insert, true, l.ref, l.opPrice, l.opShares, l.opSide, l.opLocate⟩ := by
  have hfsm (e : BookUpdateEngineState c) (he : e.state = .addTbl) :
      e.fsm {} = e.onAddTbl e.clearPulses := by
    unfold BookUpdateEngineState.fsm
    rw [he]
  refine ⟨⟨fun h => (by cases h), fun h => (by cases h)⟩, fun e he hr hd => ?_,
    fun e he hr => ?_, fun e he hr hd => ?_, fun e he => ?_, fun l a => rfl⟩
  · rw [hfsm e he, BookUpdateEngineState.onAddTbl, hr, hd]
    rfl
  · rw [hfsm e he, BookUpdateEngineState.onAddTbl, hr]
    rfl
  · rw [hfsm e he, BookUpdateEngineState.onAddTbl, hr, hd]
    rfl
  · unfold BookUpdateEngineState.fsm
    rw [he]
    rfl

/-- `S_RADD_TBL` and `S_RADD_LVL`. -/
theorem raddPath (c : Build) : InsertPath c .raddTbl .raddLvl fun l =>
    ⟨.insert, true, l.newRef, l.decPrice, l.decShares, l.rSide, l.rLocate⟩ := by
  have hfsm (e : BookUpdateEngineState c) (he : e.state = .raddTbl) :
      e.fsm {} = e.onRaddTbl e.clearPulses := by
    unfold BookUpdateEngineState.fsm
    rw [he]
  refine ⟨⟨fun h => (by cases h), fun h => (by cases h)⟩, fun e he hr hd => ?_,
    fun e he hr => ?_, fun e he hr hd => ?_, fun e he => ?_, fun l a => rfl⟩
  · rw [hfsm e he, BookUpdateEngineState.onRaddTbl, hr, hd]
    rfl
  · rw [hfsm e he, BookUpdateEngineState.onRaddTbl, hr]
    rfl
  · rw [hfsm e he, BookUpdateEngineState.onRaddTbl, hr, hd]
    rfl
  · unfold BookUpdateEngineState.fsm
    rw [he]
    rfl

/-! ## The modify path: the lookup and the level -/

/-- A LOOKUP reads nothing of its command but the reference. -/
theorem exec_lookup (t : TableCore c) {q : TblCmd} (hq : q.op = .lookup) :
    t.exec q = t.exec { op := .lookup, ref := q.ref } := by
  unfold TableCore.exec
  rw [hq]

/-- A DELETE reads nothing of its command but the reference. -/
theorem exec_delete (t : TableCore c) {q : TblCmd} (hq : q.op = .delete) :
    t.exec q = t.exec { op := .delete, ref := q.ref } := by
  unfold TableCore.exec
  rw [hq]

/-- `S_LK`. -/
theorem Sit.lookup (h : Sit .lk k l s) :
    Leads work Busy (fun s' =>
      if (k.lookup l.ref).table.resFound then
        Sit .modLvl (k.lookup l.ref) (l.resting (k.lookup l.ref).table k.bandBase) s'
      else Finished (k.lookup l.ref) s') s := by
  have hfsm (e : BookUpdateEngineState c) (he : e.state = .lk) :
      e.fsm {} = e.onLk e.clearPulses := by
    unfold BookUpdateEngineState.fsm
    rw [he]
  have hwaits : Waits c .lk := by
    intro e he hr hd
    rw [hfsm e he, BookUpdateEngineState.onLk, hr, hd]
    rfl
  have hreq : s.engine.fsm {} = s.engine.clearPulses.request
      { s.engine.clearPulses.tblCmd with op := .lookup, ref := l.ref } := by
    rw [hfsm _ h.state, BookUpdateEngineState.onLk, h.req, ← h.latch]
    rfl
  have hcall := h.call (fun h => (by cases h)) hwaits _ hreq
  rw [exec_lookup _ rfl] at hcall
  refine hcall.bind fun s' h' => .next (h'.busy fun h => (by cases h)) ?_
  have hn := hfsm _ h'.state
  rw [BookUpdateEngineState.onLk, h'.req, h'.served.done, h'.resFound] at hn
  have hq := quiet_clearPulses h'.quiet
  show Leads work Busy (fun s' => if (k.table.exec { op := .lookup, ref := l.ref }).resFound
    then _ else _) _
  cases hf : (k.table.exec { op := .lookup, ref := l.ref }).resFound with
  | false =>
    simp only [hf, Bool.not_true, Bool.not_false, Bool.false_eq_true, if_false, if_true] at hn ⊢
    exact (h'.next hn ⟨rfl, rfl, rfl⟩ ⟨hq.bid, hq.ask⟩ rfl rfl rfl rfl).finish
  | true =>
    simp only [hf, Bool.not_true, Bool.false_eq_true, if_false, if_true] at hn ⊢
    have hsit := h'.next hn ⟨rfl, rfl, rfl⟩ ⟨hq.bid, hq.ask⟩ rfl rfl rfl rfl
    have hbase : s'.engine.bandBase = k.bandBase := congrArg BookCore.bandBase h'.core_eq
    have hres := h'.served.core
    have hlatch : ({ s'.engine.latch with
        rSide := s'.engine.table.resIsBid, rPrice := s'.engine.table.resPrice
        rRem := s'.engine.table.resShares, rLocate := s'.engine.table.resLocate
        lvlAddr := levelAddr c (s'.engine.table.resPrice - s'.engine.bandBase) } : Latch c)
        = l.resting (k.lookup l.ref).table k.bandBase := by
      rw [h'.latch, hbase]
      show _ = l.resting (k.table.exec { op := .lookup, ref := l.ref }) k.bandBase
      rw [← show s'.engine.table.core = k.table.exec { op := .lookup, ref := l.ref } from hres]
      rfl
    refine .here ?_
    rw [← hlatch]
    exact hsit

/-- The book once `S_MOD_LVL` has written the level of the resting order. -/
def modLevel (k : BookCore c) (l : Latch c) : BookCore c :=
  { k.setSide l.rSide ((k.side l.rSide).take l.lvlAddr l.modAmt (l.rRem - l.modAmt == 0)) with
    sums := l.printed k.sums }

/-- `S_MOD_LVL`. -/
theorem Sit.modLvl (h : Sit .modLvl k l s) :
    Leads work Busy (Sit .modTbl (modLevel k l) (l.reduced (k.side l.rSide))) s := by
  refine .next (h.busy fun h => (by cases h)) (.here ?_)
  obtain rfl := h.core_eq
  obtain rfl := h.latch
  have hq := quiet_clearPulses h.quiet
  -- the registers but for the trade event
  let e := s.engine
  let side := ((e.clearPulses.side e.rSide).modLevel e.lvlAddr e.modAmt (e.rRem - e.modAmt == 0))
  let n : BookUpdateEngineState c := { e.clearPulses.setSide e.rSide side with
    newRem := e.rRem - e.modAmt
    emptied := (e.side e.rSide).sharesMem e.lvlAddr - e.modAmt == 0
    state := .modTbl }
  have hfsm : e.fsm {} = if e.mtype = tExec then n.emitTrade e.rPrice e.modAmt
      else if e.mtype = tExecPr ∧ e.printable then n.emitTrade e.decPrice e.modAmt else n := by
    show BookUpdateEngineState.fsm e {} = _
    unfold BookUpdateEngineState.fsm
    rw [show e.state = .modLvl from h.state]
    rfl
  have hu : e.Unwritten n := by
    dsimp only [n, side]
    cases e.rSide <;> exact ⟨rfl, rfl, rfl⟩
  have hquiet : n.Quiet := by
    dsimp only [n, side]
    cases e.rSide <;> exact ⟨⟨rfl, rfl, hq.bid.tracker⟩, ⟨rfl, rfl, hq.ask.tracker⟩⟩
  have hlatch : n.latch = e.latch.reduced (s.core.side e.latch.rSide) := by
    dsimp only [n, side]
    show _ = e.latch.reduced (s.core.side e.rSide)
    cases e.rSide <;> rfl
  have hcore (sums : TradeSums) :
      n.core sums = { modLevel s.core e.latch with sums := sums } := by
    show _ = { s.core.setSide e.rSide ((s.core.side e.rSide).take e.lvlAddr e.modAmt
      (e.rRem - e.modAmt == 0)) with sums := sums }
    dsimp only [n, side]
    cases e.rSide <;> rfl
  have hregs : n.tblCmdValid = false ∧ n.tblReq = false ∧ n.engineDone = false := by
    have := h.req
    dsimp only [n, side]
    cases e.rSide <;> exact ⟨rfl, this, rfl⟩
  have hprint : (modLevel s.core e.latch).sums = e.latch.printed s.settled := rfl
  have htv : n.tradeValid = false := by
    dsimp only [n, side]
    cases e.rSide <;> rfl
  have hsit {n' : BookUpdateEngineState c} (hn : s.engine.fsm {} = n')
      (hu : s.engine.Unwritten n') (hquiet : n'.Quiet)
      (hreg : n'.tblCmdValid = false ∧ n'.tblReq = false ∧ n'.engineDone = false)
      (hstate : n'.state = .modTbl) (hlatch' : n'.latch = n.latch)
      (hcore' : n'.core (n'.emitted s.settled) = n.core (e.latch.printed s.settled)) :
      Sit .modTbl (modLevel s.core s.engine.latch)
        (s.engine.latch.reduced (s.core.side s.engine.latch.rSide)) s.work := by
    rw [hcore, ← hprint] at hcore'
    have := sit_of_step h.quiet h.cmd h.ready rfl rfl hn hu hquiet hreg.1 hreg.2.1 hreg.2.2 hcore'
    rwa [hlatch', hlatch, hstate] at this
  unfold Latch.printed at hsit
  by_cases hE : e.mtype = tExec
  · rw [if_pos hE] at hfsm
    rw [if_pos (show e.latch.mtype = tExec from hE)] at hsit
    exact hsit hfsm ⟨hu.table, hu.bid, hu.ask⟩ ⟨hquiet.bid, hquiet.ask⟩ hregs rfl rfl rfl
  · rw [if_neg hE] at hfsm
    rw [if_neg (show ¬e.latch.mtype = tExec from hE)] at hsit
    by_cases hC : e.mtype = tExecPr ∧ e.printable = true
    · rw [if_pos hC] at hfsm
      rw [if_pos (show e.latch.mtype = tExecPr ∧ e.latch.printable = true from hC)] at hsit
      exact hsit hfsm ⟨hu.table, hu.bid, hu.ask⟩ ⟨hquiet.bid, hquiet.ask⟩ hregs rfl rfl rfl
    · rw [if_neg hC] at hfsm
      rw [if_neg (show ¬(e.latch.mtype = tExecPr ∧ e.latch.printable = true) from hC)] at hsit
      refine hsit hfsm hu hquiet hregs rfl rfl ?_
      rw [BookUpdateEngineState.emitted, htv]
      rfl

/-- `S_MOD_TBL`. -/
theorem Sit.modTbl (h : Sit .modTbl k l s) :
    Leads work Busy (Sit .empty { k with table := k.table.exec l.restCmd } l) s := by
  have hfsm (e : BookUpdateEngineState c) (he : e.state = .modTbl) :
      e.fsm {} = e.onModTbl e.clearPulses := by
    unfold BookUpdateEngineState.fsm
    rw [he]
  have hwaits : Waits c .modTbl := by
    intro e he hr hd
    rw [hfsm e he, BookUpdateEngineState.onModTbl, hr, hd]
    rfl
  have hcall : Leads work Busy (Answered .modTbl { k with table := k.table.exec l.restCmd } l) s := by
    obtain rfl := h.latch
    have hreq := hfsm _ h.state
    rw [BookUpdateEngineState.onModTbl, h.req] at hreq
    unfold Latch.restCmd
    by_cases hz : s.engine.newRem = 0
    · simp only [hz, Bool.not_false, if_true] at hreq
      have := h.call (fun h => (by cases h)) hwaits _ hreq
      rw [exec_delete _ rfl] at this
      rw [if_pos (show s.engine.latch.newRem = 0 from hz)]
      exact this
    · simp only [hz, Bool.not_false, if_true, if_false] at hreq
      rw [if_neg (show ¬s.engine.latch.newRem = 0 from hz)]
      exact h.call (fun h => (by cases h)) hwaits _ hreq
  refine hcall.bind fun s' h' => .next (h'.busy fun h => (by cases h)) (.here ?_)
  have hn := hfsm _ h'.state
  rw [BookUpdateEngineState.onModTbl, h'.req, h'.served.done] at hn
  simp only [Bool.not_true, Bool.false_eq_true, if_false, if_true] at hn
  have hq := quiet_clearPulses h'.quiet
  have hsit : Sit .empty _ s'.engine.latch s'.work :=
    h'.next hn ⟨rfl, rfl, rfl⟩ ⟨hq.bid, hq.ask⟩ rfl rfl rfl rfl
  rwa [h'.latch] at hsit

/-! ## The modify path: the emptied level -/

/-- The drop of a Replace whose new price is outside the band. -/
def dropped (k : BookCore c) (l : Latch c) : BookCore c :=
  if l.isReplace ∧ ¬inWindow c (l.decPrice - k.bandBase) then k.drop else k

/-- The book after the trackers have seen their pulses. -/
def trackersStepped (e : BookUpdateEngineState c) (k : BookCore c) : BookCore c :=
  { k with
    bid := { k.bid with best := (e.bid.tracker.step true e.bid.trackerIn).best }
    ask := { k.ask with best := (e.ask.tracker.step false e.ask.trackerIn).best } }

/-- The book after any cycle without inputs. -/
theorem work_core {n : BookUpdateEngineState c} (hn : s.engine.fsm {} = n) :
    s.work.engine = s.engine.clockUnits n
      ∧ s.work.core = { trackersStepped s.engine (n.core (n.emitted s.settled)) with
          table := (s.engine.table.step s.engine.tblCmdValid s.engine.tblCmd).core } := by
  have hengine : s.work.engine = s.engine.clockUnits n := by
    show s.engine.step {} = _
    unfold BookUpdateEngineState.step
    simp only [Bool.false_eq_true, if_false, hn]
  refine ⟨hengine, ?_⟩
  rw [core, work, settled_step rfl, show s.engine.step {} = _ from hengine]
  show BookUpdateEngineState.core (s.work.engine) _ = _
  rw [hengine]
  rfl

/-- The last cycle of `S_EMPTY_WAIT`. A tracker may see in it the pulse of a level that needs no
scan. -/
theorem leave (hs : s.engine.state = .emptyWait) (hreq : s.engine.tblReq = false)
    (hcmd : s.engine.tblCmdValid = false) (hr : s.engine.table.Ready) (hl : s.engine.latch = l)
    (hidle : s.engine.anyScanning = false)
    (hgo : s.engine.expectScan = false ∨ s.engine.scanSeen = true)
    (hbid : (s.engine.bid.tracker.step true s.engine.bid.trackerIn).state = .idle)
    (hask : (s.engine.ask.tracker.step false s.engine.ask.trackerIn).state = .idle) :
    Sit (l.after s.engine.bandBase) (trackersStepped s.engine (dropped s.core l)) l s.work := by
  subst hl
  let e := s.engine
  have hcond : (!e.expectScan) = true ∨ e.scanSeen = true ∧ (!false) = true := by
    rcases hgo with h | h
    · exact Or.inl (by rw [show e.expectScan = false from h]; rfl)
    · exact Or.inr ⟨h, rfl⟩
  let n : BookUpdateEngineState c := { e.clearPulses with
    bandDrops := if e.isReplace = true ∧ ¬inWindow c e.raddOff = true then e.bandDrops + 1
      else e.bandDrops
    state := e.latch.after e.bandBase }
  have hn : e.fsm {} = n := by
    have hfsm : e.fsm {} = e.onEmptyWait e.clearPulses := by
      unfold BookUpdateEngineState.fsm
      rw [show e.state = .emptyWait from hs]
    rw [hfsm]
    unfold BookUpdateEngineState.onEmptyWait
    simp only [show e.anyScanning = false from hidle, Bool.false_eq_true, if_false, hcond, if_true]
    have hafter : e.latch.after e.bandBase
        = if e.isReplace = true ∧ inWindow c e.raddOff = true then .raddTbl else .finish := rfl
    dsimp only [n]
    rw [hafter]
    by_cases hrep : e.isReplace = true
    · by_cases hwin : inWindow c e.raddOff = true
      · simp only [hrep, hwin, and_self, if_true, not_true, and_false, if_false]
        rfl
      · simp only [hrep, hwin, and_false, Bool.false_eq_true, not_false_iff, and_self, if_true,
          if_false]
    · simp only [hrep, Bool.false_eq_true, false_and, if_false]
      rfl
  have htick := hr.tick
  obtain ⟨hengine, hcore⟩ := work_core hn
  have htable : e.table.step e.tblCmdValid e.tblCmd = e.table.tick := by
    rw [show e.tblCmdValid = false from hcmd, OrderRefTableState.step_eq_tick]
  rw [show s.engine.table.step s.engine.tblCmdValid s.engine.tblCmd = _ from htable,
    htick.2.2] at hcore
  have hk : s.work.core = trackersStepped s.engine (dropped s.core s.engine.latch) := by
    rw [hcore]
    unfold dropped
    by_cases hd : e.isReplace = true ∧ ¬inWindow c e.raddOff = true
    · rw [if_pos (show s.engine.latch.isReplace = true ∧ ¬inWindow c
        (s.engine.latch.decPrice - s.core.bandBase) = true from hd)]
      dsimp only [n]
      rw [if_pos hd]
      rfl
    · rw [if_neg (show ¬(s.engine.latch.isReplace = true ∧ ¬inWindow c
        (s.engine.latch.decPrice - s.core.bandBase) = true) from hd)]
      dsimp only [n]
      rw [if_neg hd]
      rfl
  refine ⟨⟨?_, ?_, ?_, ?_, ?_, ?_⟩, ?_, ?_, ?_⟩
  · rw [hengine]
    rfl
  · rw [hengine]
    exact hreq
  · rw [hengine]
    exact ⟨⟨rfl, rfl, hbid⟩, ⟨rfl, rfl, hask⟩⟩
  · rw [← hk]
  · rw [hengine]
    rfl
  · rw [hengine]
    rfl
  · rw [hengine]
    rfl
  · rw [hengine]
    show (e.table.step e.tblCmdValid e.tblCmd).Ready
    rw [htable]
    exact htick.1
  · rw [← hk, hengine]
    rfl

/-- A book that differs from another in one side only. -/
theorem eq_setSide (isBid : Bool) {d : SideCore c} (hd : k'.side isBid = d)
    (ho : k'.side (!isBid) = k.side (!isBid)) (hrest : { k' with bid := k.bid, ask := k.ask } = k) :
    k' = k.setSide isBid d := by
  subst hd
  cases isBid with
  | true =>
    rw [BookCore.setSide, if_pos rfl, ← hrest]
    show k' = { k' with bid := k'.bid, ask := k.ask }
    rw [← show k'.ask = k.ask from ho]
  | false =>
    rw [BookCore.setSide, if_neg (by decide), ← hrest]
    show k' = { k' with bid := k.bid, ask := k'.ask }
    rw [← show k'.bid = k.bid from ho]

theorem side_trackersStepped (e : BookUpdateEngineState c) (k : BookCore c) (isBid : Bool) :
    (trackersStepped e k).side isBid = { k.side isBid with
      best := ((e.side isBid).tracker.step isBid (e.side isBid).trackerIn).best } := by
  cases isBid <;> rfl

/-- Quiet trackers keep the best levels. -/
theorem trackersStepped_eq (isBid : Bool) (hq : (s.engine.side (!isBid)).Quiet)
    (hk : { k with bid := s.core.bid, ask := s.core.ask } = k) :
    trackersStepped s.engine k = k.setSide isBid { k.side isBid with
      best := ((s.engine.side isBid).tracker.step isBid (s.engine.side isBid).trackerIn).best } := by
  refine eq_setSide isBid (side_trackersStepped ..) ?_ rfl
  rw [side_trackersStepped, hq.tracker_step, ← hk]
  cases isBid <;> rfl

/-- A tracker scans the levels of a side. -/
structure Scanning (isBid : Bool) (k : BookCore c) (l : Latch c) (s : BookState c) : Prop where
  state : s.engine.state = .emptyWait
  req : s.engine.tblReq = false
  cmd : s.engine.tblCmdValid = false
  ready : s.engine.table.Ready
  expect : s.engine.expectScan = true
  scan : (s.engine.side isBid).tracker.state = .scan
  other : (s.engine.side (!isBid)).Quiet
  core : s.core = k
  latch : s.engine.latch = l
  notDone : s.engine.engineDone = false

/-- The levels between an address and the end of a scan. -/
def scanLeft (isBid : Bool) (a : BitVec c.levelAw) : ℕ :=
  if isBid then a.toNat else c.priceLevels - 1 - a.toNat

theorem scanLeft_lt (isBid : Bool) (a : BitVec c.levelAw) : scanLeft isBid a < c.priceLevels := by
  have := a.isLt
  have : 0 < c.priceLevels := Nat.two_pow_pos _
  unfold scanLeft
  show (if isBid = true then a.toNat else c.priceLevels - 1 - a.toNat) < c.priceLevels
  cases isBid with
  | true => exact a.isLt
  | false =>
    simp only [Bool.false_eq_true, if_false]
    omega

/-- A scan comes one level nearer to its end. -/
theorem scanLeft_inward {isBid : Bool} {a : BitVec c.levelAw}
    (ha : a ≠ BestTrackerState.boundary c isBid) :
    scanLeft isBid (BestTrackerState.inward isBid a) + 1 = scanLeft isBid a := by
  have hlt := a.isLt
  have hone : (1 : BitVec c.levelAw).toNat = 1 := by cases c <;> rfl
  unfold scanLeft BestTrackerState.inward
  unfold BestTrackerState.boundary Build.priceLevels at ha
  cases isBid with
  | true =>
    simp only [if_true] at ha ⊢
    have hpos : a.toNat ≠ 0 := fun h => ha (BitVec.eq_of_toNat_eq (by simpa using h))
    have hsub : (a - 1).toNat = a.toNat - (1 : BitVec c.levelAw).toNat :=
      BitVec.toNat_sub_of_le (by rw [BitVec.le_def, hone]; omega)
    omega
  | false =>
    simp only [Bool.false_eq_true, if_false] at ha ⊢
    have hne : a.toNat ≠ 2 ^ c.levelAw - 1 := by
      intro h
      refine ha (BitVec.eq_of_toNat_eq ?_)
      rw [h, BitVec.toNat_ofNat, Nat.mod_eq_of_lt (by omega)]
    have hadd : (a + 1).toNat = a.toNat + 1 := by
      rw [BitVec.toNat_add, hone]
      exact Nat.mod_eq_of_lt (by omega)
    unfold Build.priceLevels
    omega

/-- The cycle of a scan, as the tracker makes it. -/
theorem scan_step {d : SideState c} (isBid : Bool) (hd : d.tracker.state = .scan) (fuel : ℕ) :
    let t := d.tracker.step isBid d.trackerIn
    if d.sharesMem d.tracker.scanIdx ≠ 0 ∨ d.tracker.scanIdx = BestTrackerState.boundary c isBid then
      t.state = .idle ∧ t.best = scan isBid d.sharesMem (fuel + 1) d.tracker.scanIdx
    else t.state = .scan ∧ t.best = d.tracker.best
      ∧ t.scanIdx = BestTrackerState.inward isBid d.tracker.scanIdx
      ∧ scan isBid d.sharesMem (fuel + 1) d.tracker.scanIdx
        = scan isBid d.sharesMem fuel t.scanIdx := by
  intro t
  have ht : t = d.tracker.step isBid d.trackerIn := rfl
  unfold BestTrackerState.step SideState.trackerIn at ht
  rw [hd] at ht
  rw [Rtl.scan]
  by_cases hm : d.sharesMem d.tracker.scanIdx ≠ 0
  · simp only [hm, ne_eq, not_false_iff, true_or, if_true] at ht ⊢
    rw [ht]
    exact ⟨rfl, rfl⟩
  · by_cases hb : d.tracker.scanIdx = BestTrackerState.boundary c isBid
    · rw [if_neg hm, if_pos hb] at ht
      rw [if_pos (Or.inr hb), if_neg hm, if_pos hb, ht]
      exact ⟨rfl, rfl⟩
    · simp only [hm, hb, or_self, if_false] at ht ⊢
      rw [ht]
      exact ⟨rfl, rfl, rfl, rfl⟩

/-- The registers of `S_EMPTY_WAIT` while a scan is on. -/
theorem fsm_scanning {e : BookUpdateEngineState c} (hs : e.state = .emptyWait)
    (hx : e.expectScan = true) (hscan : e.anyScanning = true) :
    e.fsm {} = { e.clearPulses with scanSeen := true } := by
  unfold BookUpdateEngineState.fsm
  rw [hs]
  show e.onEmptyWait e.clearPulses = _
  unfold BookUpdateEngineState.onEmptyWait
  simp only [hscan, hx, Bool.not_true, Bool.false_eq_true, and_false, or_self, if_true, if_false]

theorem anyScanning_of_scan {e : BookUpdateEngineState c} (isBid : Bool)
    (h : (e.side isBid).tracker.state = .scan) : e.anyScanning = true := by
  unfold BookUpdateEngineState.anyScanning BestTrackerState.scanning
  cases isBid with
  | true => rw [show e.bid.tracker.state = .scan from h]; rfl
  | false => rw [show e.ask.tracker.state = .scan from h]; exact Bool.or_true _

theorem anyScanning_of_quiet {e : BookUpdateEngineState c} (h : e.Quiet) :
    e.anyScanning = false := by
  unfold BookUpdateEngineState.anyScanning BestTrackerState.scanning
  rw [h.bid.tracker, h.ask.tracker]
  rfl

theorem side_clockUnits (e n : BookUpdateEngineState c) (isBid : Bool) :
    (e.clockUnits n).side isBid = { n.side isBid with
      tracker := (e.side isBid).tracker.step isBid (e.side isBid).trackerIn } := by
  cases isBid <;> rfl

theorem side_setSide (e : BookUpdateEngineState c) (isBid : Bool) (d : SideState c) :
    (e.setSide isBid d).side isBid = d ∧ (e.setSide isBid d).side (!isBid) = e.side (!isBid) := by
  cases isBid <;> exact ⟨rfl, rfl⟩

theorem side_clearPulses (e : BookUpdateEngineState c) (isBid : Bool) :
    e.clearPulses.side isBid = (e.side isBid).clearPulses := by
  cases isBid <;> rfl

theorem side_core (e : BookUpdateEngineState c) (sums : TradeSums) (isBid : Bool) :
    (e.core sums).side isBid = (e.side isBid).core := by
  cases isBid <;> rfl

/-- The state a scan ends in. -/
structure Scanned (isBid : Bool) (k : BookCore c) (l : Latch c) (s : BookState c) : Prop extends
    Sit .emptyWait k l s where
  seen : s.engine.scanSeen = true

/-- A scan runs to its end. Induction on the levels left. -/
theorem Scanning.run (isBid : Bool) (fuel : ℕ) (h : Scanning isBid k l s)
    (hf : scanLeft isBid (s.engine.side isBid).tracker.scanIdx < fuel) :
    Leads work Busy (Scanned isBid (k.setSide isBid { k.side isBid with
      best := Rtl.scan isBid (k.side isBid).sharesMem fuel
        (s.engine.side isBid).tracker.scanIdx }) l) s := by
  induction fuel generalizing s with
  | zero => exact absurd hf (Nat.not_lt_zero _)
  | succ fuel ih =>
    have hn := fsm_scanning h.state h.expect (anyScanning_of_scan isBid h.scan)
    obtain ⟨hengine, hcore⟩ := work_core hn
    have htick := h.ready.tick
    have htable : s.work.engine.table = s.engine.table.tick := by
      rw [hengine]
      show s.engine.table.step _ _ = _
      rw [h.cmd, OrderRefTableState.step_eq_tick]
    have hbusy : s.Busy := ⟨by rw [h.state]; exact fun h => (by cases h), h.notDone⟩
    have hside := side_clockUnits s.engine { s.engine.clearPulses with scanSeen := true } isBid
    have hother := side_clockUnits s.engine { s.engine.clearPulses with scanSeen := true } (!isBid)
    rw [← hengine] at hside hother
    rw [h.other.tracker_step] at hother
    have hmem : (k.side isBid).sharesMem = (s.engine.side isBid).sharesMem := by
      rw [← h.core]
      cases isBid <;> rfl
    have hk : s.work.core = k.setSide isBid { k.side isBid with
        best := ((s.engine.side isBid).tracker.step isBid (s.engine.side isBid).trackerIn).best } := by
      have hsame : s.work.core = trackersStepped s.engine s.core := by
        rw [hcore, show s.engine.table.step _ _ = s.engine.table.tick by
          rw [h.cmd, OrderRefTableState.step_eq_tick], htick.2.2]
        rfl
      rw [hsame, trackersStepped_eq isBid h.other rfl, h.core]
    have hregs : s.work.engine.state = .emptyWait ∧ s.work.engine.tblReq = false
        ∧ s.work.engine.tblCmdValid = false ∧ s.work.engine.latch = l
        ∧ s.work.engine.engineDone = false ∧ s.work.engine.expectScan = true
        ∧ s.work.engine.scanSeen = true := by
      rw [hengine]
      exact ⟨h.state, h.req, rfl, h.latch, rfl, h.expect, rfl⟩
    have hquiet : (s.work.engine.side (!isBid)).Quiet := by
      rw [hother]
      cases isBid with
      | true => exact ⟨rfl, rfl, h.other.tracker⟩
      | false => exact ⟨rfl, rfl, h.other.tracker⟩
    have hpulses : (s.work.engine.side isBid).btAddEn = false
        ∧ (s.work.engine.side isBid).btEmptEn = false := by
      rw [hside]
      cases isBid with
      | true => exact ⟨rfl, rfl⟩
      | false => exact ⟨rfl, rfl⟩
    have htrack : (s.work.engine.side isBid).tracker
        = (s.engine.side isBid).tracker.step isBid (s.engine.side isBid).trackerIn := by
      rw [hside]
    have hready : s.work.engine.table.Ready := by
      rw [htable]
      exact htick.1
    have hstep := scan_step isBid h.scan fuel
    dsimp only at hstep
    refine .next hbusy ?_
    split at hstep
    · -- the scan ends in this cycle
      obtain ⟨hidle, hbest⟩ := hstep
      rw [hbest, ← hmem] at hk
      have hall : s.work.engine.Quiet := by
        have hthis : (s.work.engine.side isBid).Quiet :=
          ⟨hpulses.1, hpulses.2, by rw [htrack]; exact hidle⟩
        cases isBid with
        | true => exact ⟨hthis, hquiet⟩
        | false => exact ⟨hquiet, hthis⟩
      refine .here ⟨⟨⟨hregs.1, hregs.2.1, hall, by rw [← hk], hregs.2.2.2.1,
        hregs.2.2.2.2.1⟩, hregs.2.2.1, hready, by rw [← hk]; rfl⟩, hregs.2.2.2.2.2.2⟩
    · rename_i hgo
      obtain ⟨hscan, hbest, hidx, hrec⟩ := hstep
      have hkeep : k.setSide isBid { k.side isBid with
          best := (s.engine.side isBid).tracker.best } = k := by
        rw [← h.core]
        cases isBid <;> rfl
      rw [hbest, hkeep] at hk
      have hnext : Scanning isBid k l s.work :=
        ⟨hregs.1, hregs.2.1, hregs.2.2.1, hready, hregs.2.2.2.2.2.1, by rw [htrack]; exact hscan,
          hquiet, hk, hregs.2.2.2.1, hregs.2.2.2.2.1⟩
      have hleft := scanLeft_inward (not_or.mp hgo).2
      have hrun := ih hnext (by rw [htrack, hidx]; omega)
      rw [htrack, hmem, ← hrec, ← hmem] at hrun
      exact hrun

/-- `S_EMPTY_WAIT` with nothing left to wait for. -/
theorem Sit.leave (h : Sit .emptyWait k l s)
    (hgo : s.engine.expectScan = false ∨ s.engine.scanSeen = true) :
    Leads work Busy (Sit (l.after k.bandBase) (dropped k l) l) s := by
  refine .next (h.busy fun h => (by cases h)) (.here ?_)
  have hsit := BookState.leave h.state h.req h.cmd h.ready h.latch (anyScanning_of_quiet h.quiet)
    hgo (by rw [h.quiet.bid.tracker_step]; exact h.quiet.bid.tracker)
    (by rw [h.quiet.ask.tracker_step]; exact h.quiet.ask.tracker)
  have hsame : trackersStepped s.engine (dropped s.core l) = dropped s.core l := by
    unfold trackersStepped
    rw [h.quiet.bid.tracker_step, h.quiet.ask.tracker_step]
    unfold dropped
    split <;> rfl
  rw [hsame, show s.engine.bandBase = s.core.bandBase from rfl, h.core_eq] at hsit
  exact hsit

/-- A tracker that sees its level emptied. -/
theorem empt_step {d : SideState c} (isBid : Bool) (hd : d.tracker.state = .idle)
    (ha : d.btAddEn = false) (he : d.btEmptEn = true) :
    let t := d.tracker.step isBid d.trackerIn
    if d.core.best = some d.btEmptAddr then
      if d.cnt = 0 then t.state = .idle ∧ t.best = none
      else t.state = .scan ∧ t.best = d.core.best
        ∧ t.scanIdx = BestTrackerState.inward isBid d.btEmptAddr
    else t.state = .idle ∧ t.best = d.core.best := by
  intro t
  have ht : t = d.tracker.step isBid d.trackerIn := rfl
  unfold BestTrackerState.step BestTrackerState.addUpdate SideState.trackerIn at ht
  simp only [hd, ha, he, Bool.false_eq_true, false_and, if_false, true_and] at ht
  have hbest : d.core.best = some d.btEmptAddr
      ↔ d.tracker.bestValid = true ∧ d.btEmptAddr = d.tracker.bestAddr := by
    unfold SideState.core BestTrackerState.best
    cases d.tracker.bestValid with
    | false => simp
    | true => simp [eq_comm]
  by_cases hb : d.tracker.bestValid = true ∧ d.btEmptAddr = d.tracker.bestAddr
  · rw [if_pos (hbest.mpr hb)]
    rw [if_pos hb] at ht
    by_cases hc : d.cnt = 0
    · simp only [hc, ne_eq, not_true_eq_false, decide_false, Bool.not_false, if_true] at ht ⊢
      rw [ht]
      exact ⟨rfl, rfl⟩
    · simp only [hc, ne_eq, not_false_eq_true, decide_true, Bool.not_true, Bool.false_eq_true,
        if_false] at ht ⊢
      rw [ht, hb.2]
      exact ⟨rfl, rfl, rfl⟩
  · rw [if_neg (fun h => hb (hbest.mp h))]
    rw [if_neg hb] at ht
    rw [ht]
    exact ⟨hd, rfl⟩

theorem dropped_setSide (k : BookCore c) (l : Latch c) (isBid : Bool) (d : SideCore c) :
    dropped (k.setSide isBid d) l = (dropped k l).setSide isBid d := by
  have hbase : (k.setSide isBid d).bandBase = k.bandBase := by cases isBid <;> rfl
  unfold dropped
  rw [hbase]
  split
  · cases isBid <;> rfl
  · rfl

theorem setSide_side (k : BookCore c) (isBid : Bool) : k.setSide isBid (k.side isBid) = k := by
  cases isBid <;> rfl

theorem side_dropped (k : BookCore c) (l : Latch c) (isBid : Bool) :
    (dropped k l).side isBid = k.side isBid := by
  unfold dropped
  split <;> cases isBid <;> rfl

/-- The registers after `S_EMPTY`: the pulse of an emptied level, and whether a scan follows. -/
structure Pulsed (k : BookCore c) (l : Latch c) (s : BookState c) : Prop where
  state : s.engine.state = .emptyWait
  req : s.engine.tblReq = false
  cmd : s.engine.tblCmdValid = false
  ready : s.engine.table.Ready
  addEn : (s.engine.side l.rSide).btAddEn = false
  emptEn : (s.engine.side l.rSide).btEmptEn = true
  emptAddr : (s.engine.side l.rSide).btEmptAddr = l.lvlAddr
  idle : (s.engine.side l.rSide).tracker.state = .idle
  other : (s.engine.side (!l.rSide)).Quiet
  expect : s.engine.expectScan = true
    ↔ (k.side l.rSide).best = some l.lvlAddr ∧ (k.side l.rSide).cnt ≠ 0
  seen : s.engine.scanSeen = false
  core : s.core = k
  latch : s.engine.latch = l
  notDone : s.engine.engineDone = false

/-- `S_EMPTY` of a level that has lost its shares. -/
theorem Sit.pulse (h : Sit .empty k l s) (he : l.emptied = true) : Pulsed k l s.work := by
  obtain rfl := h.core_eq
  obtain rfl := h.latch
  let e := s.engine
  let cond : Prop := (e.side e.rSide).tracker.bestValid = true
    ∧ e.lvlAddr = (e.side e.rSide).tracker.bestAddr ∧ (e.side e.rSide).cnt ≠ 0
  let d : SideState c :=
    { e.clearPulses.side e.rSide with btEmptEn := true, btEmptAddr := e.lvlAddr }
  let n : BookUpdateEngineState c := { e.clearPulses.setSide e.rSide d with
    expectScan := decide cond, scanSeen := false, state := .emptyWait }
  have hset := side_setSide e.clearPulses e.rSide d
  have hrest : (e.clearPulses.setSide e.rSide d).tblReq = e.tblReq
      ∧ (e.clearPulses.setSide e.rSide d).tblCmdValid = false
      ∧ (e.clearPulses.setSide e.rSide d).latch = e.latch
      ∧ (e.clearPulses.setSide e.rSide d).engineDone = false
      ∧ (e.clearPulses.setSide e.rSide d).core s.settled
        = (s.core.setSide e.rSide d.core) := by
    cases e.rSide <;> exact ⟨rfl, rfl, rfl, rfl, rfl⟩
  have hn : e.fsm {} = n := by
    unfold BookUpdateEngineState.fsm
    rw [show e.state = .empty from h.state]
    show e.onEmpty e.clearPulses = n
    unfold BookUpdateEngineState.onEmpty
    rw [show e.emptied = true from he, if_pos rfl]
    dsimp only [n, d]
    by_cases hc : cond
    · rw [decide_eq_true hc, if_pos hc]
      cases e.rSide <;> rfl
    · rw [decide_eq_false hc, if_neg hc]
      cases e.rSide <;> rfl
  have htick := h.ready.tick
  have hq := quiet_clearPulses h.quiet
  obtain ⟨hengine, hcore⟩ := work_core hn
  have hquiet : ∀ isBid, (e.side isBid).Quiet := by
    intro isBid
    cases isBid with
    | true => exact h.quiet.bid
    | false => exact h.quiet.ask
  have htable : e.table.step e.tblCmdValid e.tblCmd = e.table.tick := by
    rw [show e.tblCmdValid = false from h.cmd, OrderRefTableState.step_eq_tick]
  have hside : s.work.engine.side e.rSide = { d with tracker := (e.side e.rSide).tracker } := by
    rw [hengine, side_clockUnits, (hquiet _).tracker_step, show n.side e.rSide = d from hset.1]
  have hother : s.work.engine.side (!e.rSide) = (e.side (!e.rSide)).clearPulses := by
    rw [hengine, side_clockUnits, (hquiet _).tracker_step,
      show n.side (!e.rSide) = e.clearPulses.side (!e.rSide) from hset.2, side_clearPulses]
    rfl
  refine ⟨?_, ?_, ?_, ?_, ?_, ?_, ?_, ?_, ?_, ?_, ?_, ?_, ?_, ?_⟩
  · rw [hengine]
    rfl
  · rw [hengine]
    exact hrest.1.trans h.req
  · rw [hengine]
    exact hrest.2.1
  · rw [hengine]
    show (e.table.step e.tblCmdValid e.tblCmd).Ready
    rw [htable]
    exact htick.1
  · show (s.work.engine.side e.rSide).btAddEn = false
    rw [hside]
    show (e.clearPulses.side e.rSide).btAddEn = false
    rw [side_clearPulses]
    rfl
  · show (s.work.engine.side e.rSide).btEmptEn = true
    rw [hside]
  · show (s.work.engine.side e.rSide).btEmptAddr = e.lvlAddr
    rw [hside]
  · show (s.work.engine.side e.rSide).tracker.state = .idle
    rw [hside]
    exact (hquiet _).tracker
  · show (s.work.engine.side (!e.rSide)).Quiet
    rw [hother]
    exact ⟨rfl, rfl, (hquiet _).tracker⟩
  · rw [hengine]
    show decide cond = true ↔ (s.core.side e.rSide).best = some e.lvlAddr
      ∧ (s.core.side e.rSide).cnt ≠ 0
    rw [decide_eq_true_iff, BookState.core, side_core]
    show _ ↔ (if (e.side e.rSide).tracker.bestValid then some (e.side e.rSide).tracker.bestAddr
      else none) = some e.lvlAddr ∧ (e.side e.rSide).cnt ≠ 0
    dsimp only [cond]
    cases (e.side e.rSide).tracker.bestValid with
    | false => simp
    | true => simp [eq_comm]
  · rw [hengine]
    rfl
  · rw [hcore, show e.table.step _ _ = _ from htable, htick.2.2]
    have hsettled : n.emitted s.settled = s.settled := by
      show BookUpdateEngineState.emitted (e.clearPulses.setSide e.rSide d) s.settled = _
      unfold BookUpdateEngineState.emitted
      cases e.rSide <;> rfl
    have hd : d.core = (s.core.side e.rSide) := by
      rw [BookState.core, side_core]
      show SideState.core { e.clearPulses.side e.rSide with btEmptEn := _, btEmptAddr := _ } = _
      rw [side_clearPulses]
      rfl
    have hncore : n.core (n.emitted s.settled) = s.core := by
      rw [hsettled]
      show (e.clearPulses.setSide e.rSide d).core s.settled = _
      rw [hrest.2.2.2.2, hd, setSide_side]
    rw [hncore, trackersStepped, h.quiet.bid.tracker_step, h.quiet.ask.tracker_step]
    rfl
  · rw [hengine]
    exact hrest.2.2.1
  · rw [hengine]
    exact hrest.2.2.2.1

/-- `S_EMPTY` of a level that has shares left. -/
theorem Sit.noPulse (h : Sit .empty k l s) (he : l.emptied = false) :
    Sit .emptyWait k l s.work ∧ s.work.engine.expectScan = false := by
  let n : BookUpdateEngineState c := { s.engine.clearPulses with
    expectScan := false, scanSeen := false, state := .emptyWait }
  have hemp : s.engine.emptied = false := (congrArg Latch.emptied h.latch).trans he
  have hn : s.engine.fsm {} = n := by
    unfold BookUpdateEngineState.fsm
    rw [h.state]
    show s.engine.onEmpty s.engine.clearPulses = n
    unfold BookUpdateEngineState.onEmpty
    rw [hemp]
    rfl
  have hq := quiet_clearPulses h.quiet
  refine ⟨?_, ?_⟩
  · have hsit : Sit _ k _ s.work := sit_of_step h.quiet h.cmd h.ready rfl rfl hn ⟨rfl, rfl, rfl⟩
      ⟨hq.bid, hq.ask⟩
      rfl h.req rfl h.core_eq
    rw [← h.latch]
    exact hsit
  · rw [work_engine h.quiet hn ⟨rfl, rfl, rfl⟩]

namespace Pulsed

theorem busy (h : Pulsed k l s) : s.Busy := ⟨by rw [h.state]; exact fun h => (by cases h), h.notDone⟩

theorem side_eq (h : Pulsed k l s) : (s.engine.side l.rSide).core = k.side l.rSide := by
  rw [← h.core, BookState.core, side_core]

theorem anyScanning (h : Pulsed k l s) : s.engine.anyScanning = false := by
  have hi := h.idle
  have ho := h.other.tracker
  unfold BookUpdateEngineState.anyScanning BestTrackerState.scanning
  cases hb : l.rSide with
  | true =>
    rw [hb] at hi ho
    rw [show s.engine.bid.tracker.state = .idle from hi,
      show s.engine.ask.tracker.state = .idle from ho]
    rfl
  | false =>
    rw [hb] at hi ho
    rw [show s.engine.bid.tracker.state = .idle from ho,
      show s.engine.ask.tracker.state = .idle from hi]
    rfl

/-- The best level once the pulse has been seen, when it needs no scan. -/
theorem leave (h : Pulsed k l s)
    (hx : ¬((k.side l.rSide).best = some l.lvlAddr ∧ (k.side l.rSide).cnt ≠ 0)) :
    Leads work Busy (Sit (l.after k.bandBase) (dropped (k.setSide l.rSide
      (if (k.side l.rSide).best = some l.lvlAddr then { k.side l.rSide with best := none }
      else k.side l.rSide)) l) l) s := by
  have hstep := empt_step l.rSide h.idle h.addEn h.emptEn
  dsimp only at hstep
  rw [h.side_eq, h.emptAddr, show (s.engine.side l.rSide).cnt = (k.side l.rSide).cnt from
    congrArg SideCore.cnt h.side_eq] at hstep
  -- the tracker is idle again after the pulse
  have hafter : ((s.engine.side l.rSide).tracker.step l.rSide
      (s.engine.side l.rSide).trackerIn).state = .idle
      ∧ { k.side l.rSide with best := ((s.engine.side l.rSide).tracker.step l.rSide
          (s.engine.side l.rSide).trackerIn).best }
        = if (k.side l.rSide).best = some l.lvlAddr then { k.side l.rSide with best := none }
          else k.side l.rSide := by
    by_cases hb : (k.side l.rSide).best = some l.lvlAddr
    · have hc : (k.side l.rSide).cnt = 0 := not_not.mp fun hc => hx ⟨hb, hc⟩
      rw [if_pos hb, if_pos hc] at hstep
      rw [if_pos hb, hstep.2]
      exact ⟨hstep.1, rfl⟩
    · rw [if_neg hb] at hstep
      rw [if_neg hb, hstep.2]
      exact ⟨hstep.1, rfl⟩
  have hexp : s.engine.expectScan = false := by
    rw [← Bool.not_eq_true]
    exact fun he => hx (h.expect.mp he)
  have ho := h.other.tracker
  rw [← h.other.tracker_step (!l.rSide)] at ho
  have hidle : (s.engine.bid.tracker.step true s.engine.bid.trackerIn).state = .idle
      ∧ (s.engine.ask.tracker.step false s.engine.ask.trackerIn).state = .idle := by
    have ha := hafter.1
    cases hb : l.rSide with
    | true =>
      rw [hb] at ha ho
      exact ⟨ha, ho⟩
    | false =>
      rw [hb] at ha ho
      exact ⟨ho, ha⟩
  have hsit := BookState.leave h.state h.req h.cmd h.ready h.latch h.anyScanning (Or.inl hexp)
    hidle.1 hidle.2
  have hdrop : { dropped s.core l with bid := s.core.bid, ask := s.core.ask }
      = dropped s.core l := by
    unfold dropped
    split <;> rfl
  rw [trackersStepped_eq l.rSide h.other hdrop, ← dropped_setSide, side_dropped, h.core, hafter.2,
    show s.engine.bandBase = k.bandBase from congrArg BookCore.bandBase h.core] at hsit
  exact .next h.busy (.here hsit)

/-- The scan that the pulse begins. -/
theorem scanning (h : Pulsed k l s)
    (hx : (k.side l.rSide).best = some l.lvlAddr ∧ (k.side l.rSide).cnt ≠ 0) :
    Scanning l.rSide k l s.work
      ∧ (s.work.engine.side l.rSide).tracker.scanIdx
        = BestTrackerState.inward l.rSide l.lvlAddr := by
  have hstep := empt_step l.rSide h.idle h.addEn h.emptEn
  dsimp only at hstep
  rw [h.side_eq, h.emptAddr, show (s.engine.side l.rSide).cnt = (k.side l.rSide).cnt from
    congrArg SideCore.cnt h.side_eq, if_pos hx.1, if_neg hx.2] at hstep
  obtain ⟨hscan, hbest, hidx⟩ := hstep
  -- the engine waits: the tracker raises `scanning` a cycle later
  have hn : s.engine.fsm {} = s.engine.clearPulses := by
    unfold BookUpdateEngineState.fsm
    rw [h.state]
    show s.engine.onEmptyWait s.engine.clearPulses = _
    unfold BookUpdateEngineState.onEmptyWait
    simp only [h.anyScanning, h.seen, h.expect.mpr hx, Bool.not_true, Bool.false_eq_true, if_false,
      false_and, or_self]
  obtain ⟨hengine, hcore⟩ := work_core hn
  have htable : s.engine.table.step s.engine.tblCmdValid s.engine.tblCmd = s.engine.table.tick := by
    rw [h.cmd, OrderRefTableState.step_eq_tick]
  have htick := h.ready.tick
  have hside : s.work.engine.side l.rSide = { (s.engine.side l.rSide).clearPulses with
      tracker := (s.engine.side l.rSide).tracker.step l.rSide (s.engine.side l.rSide).trackerIn } := by
    rw [hengine, side_clockUnits, side_clearPulses]
  have hother : s.work.engine.side (!l.rSide) = (s.engine.side (!l.rSide)).clearPulses := by
    rw [hengine, side_clockUnits, side_clearPulses, h.other.tracker_step]
    rfl
  have hk : s.work.core = k := by
    have hsame : s.work.core = trackersStepped s.engine s.core := by
      rw [hcore, htable, htick.2.2]
      rfl
    rw [hsame, trackersStepped_eq l.rSide h.other rfl, hbest, h.core]
    exact setSide_side k l.rSide
  refine ⟨⟨?_, ?_, ?_, ?_, ?_, ?_, ?_, hk, ?_, ?_⟩, ?_⟩
  · rw [hengine]
    exact h.state
  · rw [hengine]
    exact h.req
  · rw [hengine]
    rfl
  · rw [hengine]
    show (s.engine.table.step s.engine.tblCmdValid s.engine.tblCmd).Ready
    rw [htable]
    exact htick.1
  · rw [hengine]
    exact h.expect.mpr hx
  · rw [hside]
    exact hscan
  · rw [hother]
    exact ⟨rfl, rfl, h.other.tracker⟩
  · rw [hengine]
    exact h.latch
  · rw [hengine]
    rfl
  · rw [hside]
    exact hidx

end Pulsed

/-- `S_EMPTY` and `S_EMPTY_WAIT`. -/
theorem Sit.empty (h : Sit .empty k l s)
    (he : l.emptied = ((k.side l.rSide).sharesMem l.lvlAddr == 0)) :
    Leads work Busy (Sit (l.after k.bandBase)
      (dropped (k.setSide l.rSide ((k.side l.rSide).settle l.rSide l.lvlAddr)) l) l) s := by
  have hbusy := h.busy fun h => (by cases h)
  unfold SideCore.settle
  cases hemp : l.emptied with
  | false =>
    have hne : (k.side l.rSide).sharesMem l.lvlAddr ≠ 0 := by
      rw [hemp] at he
      exact beq_eq_false_iff_ne.mp he.symm
    rw [if_neg hne, setSide_side]
    obtain ⟨hsit, hx⟩ := h.noPulse hemp
    exact .next hbusy (hsit.leave (Or.inl hx))
  | true =>
    have hz : (k.side l.rSide).sharesMem l.lvlAddr = 0 := by
      rw [hemp] at he
      exact beq_iff_eq.mp he.symm
    rw [if_pos hz, SideCore.vacate]
    have hp := h.pulse hemp
    refine .next hbusy ?_
    by_cases hx : (k.side l.rSide).best = some l.lvlAddr ∧ (k.side l.rSide).cnt ≠ 0
    · -- a scan is expected
      obtain ⟨hscan, hidx⟩ := hp.scanning hx
      have hrun := hscan.run l.rSide c.priceLevels (scanLeft_lt _ _)
      rw [hidx] at hrun
      rw [if_pos hx.1, if_neg hx.2]
      refine .next hp.busy (hrun.bind fun s' hs' => ?_)
      have hleave := hs'.toSit.leave (Or.inr hs'.seen)
      have hbase (d : SideCore c) : (k.setSide l.rSide d).bandBase = k.bandBase := by
        cases l.rSide <;> rfl
      rwa [hbase] at hleave
    · have hleave := hp.leave hx
      by_cases hb : (k.side l.rSide).best = some l.lvlAddr
      · have hc : (k.side l.rSide).cnt = 0 := not_not.mp fun hc => hx ⟨hb, hc⟩
        rw [if_pos hb] at hleave
        rw [if_pos hb, if_pos hc]
        exact hleave
      · rw [if_neg hb] at hleave
        rw [if_neg hb]
        exact hleave

end BookState

end ItchOrderbook.Rtl
