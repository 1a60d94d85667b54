import ItchOrderbook.Book.EraseTermination
import ItchOrderbook.Parser.ItchParserSpec
import ItchOrderbook.Trade.BarAggregation
import ItchOrderbook.Trade.SessionRun
import ItchOrderbook.Trade.SignalSinks
import ItchOrderbook.Trade.TradingSession

/-!
# What a trading session goes through

The locals of `run_session` fall into two parts. The engine and the bars follow the messages alone
(`Market`): the engine is the one over the finite map, and the bars are those of the trade prints.
The manager and the VM follow them in the order of calls that `Session.Runs` allows (`Orders`), with
at most one order submitted for a print and two for a bar. `Follows` is kept by every step of the
loop, and what the session reports is read off it at the end.
-/

namespace ItchOrderbook

open FloatOps Framing

namespace OrderManager

variable {F : Type} [FloatOps F]

/-! ## A session over the map -/

section Over

variable (om : OrderManager F) (e : BookEngine OrderRefTable) (r : RefMap)

theorem submitExit_over (reason : Reason) (ts : UInt64) :
    om.submitExit (e.over r) reason ts = om.submitExit e reason ts := rfl

theorem onTradePrint_over (price : UInt32) (ts : UInt64) :
    om.onTradePrint (e.over r) price ts = om.onTradePrint e price ts := by
  unfold onTradePrint
  simp only [submitExit_over]

theorem onSignals_over (sig : Signals F) (ts : UInt64) :
    om.onSignals (e.over r) sig ts = om.onSignals e sig ts := rfl

theorem endBar_over (t : ℤ) (ts : UInt64) : om.endBar (e.over r) t ts = om.endBar e t ts := rfl

end Over

/-! ## How many orders a call submits -/

section Submissions

/-- At most one order is submitted. -/
def SubmitsOne (om om' : OrderManager F) : Prop :=
  om'.submissions.length ≤ om.submissions.length + 1

variable {om om' om'' : OrderManager F}

omit [FloatOps F] in
theorem Same.submitsOne (h : Same om om') : SubmitsOne om om' := by
  rw [SubmitsOne, h.submissions]
  exact Nat.le_succ _

omit [FloatOps F] in
theorem SubmitsOne.after (h : Same om om') (h' : SubmitsOne om' om'') : SubmitsOne om om'' := by
  rwa [SubmitsOne, h.submissions] at h'

omit [FloatOps F] in
theorem submitsOne_of_append {sub : Submission} (h : om'.submissions = om.submissions ++ [sub]) :
    SubmitsOne om om' := by
  rw [SubmitsOne, h, List.length_append, List.length_singleton]

variable (om) {T : Type} (eng : BookEngine T)

theorem submitsOne_submitEntry (dir : ℤ) (sizeFrac : F) (ts : UInt64) :
    SubmitsOne om (om.submitEntry eng dir sizeFrac ts) := by
  unfold submitEntry
  dsimp only
  split
  · exact (Same.refl om).submitsOne
  · split
    · exact (Same.refl om).submitsOne
    · obtain ⟨-, sub, hsub⟩ := submissions_workEntry { om with entryDir := dir } eng .entry
        (om.entryPrice eng dir) (om.entrySize sizeFrac (om.entryPrice eng dir)) ts
      exact submitsOne_of_append hsub

theorem submitsOne_submitExit (reason : Reason) (ts : UInt64) :
    SubmitsOne om (om.submitExit eng reason ts) := by
  unfold submitExit
  dsimp only
  split
  · exact (Same.refl om).submitsOne
  · split
    · exact (Same.refl om).submitsOne
    · obtain ⟨-, sub, hsub⟩ := submissions_workExit { om with exitReason := reason } eng
        (om.exitPrice eng) ts
      exact submitsOne_of_append hsub

theorem submitsOne_onTradePrint (price : UInt32) (ts : UInt64) :
    SubmitsOne om (om.onTradePrint eng price ts) := by
  have hprint : Same om { om with lastPrint := price } := ⟨rfl, rfl⟩
  unfold onTradePrint
  dsimp only
  split
  · exact hprint.submitsOne
  · have hmoved := hprint.trans (same_moveAnchor { om with lastPrint := price } (ofUInt32 price))
    split
    · exact hmoved.submitsOne
    · exact (submitsOne_submitExit _ eng _ ts).after
        (hmoved.trans (same_cancelWorkingEntry _))

theorem submitsOne_exitOnSignal (ts : UInt64) : SubmitsOne om (om.exitOnSignal eng ts) := by
  have hcancel := same_cancelWorkingEntry om
  unfold exitOnSignal
  dsimp only
  split
  · exact (submitsOne_submitExit _ eng .signal ts).after hcancel
  · exact hcancel.submitsOne

theorem submitsOne_enterIfFree (dir : ℤ) (sizeFrac : F) (ts : UInt64) :
    SubmitsOne om (om.enterIfFree eng dir sizeFrac ts) := by
  have hdirected : Same om { om with entryDir := dir } := ⟨rfl, rfl⟩
  unfold enterIfFree
  split
  · exact (submitsOne_submitEntry _ eng dir sizeFrac ts).after hdirected
  · exact (Same.refl om).submitsOne

theorem submitsOne_enterOnSignal (dir : ℤ) (flip : Bool) (sizeFrac : F) (ts : UInt64) :
    SubmitsOne om (om.enterOnSignal eng dir flip sizeFrac ts) := by
  unfold enterOnSignal
  split
  · exact (submitsOne_enterIfFree _ eng dir sizeFrac ts).after (same_cancelWorkingEntry om)
  · exact submitsOne_enterIfFree om eng dir sizeFrac ts

/-- The signal block either exits or enters. -/
theorem submitsOne_onSignals (sig : Signals F) (ts : UInt64) :
    SubmitsOne om (om.onSignals eng sig ts) := by
  have hlatched : Same om
      { om with cfgStop := sig.stop, cfgTp := sig.tp, cfgTrail := sig.trail } := ⟨rfl, rfl⟩
  refine SubmitsOne.after hlatched ?_
  unfold onSignals arbitrate
  split
  · exact submitsOne_exitOnSignal _ eng ts
  · split
    · exact submitsOne_exitOnSignal _ eng ts
    · split
      · split
        · exact submitsOne_enterOnSignal ..
        · split
          · exact submitsOne_enterOnSignal ..
          · exact (Same.refl _).submitsOne
      · exact (Same.refl _).submitsOne

theorem submitsOne_endBar (t : ℤ) (ts : UInt64) : SubmitsOne om (om.endBar eng t ts) := by
  suffices SubmitsOne om (om.repeg eng ts) from this
  unfold repeg
  split
  · split
    · exact Same.submitsOne ⟨rfl, rfl⟩
    · rename_i o _
      dsimp only
      split
      · obtain ⟨-, sub, hsub⟩ := submissions_workEntry
          { om with fe := (om.fe.cancel om.entryRef).2 } eng (.repeg o)
          (om.entryPrice eng om.entryDir) o.remaining ts
        exact submitsOne_of_append hsub
      · exact (Same.refl om).submitsOne
  · exact (Same.refl om).submitsOne

end Submissions

end OrderManager

/-! ## Bars -/

namespace BarBuilder

variable {F : Type} [FloatOps F]

omit [FloatOps F] in
theorem size_push (bars : BarSeries F) (o h l c v : F) :
    (bars.push o h l c v).size = bars.size + 1 := List.length_append

omit [FloatOps F] in
/-- The bars that `size()` tells of are there. -/
theorem sizeInt_le (bars : BarSeries F) : bars.sizeInt.toInt ≤ bars.size :=
  (toInt_ofNat_le bars.size).1

omit [FloatOps F] in
theorem sizeInt_eq {bars : BarSeries F} (h : bars.size < 2 ^ 31) :
    bars.sizeInt.toInt = bars.size := (toInt_ofNat_le bars.size).2.2 h

theorem size_emitFlat (n : ℕ) (p : Int32 × BarBuilder F) :
    p.2.bars.size ≤ (emitFlat n p).2.bars.size := by
  induction n generalizing p with
  | zero => exact Nat.le_refl _
  | succ n ih =>
    refine Nat.le_trans ?_ (ih _)
    exact (Nat.le_succ _).trans (size_push p.2.bars p.2.c p.2.c p.2.c p.2.c zero).ge

/-- Completed bars stay. -/
theorem size_onTrade (b : BarBuilder F) (tsNs : UInt64) (price shares : UInt32) :
    b.bars.size ≤ (b.onTrade tsNs price shares).2.bars.size := by
  unfold onTrade
  dsimp only
  split
  · exact Nat.le_refl _
  · split
    · exact Nat.le_refl _
    · refine Nat.le_trans ?_ (size_emitFlat _ (1, b.emit b.o b.h b.l b.c b.vol))
      exact (Nat.le_succ _).trans (size_push b.bars b.o b.h b.l b.c b.vol).ge

theorem open_emitFlat (n : ℕ) (p : Int32 × BarBuilder F) :
    (emitFlat n p).2.open_ = p.2.open_ := by
  induction n generalizing p with
  | zero => rfl
  | succ n ih => exact ih _

/-- A trade leaves a bar open. -/
theorem open_onTrade (b : BarBuilder F) (tsNs : UInt64) (price shares : UInt32) :
    (b.onTrade tsNs price shares).2.open_ = true := by
  unfold onTrade
  dsimp only
  split
  · rfl
  · rename_i hopen
    have hopen' : b.open_ = true := by simpa using hopen
    split
    · exact hopen'
    · exact (open_emitFlat _ _).trans hopen'

theorem feed_concat (b : BarBuilder F) (ts : List TradePrint) (t : TradePrint) :
    (feed b (ts ++ [t])).2 = ((feed b ts).2.onTrade t.tsNs t.price t.shares).2 := by
  induction ts generalizing b with
  | nil => rfl
  | cons u us ih => exact ih _

/-- No bar is open only before the first trade. -/
theorem feed_closed {barNs : UInt64} {ts : List TradePrint}
    (h : (feed (new barNs : BarBuilder F) ts).2.open_ = false) : ts = [] := by
  induction ts using List.reverseRecOn with
  | nil => rfl
  | append_singleton ts t ih =>
    rw [feed_concat, open_onTrade] at h
    cases h

end BarBuilder

/-! ## The market -/

/-- The messages that are not skipped. -/
def knownMessages (ms : List DecodedMessage) : List DecodedMessage :=
  ms.filter fun m => m.type ≠ .unknown

namespace BookEngine

/-- The trade print of a message, for the orders and trades of a locate. -/
def printOf (locate : UInt16) (e : BookEngine RefMap) (m : DecodedMessage) : List TradePrint :=
  let er := (e.step m).2
  if er.contributes = true ∧ er.locate = locate then [⟨m.timestamp, er.price, er.shares⟩] else []

/-- The trade prints of a locate. -/
def tradePrints (locate : UInt16) : BookEngine RefMap → List DecodedMessage → List TradePrint
  | _, [] => []
  | e, m :: ms => e.printOf locate m ++ tradePrints locate (e.next m) ms

theorem run_concat (e : BookEngine RefMap) (ms : List DecodedMessage) (m : DecodedMessage) :
    e.run (ms ++ [m]) = (e.run ms).next m := List.foldl_concat ..

theorem tradePrints_concat (locate : UInt16) (e : BookEngine RefMap) (ms : List DecodedMessage)
    (m : DecodedMessage) :
    tradePrints locate e (ms ++ [m]) = tradePrints locate e ms ++ (e.run ms).printOf locate m := by
  induction ms generalizing e with
  | nil => exact List.append_nil _
  | cons u us ih =>
    rw [List.cons_append, tradePrints, tradePrints, ih, List.append_assoc]
    rfl

end BookEngine

namespace TradingSession

variable {F : Type} [FloatMath F]

/-- The engine over the finite map, with as many orders as the table has slots. -/
def mapEngine : BookEngine RefMap := .new 1000000 (RefMap.new (2 ^ 20))

/-- Both engines of a session over the map. -/
def mapSession (sc : SessionConfig F) : Session F :=
  .new 1000000 (2 ^ 20) sc.locate sc.locate sc.om

/-- Where the locals are: the engine stands for `e`, and the manager and the VM have gone through
calls that a session allows, with `calls` of them outside bars. -/
structure Follows (prog : Program) (sc : SessionConfig F) (e : BookEngine RefMap) (calls : ℕ)
    (s : TradingSession F) : Prop where
  backed : ∃ r, s.eng.refs.Refines r ∧ s.eng.over r = e
  run : Session.Runs (mapSession sc) .ready ⟨e, s.om⟩
  vm : StrategyVM.Reachable prog s.vm
  nextBar_le : s.nextBar ≤ s.bb.bars.size
  nextBar_lt : s.nextBar < 2 ^ 31
  equity : s.equity.length = s.nextBar
  submissions : s.om.submissions.length ≤ calls + 2 * s.nextBar

/-- What processing bars leaves in place. -/
structure SameFeed (s s' : TradingSession F) : Prop where
  eng : s'.eng = s.eng
  bb : s'.bb = s.bb
  messages : s'.messages = s.messages
  malformedMessages : s'.malformedMessages = s.malformedMessages

omit [FloatMath F] in
theorem SameFeed.trans {s s' s'' : TradingSession F} (h : SameFeed s s') (h' : SameFeed s' s'') :
    SameFeed s s'' :=
  ⟨h'.eng.trans h.eng, h'.bb.trans h.bb, h'.messages.trans h.messages,
    h'.malformedMessages.trans h.malformedMessages⟩

section Steps

variable {prog : Program} {sc : SessionConfig F} {e : BookEngine RefMap} {calls : ℕ}
  {s s' : TradingSession F}

/-! ## One bar -/

/-- What a bar does: the VM is stepped, the manager gets its signals, the equity is noted. -/
theorem barStep_cases {ts : UInt64} (h : s.barStep ts = .ok s') :
    ∃ ctx sig vm close, s.om.ctx s.bb.bars s.nextBar = .ok ctx ∧
      s.vm.step s.bb.bars s.nextBar ctx = .ok (sig, vm) ∧
      s' = { s with
        om := s.om.onBar s.eng s.nextBar sig ts
        vm := vm
        equity := s.equity ++ [(s.om.onBar s.eng s.nextBar sig ts).equity close]
        nextBar := s.nextBar + 1 } := by
  unfold barStep at h
  obtain ⟨ctx, hctx, h⟩ := CheckedState.bind_eq_ok.1 h
  obtain ⟨⟨sig, vm⟩, hstep, h⟩ := CheckedState.bind_eq_ok.1 h
  obtain ⟨close, -, h⟩ := CheckedState.bind_eq_ok.1 h
  cases h
  exact ⟨ctx, sig, vm, close, hctx, hstep, rfl⟩

theorem Follows.barStep (h : Follows prog sc e calls s) (hlt : s.nextBar < s.bb.bars.size)
    (hint : s.nextBar + 1 < 2 ^ 31) {ts : UInt64} (hstep : s.barStep ts = .ok s') :
    Follows prog sc e calls s' ∧ SameFeed s s' ∧ s'.nextBar = s.nextBar + 1 := by
  obtain ⟨ctx, sig, vm, close, -, hvm, rfl⟩ := barStep_cases hstep
  obtain ⟨r, href, hover⟩ := h.backed
  have hom : s.om.onBar s.eng s.nextBar sig ts =
      (s.om.onSignals e sig ts).endBar e s.nextBar ts := by
    rw [← hover, OrderManager.onSignals_over, OrderManager.endBar_over]
    rfl
  have hsignals := OrderManager.submitsOne_onSignals s.om e sig ts
  have hend := OrderManager.submitsOne_endBar (s.om.onSignals e sig ts) e s.nextBar ts
  refine ⟨⟨h.backed, ?_, .step h.vm hlt hvm, hlt, hint, ?_, ?_⟩, ⟨rfl, rfl, rfl, rfl⟩, rfl⟩
  · rw [hom]
    exact (h.run.signals s.nextBar sig ts).bar
  · rw [List.length_append, h.equity]
    rfl
  · have hbefore := h.submissions
    unfold OrderManager.SubmitsOne at hsignals hend
    show (s.om.onBar s.eng s.nextBar sig ts).submissions.length ≤ calls + 2 * (s.nextBar + 1)
    rw [hom]
    omega

/-- A number of bars. Induction on it. -/
theorem Follows.barSteps {n : ℕ} (h : Follows prog sc e calls s)
    (hn : s.nextBar + n ≤ s.bb.bars.size) (hint : s.nextBar + n < 2 ^ 31) {ts : UInt64}
    (hsteps : barSteps n s ts = .ok s') :
    Follows prog sc e calls s' ∧ SameFeed s s' ∧ s'.nextBar = s.nextBar + n := by
  induction n generalizing s with
  | zero =>
    cases hsteps
    exact ⟨h, ⟨rfl, rfl, rfl, rfl⟩, rfl⟩
  | succ n ih =>
    obtain ⟨s₁, hstep, hsteps⟩ := CheckedState.bind_eq_ok.1 hsteps
    obtain ⟨h₁, hsame, hnext⟩ := h.barStep (by omega) (by omega) hstep
    obtain ⟨h', hsame', hnext'⟩ := ih h₁ (by rw [hnext, hsame.bb]; omega) (by omega) hsteps
    exact ⟨h', hsame.trans hsame', by rw [hnext', hnext]; omega⟩

/-- The bars to go are completed ones, and their numbers are those of an `int`. -/
theorem Follows.toGo (h : Follows prog sc e calls s) :
    s.nextBar + (s.bb.bars.sizeInt.toInt - s.nextBar).toNat ≤ s.bb.bars.size ∧
      s.nextBar + (s.bb.bars.sizeInt.toInt - s.nextBar).toNat < 2 ^ 31 := by
  have hle := h.nextBar_le
  have hlt := h.nextBar_lt
  have hsize := BarBuilder.sizeInt_le s.bb.bars
  have hint := Int32.toInt_lt s.bb.bars.sizeInt
  exact ⟨by omega, by omega⟩

/-- All bars that are completed, as long as an `int` counts them. -/
theorem Follows.processBars (h : Follows prog sc e calls s) {ts : UInt64}
    (hsteps : s.processBars ts = .ok s') :
    Follows prog sc e calls s' ∧ SameFeed s s' ∧
      (s.bb.bars.size < 2 ^ 31 → s'.nextBar = s.bb.bars.size) := by
  have hle := h.nextBar_le
  obtain ⟨h', hsame, hnext⟩ := h.barSteps h.toGo.1 h.toGo.2 hsteps
  refine ⟨h', hsame, fun hsize => ?_⟩
  rw [hnext, BarBuilder.sizeInt_eq hsize]
  omega

/-- More bars may be there than are processed. -/
theorem Follows.withBars (h : Follows prog sc e calls s) {bb : BarBuilder F}
    (hsize : s.bb.bars.size ≤ bb.bars.size) : Follows prog sc e calls { s with bb } :=
  ⟨h.backed, h.run, h.vm, h.nextBar_le.trans hsize, h.nextBar_lt, h.equity, h.submissions⟩

/-! ## One message -/

/-- The bars after what a message executed. -/
def barsAfter (locate : UInt16) (er : ExecResult) (ts : UInt64) (bb : BarBuilder F) : BarBuilder F :=
  if er.contributes = true ∧ er.locate = locate then (bb.onTrade ts er.price er.shares).2 else bb

theorem barsAfter_feed (locate : UInt16) (er : ExecResult) (ts : UInt64) (bb : BarBuilder F)
    (prints : List TradePrint) :
    barsAfter locate er ts (bb.feed prints).2 =
      (bb.feed (prints ++ if er.contributes = true ∧ er.locate = locate then
        [⟨ts, er.price, er.shares⟩] else [])).2 := by
  unfold barsAfter
  split
  · rw [BarBuilder.feed_concat]
  · rw [List.append_nil]

/-- A print goes to the exits and into the bars. -/
theorem Follows.print (h : Follows prog sc e calls s) (price shares : UInt32) (ts : UInt64) :
    Follows prog sc e (calls + 1) { s with
      om := s.om.onTradePrint s.eng price ts
      bb := (s.bb.onTrade ts price shares).2 } := by
  obtain ⟨r, href, hover⟩ := h.backed
  have hom : s.om.onTradePrint s.eng price ts = s.om.onTradePrint e price ts := by
    rw [← hover, OrderManager.onTradePrint_over]
  have hprinted := OrderManager.submitsOne_onTradePrint s.om e price ts
  have hsubs := h.submissions
  unfold OrderManager.SubmitsOne at hprinted
  have htraded : Follows prog sc e (calls + 1)
      { s with om := s.om.onTradePrint s.eng price ts } := by
    refine ⟨h.backed, ?_, h.vm, h.nextBar_le, h.nextBar_lt, h.equity, ?_⟩
    · rw [hom]
      exact h.run.print price ts
    · rw [hom]
      dsimp only
      omega
  exact htraded.withBars (BarBuilder.size_onTrade s.bb ts price shares)

/-- What follows a message. -/
theorem Follows.onExec {locate : UInt16} {er : ExecResult} {ts : UInt64}
    (h : Follows prog sc e calls s) (hstep : s.onExec locate er ts = .ok s') :
    Follows prog sc e (calls + 1) s' ∧ s'.eng = s.eng ∧ s'.bb = barsAfter locate er ts s.bb ∧
      s'.messages = s.messages ∧ s'.malformedMessages = s.malformedMessages := by
  unfold TradingSession.onExec at hstep
  unfold barsAfter
  split at hstep
  · rename_i hprint
    rw [if_pos hprint]
    have hmid := h.print er.price er.shares ts
    dsimp only at hstep
    split at hstep
    · obtain ⟨h', hsame, -⟩ := hmid.processBars hstep
      exact ⟨h', hsame.eng, hsame.bb, hsame.messages, hsame.malformedMessages⟩
    · cases hstep
      exact ⟨hmid, rfl, rfl, rfl, rfl⟩
  · rename_i hnot
    cases hstep
    rw [if_neg hnot]
    have hsubs := h.submissions
    exact ⟨⟨h.backed, h.run, h.vm, h.nextBar_le, h.nextBar_lt, h.equity, by omega⟩, rfl, rfl, rfl,
      rfl⟩

/-- The fill engine sees the same orders in the table as in the map. -/
theorem onMarketMessage_over (fe : FillEngine) {eng : BookEngine OrderRefTable} {r : RefMap}
    (href : eng.refs.Refines r) (m : DecodedMessage) :
    fe.onMarketMessage (eng.over r) m = fe.onMarketMessage eng m := by
  unfold FillEngine.onMarketMessage
  simp only [BookEngine.refs_over, RefMap.refTable_find, BookEngine.refTable_find_table,
    href.find_eq]

/-- The locals after the messages `ms`. -/
structure After (prog : Program) (sc : SessionConfig F) (ms : List DecodedMessage)
    (s : TradingSession F) : Prop where
  follows : Follows prog sc (mapEngine.run (knownMessages ms)) ms.length s
  bars : s.bb =
    (BarBuilder.feed (.new sc.barNs) (mapEngine.tradePrints sc.locate (knownMessages ms))).2
  messages : s.messages = UInt64.ofNat ms.length
  malformed : s.malformedMessages = UInt64.ofNat (ms.countP fun m => m.type = .unknown)

/-- A message the decoder does not know is counted. -/
theorem After.skip {ms : List DecodedMessage} (h : After prog sc ms s) {m : DecodedMessage}
    (hunknown : m.type = .unknown) :
    After prog sc (ms ++ [m]) { s with
      messages := s.messages + 1, malformedMessages := s.malformedMessages + 1 } := by
  have hlength : (ms ++ [m]).length = ms.length + 1 := List.length_append
  have hknown : knownMessages (ms ++ [m]) = knownMessages ms := by
    simp [knownMessages, hunknown]
  obtain ⟨h₁, h₂, h₃, h₄, h₅, h₆, h₇⟩ := h.follows
  refine ⟨?_, ?_, ?_, ?_⟩
  · rw [hknown, hlength]
    exact ⟨h₁, h₂, h₃, h₄, h₅, h₆, h₇.trans (by dsimp only; omega)⟩
  · rw [hknown]
    exact h.bars
  · rw [hlength, UInt64.ofNat_add, ← h.messages]
    rfl
  · rw [List.countP_append, UInt64.ofNat_add, ← h.malformed]
    simp [hunknown]

/-- The map engine takes the step that the engine takes. -/
theorem Follows.apply (h : Follows prog sc e calls s) (hinv : e.Inv) {m : DecodedMessage}
    {eng : BookEngine OrderRefTable} {l : Option UInt16} {er : ExecResult}
    (happ : s.eng.apply m = some ((eng, l), er)) :
    (e.step m).2 = er ∧ Follows prog sc (e.next m) calls
      { s with
        messages := s.messages + 1
        lastTs := m.timestamp
        eng := eng
        om := OrderManager.pollFills { s.om with fe := s.om.fe.onMarketMessage s.eng m } } := by
  obtain ⟨⟨r, href, hover⟩, hrun, hvm, hle, hlt, hequity, hsubs⟩ := h
  have hends := BookEngine.apply_ends href (hover ▸ hinv) m
  rw [happ, hover] at hends
  have hfe : s.om.fe.onMarketMessage s.eng m = s.om.fe.onMarketMessage e m := by
    rw [← hover, onMarketMessage_over s.om.fe href]
  generalize hstepped : e.step m = y at hends
  cases hends with
  | @returns _ r' _ _ href' _ =>
    refine ⟨rfl, ⟨r', href', ?_⟩, ?_, hvm, hle, hlt, hequity, ?_⟩
    · rw [BookEngine.next, hstepped]
    · rw [hfe]
      exact (hrun.message m).poll
    · dsimp only
      rw [(OrderManager.same_pollFills _).submissions]
      exact hsubs

/-- One message. -/
theorem After.take {ms : List DecodedMessage} (h : After prog sc ms s) {m : DecodedMessage}
    (hstep : s.take sc.locate m = some (.ok s')) : After prog sc (ms ++ [m]) s' := by
  unfold TradingSession.take at hstep
  dsimp only at hstep
  split at hstep
  · rename_i hunknown
    cases hstep
    exact h.skip hunknown
  · rename_i hknown
    have happend : knownMessages (ms ++ [m]) = knownMessages ms ++ [m] := by
      simp [knownMessages, hknown]
    have hlength : (ms ++ [m]).length = ms.length + 1 := List.length_append
    obtain ⟨⟨⟨eng, l⟩, er⟩, happ, hexec⟩ := Option.map_eq_some_iff.1 hstep
    obtain ⟨her, hmid⟩ := h.follows.apply
      (BookEngine.inv_run 1000000 (2 ^ 20) (knownMessages ms)) happ
    obtain ⟨h', heng, hbb, hmessages, hmalformed⟩ := hmid.onExec hexec
    refine ⟨?_, ?_, ?_, ?_⟩
    · rw [happend, hlength, BookEngine.run_concat]
      exact h'
    · rw [happend, BookEngine.tradePrints_concat, BookEngine.printOf, her]
      exact hbb.trans ((congrArg _ h.bars).trans (barsAfter_feed ..))
    · rw [hlength, UInt64.ofNat_add, ← h.messages, hmessages]
      rfl
    · rw [List.countP_append, UInt64.ofNat_add, ← h.malformed, hmalformed]
      simp [hknown]

/-- The engine applies the messages it knows. -/
theorem After.take_eng {ms : List DecodedMessage} (h : After prog sc ms s) {m : DecodedMessage}
    (hstep : s.take sc.locate m = some (.ok s')) :
    m.type = .unknown ∧ s'.eng = s.eng ∨
      m.type ≠ .unknown ∧ (s.eng.apply m).map (·.1.1) = some s'.eng := by
  unfold TradingSession.take at hstep
  dsimp only at hstep
  split at hstep
  · rename_i hunknown
    cases hstep
    exact .inl ⟨hunknown, rfl⟩
  · rename_i hknown
    obtain ⟨⟨⟨eng, l⟩, er⟩, happ, hexec⟩ := Option.map_eq_some_iff.1 hstep
    obtain ⟨-, hmid⟩ := h.follows.apply
      (BookEngine.inv_run 1000000 (2 ^ 20) (knownMessages ms)) happ
    obtain ⟨-, heng, -⟩ := hmid.onExec hexec
    rw [happ, heng]
    exact .inr ⟨hknown, rfl⟩

end Steps

/-! ## Whole streams -/

/-- A sequence of messages, as long as each of them returns without a fault. -/
def takes (locate : UInt16) : List DecodedMessage → TradingSession F →
    Option (Except Fault (TradingSession F))
  | [], s => some (.ok s)
  | m :: ms, s =>
    match s.take locate m with
    | none => none
    | some (.error f) => some (.error f)
    | some (.ok s) => takes locate ms s

theorem takes_cons_ok {locate : UInt16} {m : DecodedMessage} {ms : List DecodedMessage}
    {s s' : TradingSession F} (h : takes locate (m :: ms) s = some (.ok s')) :
    ∃ s₁, s.take locate m = some (.ok s₁) ∧ takes locate ms s₁ = some (.ok s') := by
  rw [takes] at h
  split at h
  · cases h
  · cases h
  · rename_i s₁ hstep
    exact ⟨s₁, hstep, h⟩

omit [FloatMath F] in
theorem knownMessages_cons (m : DecodedMessage) (ms : List DecodedMessage) :
    knownMessages (m :: ms) = if m.type = .unknown then knownMessages ms
      else m :: knownMessages ms := by
  unfold knownMessages
  rw [List.filter_cons]
  split
  · rename_i h
    rw [if_neg (by simpa using h)]
  · rename_i h
    rw [if_pos (by simpa using h)]

omit [FloatMath F] in
theorem runs_cons (eng : BookEngine OrderRefTable) (m : DecodedMessage)
    (ms : List DecodedMessage) :
    eng.runs (m :: ms) = ((eng.apply m).map (·.1.1)).bind fun eng => eng.runs ms := rfl

/-- The engine goes through the messages it knows. Induction on the messages to come. -/
theorem After.takes {prog : Program} {sc : SessionConfig F} {ms us : List DecodedMessage}
    {s s' : TradingSession F} (h : After prog sc ms s)
    (hrun : takes sc.locate us s = some (.ok s')) :
    After prog sc (ms ++ us) s' ∧ s.eng.runs (knownMessages us) = some s'.eng := by
  induction us generalizing ms s with
  | nil =>
    cases hrun
    rw [List.append_nil]
    exact ⟨h, rfl⟩
  | cons u us ih =>
    obtain ⟨s₁, hstep, hrun⟩ := takes_cons_ok hrun
    obtain ⟨hrest, heng⟩ := ih (h.take hstep) hrun
    rw [List.append_assoc] at hrest
    refine ⟨hrest, ?_⟩
    rw [knownMessages_cons]
    rcases h.take_eng hstep with ⟨hunknown, hsame⟩ | ⟨hknown, happ⟩
    · rw [if_pos hunknown, ← hsame]
      exact heng
    · rw [if_neg hknown, runs_cons, happ]
      exact heng

/-- The loop takes the messages in front of the stream, and leaves what follows them. -/
theorem loop_eq (locate : UInt16) (data : List UInt8) (s : TradingSession F) :
    loop locate data s = (takes locate ((split data).map decoded) s).map
      (Except.map fun s => (rest data, s)) := by
  -- along the recursion of `split`, which peels the same frames
  induction data using split.induct generalizing s with
  | case1 data hshort =>
    rw [Incomplete.split_eq hshort, Incomplete.rest_eq hshort, loop]
    split
    · rename_i h2
      dsimp only
      rw [be16_toNat h2, if_pos hshort]
      rfl
    · rfl
  | case2 data hfull ih =>
    have h2 : 2 ≤ data.length := by omega
    rw [split, if_neg hfull, rest, if_neg hfull, loop, if_pos h2, be16_toNat h2, if_neg hfull,
      decodeBody_front hfull, List.map_cons, takes]
    cases hstep : take locate s (decoded ((data.drop 2).take (announced data))) with
    | none => rfl
    | some ended =>
      cases ended with
      | error f => rfl
      | ok s₁ => exact ih s₁

/-- The messages of a stream. -/
def messagesOf (data : List UInt8) : List DecodedMessage := (split data).map decoded

/-- What the locals start from. -/
theorem after_new {prog : Program} {sc : SessionConfig F} {vm : StrategyVM F} {refs : OrderRefTable}
    (hrefs : OrderRefTable.new ((1 : UInt32) <<< 20) = some refs)
    (hvm : StrategyVM.new prog sc.params = .ok vm) : After prog sc [] (new sc refs vm) := by
  have hpow : ((1 : UInt32) <<< 20).toNat = 2 ^ 20 := by decide
  have hempty := OrderRefTable.refines_empty hpow
  rw [OrderRefTable.new_eq hpow] at hrefs
  cases hrefs
  exact ⟨⟨⟨_, hempty, rfl⟩, .start, .new hvm, Nat.le_refl 0, Nat.two_pow_pos 31, rfl,
    Nat.le_refl 0⟩, rfl, rfl, rfl⟩

/-- The flush at the end: all bars are processed, as long as an `int` counts them. -/
theorem After.flushBars {prog : Program} {sc : SessionConfig F} {ms : List DecodedMessage}
    {s s' : TradingSession F} (h : After prog sc ms s) (hflush : s.flushBars = .ok s') :
    Follows prog sc (mapEngine.run (knownMessages ms)) ms.length s' ∧
      s'.bb = s.bb.flush.2 ∧ (s'.bb.bars.size < 2 ^ 31 → s'.nextBar = s'.bb.bars.size) ∧
      s'.eng = s.eng ∧
      s'.messages = s.messages ∧ s'.malformedMessages = s.malformedMessages := by
  unfold TradingSession.flushBars BarBuilder.flush at hflush
  unfold BarBuilder.flush
  cases hopen : s.bb.open_ with
  | false =>
    -- without a print there is no bar
    rw [hopen] at hflush
    cases hflush
    have hbars := h.bars
    have hnone := BarBuilder.feed_closed (hbars ▸ hopen)
    rw [hnone] at hbars
    have hzero : s.bb.bars.size = 0 := by
      rw [hbars]
      rfl
    have hle := h.follows.nextBar_le
    exact ⟨h.follows, rfl, fun _ => by dsimp only; omega, rfl, rfl, rfl⟩
  | true =>
    rw [hopen] at hflush
    have hgrown : s.bb.bars.size ≤
        ({ s.bb.emit s.bb.o s.bb.h s.bb.l s.bb.c s.bb.vol with open_ := false } :
          BarBuilder F).bars.size := (Nat.le_succ _).trans (BarBuilder.size_push ..).ge
    have hmid := h.follows.withBars hgrown
    obtain ⟨h', hsame, hnext⟩ := hmid.processBars hflush
    exact ⟨h', hsame.bb, fun hsize => by rw [hnext (hsame.bb ▸ hsize), hsame.bb], hsame.eng,
      hsame.messages, hsame.malformedMessages⟩

/-! ## Steps that return -/

section Returns

variable [CountsBack F] {prog : Program} {sc : SessionConfig F} {e : BookEngine RefMap}
  {calls : ℕ} {s : TradingSession F}

omit [FloatMath F] [CountsBack F] in
theorem closeAt_returns {bars : BarSeries F} {t : ℕ} (h : t < bars.size) :
    ∃ close, bars.closeAt t = .ok close := by
  unfold BarSeries.closeAt
  rw [List.getElem?_eq_getElem (show t < bars.c.length from h)]
  exact ⟨_, rfl⟩

theorem Follows.barStep_returns (hp : prog.Accepted) (hsinks : prog.SinksOnce)
    (h : Follows prog sc e calls s) (hlt : s.nextBar < s.bb.bars.size) (ts : UInt64) :
    ∃ s', s.barStep ts = .ok s' := by
  obtain ⟨close, hclose⟩ := closeAt_returns hlt
  have hctx : ∃ ctx, s.om.ctx s.bb.bars s.nextBar = .ok ctx := by
    unfold OrderManager.ctx
    rw [hclose]
    exact ⟨_, rfl⟩
  obtain ⟨ctx, hctx⟩ := hctx
  obtain ⟨sig, vm, hstep⟩ := StrategyVM.step_returns hp hsinks (h.vm.sound hp) hlt ctx
  unfold TradingSession.barStep
  exact ⟨_, CheckedState.bind_eq_ok.2 ⟨ctx, hctx, CheckedState.bind_eq_ok.2
    ⟨(sig, vm), hstep, CheckedState.bind_eq_ok.2 ⟨close, hclose, rfl⟩⟩⟩⟩

theorem Follows.barSteps_returns (hp : prog.Accepted) (hsinks : prog.SinksOnce) {n : ℕ}
    (h : Follows prog sc e calls s) (hn : s.nextBar + n ≤ s.bb.bars.size)
    (hint : s.nextBar + n < 2 ^ 31) (ts : UInt64) :
    ∃ s', TradingSession.barSteps n s ts = .ok s' := by
  induction n generalizing s with
  | zero => exact ⟨s, rfl⟩
  | succ n ih =>
    obtain ⟨s₁, hstep⟩ := h.barStep_returns hp hsinks (by omega) ts
    obtain ⟨h₁, hsame, hnext⟩ := h.barStep (by omega) (by omega) hstep
    obtain ⟨s', hsteps⟩ := ih h₁ (by rw [hnext, hsame.bb]; omega) (by omega)
    exact ⟨s', CheckedState.bind_eq_ok.2 ⟨s₁, hstep, hsteps⟩⟩

theorem Follows.processBars_returns (hp : prog.Accepted) (hsinks : prog.SinksOnce)
    (h : Follows prog sc e calls s) (ts : UInt64) : ∃ s', s.processBars ts = .ok s' :=
  h.barSteps_returns hp hsinks h.toGo.1 h.toGo.2 ts

theorem Follows.onExec_returns (hp : prog.Accepted) (hsinks : prog.SinksOnce)
    (h : Follows prog sc e calls s) (locate : UInt16) (er : ExecResult) (ts : UInt64) :
    ∃ s', s.onExec locate er ts = .ok s' := by
  unfold TradingSession.onExec
  dsimp only
  split
  · split
    · exact (h.print er.price er.shares ts).processBars_returns hp hsinks ts
    · exact ⟨_, rfl⟩
  · exact ⟨s, rfl⟩

/-- A message is taken if the engine returns. -/
theorem After.take_returns {ms : List DecodedMessage} (hp : prog.Accepted)
    (hsinks : prog.SinksOnce) (h : After prog sc ms s) (m : DecodedMessage) :
    (s.take sc.locate m = none ∧ m.type ≠ .unknown ∧ s.eng.apply m = none) ∨
      ∃ s', s.take sc.locate m = some (.ok s') := by
  unfold TradingSession.take
  dsimp only
  split
  · exact .inr ⟨_, rfl⟩
  · rename_i hknown
    cases happ : s.eng.apply m with
    | none => exact .inl ⟨rfl, hknown, rfl⟩
    | some x =>
      obtain ⟨⟨eng, l⟩, er⟩ := x
      obtain ⟨-, hmid⟩ := h.follows.apply
        (BookEngine.inv_run 1000000 (2 ^ 20) (knownMessages ms)) happ
      obtain ⟨s', hexec⟩ := hmid.onExec_returns hp hsinks sc.locate er m.timestamp
      exact .inr ⟨s', congrArg some hexec⟩

/-- Messages are taken as long as the engine returns. Induction on them. -/
theorem After.takes_returns {ms us : List DecodedMessage} (hp : prog.Accepted)
    (hsinks : prog.SinksOnce) (h : After prog sc ms s) :
    (TradingSession.takes sc.locate us s = none ∧ s.eng.runs (knownMessages us) = none) ∨
      ∃ s', TradingSession.takes sc.locate us s = some (.ok s') := by
  induction us generalizing ms s with
  | nil => exact .inr ⟨s, rfl⟩
  | cons u us ih =>
    rw [TradingSession.takes, knownMessages_cons]
    rcases h.take_returns hp hsinks u with ⟨htake, hknown, happ⟩ | ⟨s₁, htake⟩
    · rw [htake, if_neg hknown]
      refine .inl ⟨rfl, ?_⟩
      rw [runs_cons, happ]
      rfl
    · have hrest := ih (h.take htake)
      rw [htake]
      rcases h.take_eng htake with ⟨hunknown, hsame⟩ | ⟨hknown, happ⟩
      · rw [if_pos hunknown, ← hsame]
        exact hrest
      · rw [if_neg hknown, runs_cons, happ]
        exact hrest

theorem After.close_returns {ms : List DecodedMessage} (hp : prog.Accepted)
    (hsinks : prog.SinksOnce) (h : After prog sc ms s) : ∃ s', s.close = .ok s' := by
  have hflush : ∃ s₁, s.flushBars = .ok s₁ := by
    unfold TradingSession.flushBars BarBuilder.flush
    cases hopen : s.bb.open_ with
    | false => exact ⟨_, rfl⟩
    | true =>
      exact (h.follows.withBars
        ((Nat.le_succ _).trans (BarBuilder.size_push ..).ge)).processBars_returns hp hsinks s.lastTs
  obtain ⟨s₁, hflush⟩ := hflush
  exact ⟨_, CheckedState.bind_eq_ok.2 ⟨s₁, hflush, rfl⟩⟩

end Returns

end TradingSession

end ItchOrderbook
