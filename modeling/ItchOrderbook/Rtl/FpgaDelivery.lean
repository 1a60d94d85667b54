import ItchOrderbook.Rtl.FpgaTop
import ItchOrderbook.Rtl.TopDelivery
import ItchOrderbook.Rtl.UartBridgeRun

/-!
# From the serial line to the book

The messages of the frames that the bridge accepts come to the book, one byte a beat, and the book
is theirs once the line is quiet (`fpga_delivers`). The frames that set the band have to come before
the first message.
-/

namespace ItchOrderbook.Rtl

open Framing StreamChain

theorem messages_nil : messages [] = [] := by
  rw [messages, incomplete_nil.split_eq]
  rfl

/-! ## Band configuration -/

/-- A book at rest whose band is configured. -/
theorem BookState.Rest.config {c : Build} {s : BookState c} {k : BookCore c} {i : EngineIn}
    (h : s.Rest k) (hr : i.rst = false) (hb : i.bandCfgValid = true) :
    (s.step i).Rest { k with bandValid := true, bandBase := i.bandCfgBase } ∧
      (s.step i).engine.engineDone = s.engine.engineDone := by
  have hengine : (s.step i).engine =
      { s.engine with
        bandBase := i.bandCfgBase, bandValid := true, tblCmdValid := false
        table := s.engine.table.tick } := by
    show s.engine.step i = _
    unfold BookUpdateEngineState.step BookUpdateEngineState.clockUnits
    rw [hr, hb, if_neg Bool.false_ne_true, if_pos rfl, h.cmd, OrderRefTableState.step_eq_tick]
    dsimp only
    rw [h.quiet.bid.tracker_step, h.quiet.ask.tracker_step]
  obtain ⟨hready, -, htable⟩ := h.ready.tick
  have hsettled : (s.step i).settled = s.settled := by
    rw [BookState.settled_step hr, show s.engine.step i = (s.step i).engine from rfl, hengine,
      BookUpdateEngineState.emitted]
    exact if_neg fun hno => Bool.false_ne_true (h.noTrade.symm.trans hno)
  refine ⟨⟨?_, ?_, ?_, ?_, ?_, ?_, ?_⟩, by rw [hengine]⟩
  · rw [hengine]
    exact h.state
  · rw [hengine]
    exact h.req
  · rw [hengine]
  · rw [hengine]
    exact ⟨h.quiet.bid, h.quiet.ask⟩
  · rw [hengine]
    exact hready
  · rw [hengine]
    exact h.noTrade
  · rw [BookState.core, hsettled, hengine, ← h.core]
    unfold BookUpdateEngineState.core
    dsimp only
    rw [htable]
    rfl

namespace TopState

variable {c : Build} {k : BookCore c} {s : TopState c} {ts : List UInt8}

/-- As long as no beat came, the engine rests. -/
theorem rest_of_flows_nil (h : Flows boardMode k s.flow [] ts) :
    ts = [] ∧ s.book.Rest k ∧ s.book.engine.engineDone = false := by
  obtain ⟨words, ⟨rfl, -⟩, beats, hbeats, ds, hframed, hupdated⟩ := h
  obtain rfl : beats = [] := hbeats
  obtain rfl : ds = [] := List.prefix_nil.1 (messages_nil ▸ hframed.given_prefix)
  obtain ⟨hts, hflight⟩ := List.append_eq_nil_iff.1 hupdated.commits.symm
  have hquiet : s.book.engine.state = .idle ∧ s.book.engine.engineDone = false := by
    unfold BookState.inFlight at hflight
    split at hflight
    · cases hflight
    · rename_i hno
      rw [not_or, not_not, Bool.not_eq_true] at hno
      exact hno
  exact ⟨hts, hupdated.serving.rest_of_idle hquiet.1, hquiet.2⟩

/-- The band is configured before the first beat. -/
theorem flows_config {base : Option UInt32} {i : TopIn} (hr : i.rst = false)
    (hb : i.bandCfgValid = true) (hv : i.inValid = false)
    (h : Flows boardMode (BookCore.powerUp c base) s.flow [] ts) :
    Flows boardMode (BookCore.powerUp c (some i.bandCfgBase)) (s.step boardMode i).flow []
      (ts ++ (orderbookTop c boardMode).given s i) := by
  obtain ⟨hts, hrest, hdone⟩ := rest_of_flows_nil h
  obtain ⟨hrest', hdone'⟩ := hrest.config (i := s.engineIn i) hr hb
  rw [hdone] at hdone'
  have htaken : (orderbookTop c boardMode).taken s i = [] := by
    show (if i.inValid && s.inReady boardMode then _ else _) = _
    rw [hv, Bool.false_and]
    rfl
  have hgiven : (orderbookTop c boardMode).given s i = [] := by
    show (if s.book.engine.engineDone then _ else _) = _
    rw [hdone]
    rfl
  -- the other units do what they do without the configuration
  have hother := (topChain_keeps boardMode (BookCore.powerUp c base)).step
    (i := { i with bandCfgValid := false }) ⟨hr, rfl⟩
    (fun t ht => by
      rw [show (topChain c boardMode).machine.taken s.flow { i with bandCfgValid := false } = []
        from htaken] at ht
      cases ht) h
  rw [show (topChain c boardMode).machine.taken s.flow { i with bandCfgValid := false } = []
    from htaken] at hother
  obtain ⟨words, hwords, beats, hbeats, ds, hframed, -⟩ := hother
  rw [hgiven, hts, flow_step hr]
  refine ⟨words, hwords, beats, hbeats, ds, hframed, ?_⟩
  obtain rfl : words = [] := hwords.1
  obtain rfl : beats = [] := hbeats
  obtain rfl : ds = [] := List.prefix_nil.1 (messages_nil ▸ hframed.given_prefix)
  refine ⟨.inl hrest', ?_⟩
  show [] = [] ++ (s.book.step (s.engineIn i)).inFlight
  rw [BookState.inFlight, if_neg]
  · rfl
  · rintro (hno | hno)
    · exact hno hrest'.state
    · exact Bool.false_ne_true (hdone'.symm.trans hno)

end TopState

/-! ## One cycle of the board -/

theorem byteBeat_ok (b : UInt8) : (byteBeat b).Ok := by
  show 1 ≤ (1 : BitVec 5).toNat ∧ (1 : BitVec 5).toNat ≤ 16
  decide

/-- The words that carry some bytes, one each. -/
def byteWords (bs : List UInt8) : List (Bool × Beat) := bs.map fun b => (false, byteBeat b)

theorem byteWords_append (xs ys : List UInt8) :
    byteWords (xs ++ ys) = byteWords xs ++ byteWords ys := List.map_append

theorem streamOf_byteWords (bs : List UInt8) :
    TopState.streamOf boardMode (byteWords bs) = bs := by
  show ((byteWords bs).map fun t => (false, t.2)).flatMap (fun t => t.2.bytes) = bs
  rw [byteWords, List.map_map, List.flatMap_map]
  simp only [Function.comp_apply, byteBeat_bytes, List.flatMap_singleton']

/-- The band is set before the first message. -/
def BandFirst (vs : List Verdict) : Prop := vs.Pairwise fun v w => v.fed = [] ∨ w.base = none

namespace RxState

variable {s : RxState} {h : Hunt UInt8}

/-- The feeder holds something as long as it feeds. -/
theorem Stands.inValid_eq (hs : s.Stands h) : s.inValid = !s.toFeed.isEmpty := by
  by_cases hp : s.frx = .feed
  · obtain ⟨-, hidx, hlen⟩ := (stands_feed hp).1 hs
    have hne : s.toFeed ≠ [] := by
      rw [toFeed, if_pos hp, ← List.length_pos_iff, List.length_drop, List.length_take,
        Vector.length_toList]
      omega
    rw [inValid, decide_eq_true hp, List.isEmpty_eq_false_iff.2 hne]
    rfl
  · rw [inValid, decide_eq_false hp, toFeed_of_ne hp]
    rfl

theorem Stands.toFeed_eq_nil (hs : s.Stands h) (hv : s.inValid = false) : s.toFeed = [] := by
  have hempty := hs.inValid_eq
  rw [hv] at hempty
  simpa using hempty.symm

end RxState

/-- A pulse stands only behind a window that sets the band, and before it nothing is fed. -/
theorem pulse_of_bandFirst {vs ws : List Verdict} (h : BandFirst (vs ++ ws)) (hws : ws.length ≤ 1)
    (hpulse : ws.filterMap Verdict.base ≠ []) : (vs ++ ws).flatMap Verdict.fed = [] := by
  obtain ⟨-, -, hcross⟩ := List.pairwise_append.1 h
  cases ws with
  | nil => exact absurd rfl hpulse
  | cons w ws =>
    obtain rfl : ws = [] := List.eq_nil_of_length_eq_zero (by simpa using hws)
    cases w with
    | band base =>
      rw [List.flatMap_eq_nil_iff]
      intro v hv
      rcases List.mem_append.1 hv with hv | hv
      · exact (hcross v hv (.band base) (List.mem_singleton_self _)).resolve_right nofun
      · rw [List.mem_singleton.1 hv]
        rfl
    | _ => exact absurd rfl hpulse

theorem windows_length_le (s : RxState) (h : Hunt UInt8) (rxb : Option UInt8) :
    (linkWindows h (s.heard rxb)).length ≤ 1 := by
  have hbyte (b : UInt8) : (linkWindows h [b]).length ≤ 1 := by
    show (h.complete 50 b ++ []).length ≤ 1
    rw [List.append_nil, Hunt.complete.eq_def]
    split
    · split
      · exact Nat.le_refl 1
      · exact Nat.zero_le 1
    · exact Nat.zero_le 1
  have hline : (linkWindows h rxb.toList).length ≤ 1 := by
    cases rxb with
    | none => exact Nat.zero_le 1
    | some b => exact hbyte b
  unfold RxState.heard
  split
  · exact Nat.zero_le 1
  · exact Nat.zero_le 1
  · exact hline

namespace FpgaTop

variable {c : Build} {d : Divisor} {s : FpgaTop c d} {i : FpgaIn}

/-- What the board has done with the bytes heard: the bridge has given the messages to the book, in
the band that was pulsed last. -/
structure Boarded (s : FpgaTop c d) (heard ts : List UInt8) (out : List BridgeEvent) : Prop where
  rstSync : s.rstSync = 7
  linked : s.bridge.Heard heard out
  pulse : s.bridge.rx.toPulse ≠ [] → (verdicts heard).flatMap Verdict.fed = []
  flows : Flows boardMode (BookCore.powerUp c (out.flatMap BridgeEvent.pulsed).getLast?)
    s.core.flow (byteWords (out.flatMap BridgeEvent.ingested)) ts

theorem boarded_cleared (hsync : s.rstSync = 7) (h : s.Cleared) : s.Boarded [] [] [] := by
  obtain ⟨⟨b, hbridge⟩, mold, ingest, hcore⟩ := h
  refine ⟨hsync, ?_, ?_, ?_⟩
  · rw [hbridge]
    exact BridgeState.heard_reset b
  · intro _
    rfl
  · rw [hcore]
    exact TopState.flows_start boardMode none mold ingest

theorem rstN_of_rstSync (h : s.rstSync = 7) : s.rstN = true := by
  rw [rstN, h]
  rfl

/-- The bridge and the book in a cycle without reset. -/
theorem step_of_rstN (hrst : s.rstN = true) (i : FpgaIn) :
    (s.step i).bridge = s.bridge.step s.bridgeIn ∧ s.coreIn.rst = false ∧
      (fpgaTop c d).taken s i = BridgeState.bridge.taken s.bridge s.bridgeIn ∧
      (fpgaTop c d).given s i = (orderbookTop c boardMode).given s.core s.coreIn :=
  ⟨if_pos hrst, by rw [coreIn, hrst]; rfl, if_pos hrst, if_pos hrst⟩

/-- What the book takes is what the bridge gives. -/
theorem taken_core (s : FpgaTop c d) : (orderbookTop c boardMode).taken s.core s.coreIn =
    byteWords ((s.bridge.events s.bridgeIn).flatMap BridgeEvent.ingested) := by
  rw [BridgeState.ingested_events, RxState.feeds]
  show (if s.bridge.rx.inValid && s.core.inReady boardMode then _ else _) =
    byteWords (if s.bridge.rx.inValid && s.core.inReady boardMode then _ else _)
  split
  · rw [RxState.inBeat_bytes]
    rfl
  · rfl

/-- One cycle. -/
theorem Boarded.step {heard ts : List UInt8} {out : List BridgeEvent} (h : s.Boarded heard ts out)
    (hi : i.rstnIn = true) (hband : BandFirst (verdicts (heard ++ (fpgaTop c d).taken s i))) :
    (s.step i).Boarded (heard ++ (fpgaTop c d).taken s i) (ts ++ (fpgaTop c d).given s i)
      (out ++ s.bridge.events s.bridgeIn) := by
  have hrst := rstN_of_rstSync h.rstSync
  obtain ⟨hbridge, hcore, htaken, hgiven⟩ := step_of_rstN hrst i
  rw [htaken] at hband ⊢
  rw [hgiven]
  have hmoves := (h.linked.stands.step s.bridgeIn.rxb s.bridgeIn.inReady s.bridge.tx.snapBusy).2.1
  refine ⟨?_, ?_, ?_, ?_⟩
  · exact rstSync_kept h.rstSync hi
  · rw [hbridge]
    exact h.linked.step s.bridgeIn
  · rw [hbridge]
    intro hpulse
    rw [show (s.bridge.step s.bridgeIn).rx.toPulse = _ from hmoves.pulse] at hpulse
    rw [verdicts_append] at hband ⊢
    refine pulse_of_bandFirst hband ?_ hpulse
    rw [List.length_map]
    exact windows_length_le _ _ _
  · show Flows _ _ (s.core.step boardMode s.coreIn).flow _ _
    rw [List.flatMap_append, List.flatMap_append, BridgeState.pulsed_events, RxState.toPulse]
    cases hcfg : s.bridge.rx.bandCfgValid with
    | false =>
      -- without a pulse the row of units goes on with the byte the bridge gives, if any
      have hplain : s.coreIn.Plain := ⟨hcore, hcfg⟩
      have hkeep := (topChain_keeps boardMode _).step hplain (fun t ht => ?_) h.flows
      · rw [TopState.flow_step hcore, byteWords_append, if_neg Bool.false_ne_true, List.append_nil]
        rw [TopState.taken_flow, taken_core] at hkeep
        exact hkeep
      · rw [TopState.taken_flow, taken_core, byteWords, List.mem_map] at ht
        obtain ⟨b, -, rfl⟩ := ht
        exact byteBeat_ok b
    | true =>
      -- with a pulse no message has been accepted yet, so no beat can be lost
      have hnone := h.pulse (by rw [RxState.toPulse, hcfg]; exact List.cons_ne_nil _ _)
      obtain ⟨hout, hfeed⟩ := List.append_eq_nil_iff.1 (h.linked.fed.trans hnone)
      have hinvalid : s.bridge.rx.inValid = false := by
        rw [h.linked.stands.inValid_eq, hfeed]
        rfl
      have hnow : (s.bridge.events s.bridgeIn).flatMap BridgeEvent.ingested = [] := by
        rw [BridgeState.ingested_events, RxState.feeds, hinvalid]
        rfl
      have hflows := h.flows
      rw [hout] at hflows
      have hkeep := TopState.flows_config hcore (i := s.coreIn) hcfg hinvalid hflows
      rw [hout, hnow, if_pos rfl, List.getLast?_concat]
      exact hkeep

/-- Every run. -/
theorem Boarded.run {heard ts : List UInt8} {out : List BridgeEvent} (h : s.Boarded heard ts out)
    {is : List FpgaIn} (his : ∀ i ∈ is, i.rstnIn = true)
    (hband : BandFirst (verdicts (heard ++ (fpgaTop c d).allTaken s is))) :
    ∃ out', ((fpgaTop c d).run s is).Boarded (heard ++ (fpgaTop c d).allTaken s is)
      (ts ++ (fpgaTop c d).allGiven s is) out' := by
  induction is generalizing s heard ts out with
  | nil =>
    rw [StreamMachine.allTaken, StreamMachine.allGiven, List.append_nil, List.append_nil]
    exact ⟨out, h⟩
  | cons i is ih =>
    obtain ⟨hi, his⟩ := List.forall_mem_cons.1 his
    rw [StreamMachine.allTaken, ← List.append_assoc] at hband ⊢
    rw [StreamMachine.allGiven, ← List.append_assoc]
    have hnow : BandFirst (verdicts (heard ++ (fpgaTop c d).taken s i)) := by
      rw [verdicts_append] at hband
      exact (List.pairwise_append.1 hband).1
    exact ih (h.step hi hnow) his hband

end FpgaTop

/-! ## The line is quiet -/

section Feeding

variable {c : Build}

/-- What the bridge offers while it holds these bytes. -/
def feedIn : List UInt8 → TopIn
  | [] => .idle
  | b :: _ => { inBeat := byteBeat b, inValid := true }

theorem plain_feedIn (bs : List UInt8) : (feedIn bs).Plain := by
  cases bs with
  | nil => exact ⟨rfl, rfl⟩
  | cons b bs => exact ⟨rfl, rfl⟩

/-- A cycle in which the bridge only gives what it holds. -/
def feedStep (q : List UInt8 × IngestState × BookState c) :
    List UInt8 × IngestState × BookState c :=
  (if q.2.1.framer.inReady then q.1.tail else q.1, (applyChain c).machine.step q.2 (feedIn q.1))

theorem taken_feedIn (p : IngestState × BookState c) (bs : List UInt8) :
    (applyChain c).machine.taken p (feedIn bs) =
      if p.1.framer.inReady then bs.head?.toList.map byteBeat else [] := by
  show (if (feedIn bs).inValid && p.1.framer.inReady then [(feedIn bs).inBeat] else []) = _
  cases bs with
  | nil => exact (ite_self []).symm
  | cons b bs => rfl

theorem applies_feedStep {k₀ : BookCore c} {q : List UInt8 × IngestState × BookState c}
    {as : List Beat} {ts : List UInt8} (h : Applies k₀ q.2 as ts) :
    ∃ as ts, Applies k₀ (feedStep q).2 as ts := by
  refine ⟨_, _, (applyChain_keeps k₀).step (plain_feedIn q.1) (fun b hb => ?_) h⟩
  rw [taken_feedIn] at hb
  split at hb
  · obtain ⟨a, -, rfl⟩ := List.mem_map.1 hb
    exact byteBeat_ok a
  · cases hb

/-- Nothing is held, and nothing is left behind the strippers. -/
def FeedRest (q : List UInt8 × IngestState × BookState c) : Prop :=
  q.1.length = 0 ∧ q.2.1.rank = 0 ∧ q.2.2.engine.state = .idle

/-- What the bridge holds gets into the book. -/
theorem feed_drains {k₀ : BookCore c} {q : List UInt8 × IngestState × BookState c}
    {as : List Beat} {ts : List UInt8} (h : Applies k₀ q.2 as ts) :
    Leads feedStep (fun _ => True) FeedRest q := by
  have hinv (q : List UInt8 × IngestState × BookState c) :
      (∃ as ts, Applies k₀ q.2 as ts) → ∃ as ts, Applies k₀ (feedStep q).2 as ts := by
    rintro ⟨as, ts, hq⟩
    exact applies_feedStep hq
  refine leads_chain applyIdle List.length (fun p => p.1.rank = 0 ∧ p.2.engine.state = .idle)
    hinv ?_ ?_ ?_ q ⟨as, ts, h⟩
  · rintro q ⟨as, ts, hq⟩
    exact apply_drains hq
  · rintro ⟨bs, p⟩ -
    cases hr : p.1.framer.inReady with
    | false =>
      -- the framer is not ready: the row behind it works alone
      refine .inr ⟨?_, apply_step_of_not_taken (plain_feedIn bs) ?_⟩
      · show (if p.1.framer.inReady then bs.tail else bs).length ≤ bs.length
        rw [hr]
        exact Nat.le_refl _
      · rw [taken_feedIn, hr]
        rfl
    | true =>
      cases bs with
      | nil =>
        refine .inr ⟨?_, apply_step_of_not_taken (plain_feedIn []) ?_⟩
        · show (if p.1.framer.inReady then [] else [] : List UInt8).length ≤ 0
          rw [ite_self]
          exact Nat.le_refl _
        · rw [taken_feedIn, hr]
          rfl
      | cons b bs =>
        -- a byte is given
        refine .inl ?_
        show (if p.1.framer.inReady then bs else b :: bs).length < (b :: bs).length
        rw [hr]
        exact Nat.lt_succ_self _
  · rintro ⟨bs, p⟩ ⟨as, ts, cs, hf, -⟩ hrest hpos
    show (if p.1.framer.inReady then bs.tail else bs).length < bs.length
    rw [hf.inReady (IngestState.drained_of_rank hrest.1), if_pos rfl, List.length_tail]
    change bs.length ≠ 0 at hpos
    omega

/-- Rest lasts. -/
theorem FeedRest.feedStep {k₀ : BookCore c} {q : List UInt8 × IngestState × BookState c}
    {as : List Beat} {ts : List UInt8} (hq : Applies k₀ q.2 as ts) (h : FeedRest q) :
    FeedRest (feedStep q) ∧ (Rtl.feedStep q).2.2.engine.engineDone = false := by
  obtain ⟨bs, p⟩ := q
  obtain ⟨cs, hf, hs⟩ := hq
  obtain ⟨hempty, hingest, hidle⟩ := h
  obtain rfl : bs = [] := List.eq_nil_of_length_eq_zero hempty
  have hrank : (applyIdle p).1.rank ≤ p.1.rank - _ :=
    IngestState.rank_step (i := (applyChain c).in₁ p.1 p.2 .idle) rfl
  have hv : ((applyChain c).in₂ p.1 p.2 .idle).decValid = false :=
    (IngestState.drained_of_rank hingest).2.2
  obtain ⟨hrest, hdone⟩ := (hs.serving.rest_of_idle hidle).idle rfl rfl hv
  change p.1.rank = 0 at hingest
  refine ⟨⟨?_, ?_, hrest.state⟩, hdone⟩
  · show (if p.1.framer.inReady then [] else [] : List UInt8).length = 0
    rw [ite_self]
    rfl
  · show (applyIdle p).1.rank = 0
    omega

/-- After some cycles the bridge holds nothing and the book rests. -/
theorem exists_feedRest {k₀ : BookCore c} {q : List UInt8 × IngestState × BookState c}
    {as : List Beat} {ts : List UInt8} (h : Applies k₀ q.2 as ts) :
    ∃ n, ∀ k, n ≤ k →
      FeedRest (feedStep^[k] q) ∧ (feedStep^[k] q).2.2.engine.engineDone = false :=
  (feed_drains h).eventually (fun q => ∃ as ts, Applies k₀ q.2 as ts)
    (fun q => q.2.2.engine.engineDone = false) ⟨_, _, h⟩
    (fun _ ⟨_, _, hq⟩ => applies_feedStep hq) fun _ ⟨_, _, hq⟩ hrest => hrest.feedStep hq

end Feeding

/-- The feeder gives the first of the bytes it holds. -/
theorem RxState.Stands.inBeat_eq {s : RxState} {h : Hunt UInt8} (hs : s.Stands h)
    (hv : s.inValid = true) : ∃ b bs, s.toFeed = b :: bs ∧ s.inBeat = byteBeat b := by
  have hfeed : s.frx = .feed := of_decide_eq_true hv
  have hnone : s.heard none = [] := by rw [RxState.heard, hfeed]
  have hmoves := (hs.step none true false).2.1.feed
  rw [RxState.feeds, hv, Bool.and_self, if_pos rfl, RxState.inBeat_bytes, hnone] at hmoves
  exact ⟨_, _, (hmoves.trans (List.append_nil _)).symm, rfl⟩

namespace FpgaTop

variable {c : Build} {d : Divisor} {s : FpgaTop c d} {i : FpgaIn}

/-- What the bridge holds, and the units behind the strippers. -/
def feeding (s : FpgaTop c d) : List UInt8 × IngestState × BookState c :=
  (s.bridge.rx.toFeed, s.core.ingest, s.core.book)

/-- The reset is off, and no pulse stands. -/
structure Settled (s : FpgaTop c d) (h : Hunt UInt8) : Prop where
  rstSync : s.rstSync = 7
  stands : s.bridge.rx.Stands h
  pulse : s.bridge.rx.bandCfgValid = false

theorem inReady_board (s : TopState c) : s.inReady boardMode = s.ingest.framer.inReady :=
  Bool.or_false _

/-- A cycle in which nothing is heard. -/
theorem unheard_step {h : Hunt UInt8} (hsync : s.rstSync = 7) (hs : s.bridge.rx.Stands h)
    (hi : i.rstnIn = true) (hnone : (fpgaTop c d).taken s i = []) :
    (s.step i).Settled h ∧
      s.bridge.rx.feeds s.core.ingest.framer.inReady ++ (s.step i).bridge.rx.toFeed =
        s.bridge.rx.toFeed := by
  have hrst := rstN_of_rstSync hsync
  obtain ⟨hbridge, -, htaken, -⟩ := step_of_rstN hrst i
  have hheard : s.bridge.rx.heard s.bridgeIn.rxb = [] := htaken.symm.trans hnone
  obtain ⟨hstands, hmoves, -⟩ :=
    hs.step s.bridgeIn.rxb s.bridgeIn.inReady s.bridge.tx.snapBusy
  rw [hheard] at hstands hmoves
  have hready : s.bridge.rx.feeds s.bridgeIn.inReady =
      s.bridge.rx.feeds s.core.ingest.framer.inReady :=
    congrArg s.bridge.rx.feeds (inReady_board s.core)
  refine ⟨⟨?_, ?_, ?_⟩, ?_⟩
  · exact rstSync_kept hsync hi
  · rw [hbridge]
    exact hstands
  · rw [hbridge]
    have hpulse : (s.bridge.step s.bridgeIn).rx.toPulse = [] := hmoves.pulse
    unfold RxState.toPulse at hpulse
    split at hpulse
    · cases hpulse
    · rename_i hno
      exact Bool.eq_false_iff.2 hno
  · rw [hbridge, ← hready]
    exact hmoves.feed.trans (List.append_nil _)

/-- Then the bridge only gives what it holds. -/
theorem Settled.feeding_step {h : Hunt UInt8} (hs : s.Settled h) (hi : i.rstnIn = true)
    (hnone : (fpgaTop c d).taken s i = []) :
    (s.step i).Settled h ∧ (s.step i).feeding = feedStep s.feeding := by
  have hrst := rstN_of_rstSync hs.rstSync
  obtain ⟨hsettled, hfeed⟩ := unheard_step hs.rstSync hs.stands hi hnone
  obtain ⟨-, hcore, -, -⟩ := step_of_rstN hrst i
  -- in raw mode the strippers pass the beat on as it is
  let j : TopIn := (decapChain c false).in₂ s.core.mold (s.core.ingest, s.core.book)
    ((topChain c boardMode).in₂ s.core.strip (s.core.mold, s.core.ingest, s.core.book) s.coreIn)
  have hplain : j.Plain := ⟨hcore, hs.pulse⟩
  have hunits : ((s.step i).core.ingest, (s.step i).core.book) =
      (applyChain c).machine.step (s.core.ingest, s.core.book) j :=
    congrArg (·.2.2) (TopState.flow_step (m := boardMode) (s := s.core) hcore)
  have hbeat : j.inBeat = s.bridge.rx.inBeat := rfl
  have hvalid : j.inValid = s.bridge.rx.inValid := Bool.and_true _
  have hsame : (applyChain c).machine.step (s.core.ingest, s.core.book) j =
      (applyChain c).machine.step (s.core.ingest, s.core.book) (feedIn s.bridge.rx.toFeed) := by
    cases hv : s.bridge.rx.inValid with
    | true =>
      obtain ⟨b, bs, hbs, hbyte⟩ := hs.stands.inBeat_eq hv
      rw [hbs]
      exact apply_step_congr hplain ⟨rfl, rfl⟩ (hbeat.trans hbyte) (hvalid.trans hv)
    | false =>
      rw [hs.stands.toFeed_eq_nil hv, apply_step_of_not_taken hplain,
        apply_step_of_not_taken (plain_feedIn [])]
      · rw [taken_feedIn]
        exact ite_self []
      · show (if j.inValid && _ then _ else _) = _
        rw [hvalid, hv, Bool.false_and]
        rfl
  refine ⟨hsettled, Prod.ext ?_ (hunits.trans hsame)⟩
  show (s.step i).bridge.rx.toFeed =
    if s.core.ingest.framer.inReady then s.bridge.rx.toFeed.tail else s.bridge.rx.toFeed
  unfold RxState.feeds at hfeed
  rw [← hfeed]
  -- a byte leaves the feeder exactly when it is offered and the framer is ready
  cases hv : s.bridge.rx.inValid with
  | true =>
    cases hr : s.core.ingest.framer.inReady with
    | true =>
      rw [Bool.and_self, if_pos rfl, if_pos rfl, RxState.inBeat_bytes]
      rfl
    | false => rfl
  | false =>
    have hempty := hs.stands.toFeed_eq_nil hv
    rw [hv, hempty] at hfeed
    have hnil : (s.step i).bridge.rx.toFeed = [] := hfeed
    rw [hnil]
    exact (ite_self []).symm

theorem Settled.feeding_run {h : Hunt UInt8} (hs : s.Settled h) {js : List FpgaIn}
    (hjs : ∀ j ∈ js, j.rstnIn = true) (hnone : (fpgaTop c d).allTaken s js = []) :
    ((fpgaTop c d).run s js).Settled h ∧
      ((fpgaTop c d).run s js).feeding = feedStep^[js.length] s.feeding := by
  induction js generalizing s with
  | nil => exact ⟨hs, rfl⟩
  | cons j js ih =>
    obtain ⟨hj, hjs⟩ := List.forall_mem_cons.1 hjs
    obtain ⟨hnow, hrest⟩ := List.append_eq_nil_iff.1 hnone
    obtain ⟨hsettled, hstep⟩ := hs.feeding_step hj hnow
    rw [StreamMachine.run_cons, List.length_cons, Function.iterate_succ_apply, ← hstep]
    exact ih hsettled hjs hrest

/-- **The board drains.** -/
theorem Boarded.drains {heard ts : List UInt8} {out : List BridgeEvent}
    (h : s.Boarded heard ts out) (hband : BandFirst (verdicts heard)) :
    ∃ n, ∀ js : List FpgaIn, (∀ j ∈ js, j.rstnIn = true) →
      (fpgaTop c d).allTaken s js = [] → n ≤ js.length →
      ((fpgaTop c d).run s js).bridge.rx.toFeed = [] ∧
        ((fpgaTop c d).run s js).bridge.rx.toPulse = [] ∧
        TopState.AtRest boardMode ((fpgaTop c d).run s js).core := by
  -- a pulse may still stand in the first cycle, which does not look at the line
  let i : FpgaIn := ⟨true, true⟩
  have hrst := rstN_of_rstSync h.rstSync
  have hfirst (j : FpgaIn) : (s.step j).feeding = (s.step i).feeding := by
    unfold feeding
    rw [(step_of_rstN hrst j).1, (step_of_rstN hrst i).1]
    rfl
  by_cases hnone : (fpgaTop c d).taken s i = []
  case neg =>
    -- a byte that stands is heard whatever the line does, so no such run exists
    refine ⟨1, fun js _ htaken hlen => ?_⟩
    cases js with
    | nil => exact absurd hlen (by decide)
    | cons j js =>
      refine absurd ?_ hnone
      rw [(step_of_rstN hrst i).2.2.1, ← (step_of_rstN hrst j).2.2.1]
      exact (List.append_eq_nil_iff.1 htaken).1
  case pos =>
    have hnext := h.step (i := i) rfl (by rwa [hnone, List.append_nil])
    obtain ⟨words, -, beats, -, happlies⟩ := hnext.flows
    obtain ⟨n, hn⟩ := exists_feedRest (q := (s.step i).feeding) happlies
    refine ⟨n + 1, fun js hjs htaken hlen => ?_⟩
    cases js with
    | nil => exact absurd hlen (Nat.not_succ_le_zero n)
    | cons j js =>
      obtain ⟨hj, hjs⟩ := List.forall_mem_cons.1 hjs
      obtain ⟨hnow, hrest⟩ := List.append_eq_nil_iff.1 htaken
      obtain ⟨hsettled, -⟩ := unheard_step h.rstSync h.linked.stands hj hnow
      obtain ⟨hend, hrun⟩ := hsettled.feeding_run hjs hrest
      obtain ⟨⟨hempty, hingest, hidle⟩, hdone⟩ := hn js.length (Nat.le_of_succ_le_succ hlen)
      rw [← hfirst j, ← hrun] at hempty hingest hidle hdone
      refine ⟨List.eq_nil_of_length_eq_zero hempty, ?_, ⟨rfl, hingest, hidle⟩, hdone⟩
      exact if_neg fun hno => Bool.false_ne_true (hend.pulse.symm.trans hno)

/-- What the book has taken. -/
theorem Boarded.commits {heard ts : List UInt8} {out : List BridgeEvent}
    (h : s.Boarded heard ts out) :
    ts <+: (messages ((verdicts heard).flatMap Verdict.fed)).map (·.mtype) := by
  obtain ⟨ds, hds, hupdated⟩ := TopState.taken_of_flows h.flows
  rw [streamOf_byteWords] at hds
  have hfed := messages_mono (h.linked.fed ▸ List.prefix_append _ _)
  exact (hupdated.commits ▸ List.prefix_append _ _ : ts <+: ds.map (·.mtype)).trans
    ((hds.trans hfed).map _)

/-- What it is once all is taken. -/
theorem Boarded.applied {heard ts : List UInt8} {out : List BridgeEvent}
    (h : s.Boarded heard ts out) (hfeed : s.bridge.rx.toFeed = [])
    (hpulse : s.bridge.rx.toPulse = []) (hrest : TopState.AtRest boardMode s.core) :
    ts = (messages ((verdicts heard).flatMap Verdict.fed)).map (·.mtype) ∧
      s.core.book.core = (messages ((verdicts heard).flatMap Verdict.fed)).foldl BookCore.apply
        (BookCore.powerUp c ((verdicts heard).filterMap Verdict.base).getLast?) := by
  obtain ⟨-, hts, hcore, -⟩ := TopState.atRest_of_flows h.flows hrest
  have hfed := h.linked.fed
  have hbase := h.linked.pulsed
  rw [hfeed, List.append_nil] at hfed
  rw [hpulse, List.append_nil] at hbase
  rw [streamOf_byteWords, hfed] at hts hcore
  rw [hbase] at hcore
  exact ⟨hts, hcore⟩

end FpgaTop

open FpgaTop in
/-- **The board applies what the host sends.** From configuration on, with any reset and anything on
the line: the commits are those of the first messages of the accepted frames. When no more bytes are
heard they are those of all messages after some cycles, and the book is theirs, in the band that was
set last. -/
theorem fpga_delivers {c : Build} {d : Divisor} {s : FpgaTop c d} (hs : s.Configured)
    {boot is : List FpgaIn} (hboot : Boots boot) (his : ∀ i ∈ is, i.rstnIn = true)
    (hband : BandFirst (verdicts ((fpgaTop c d).allTaken s (boot ++ is)))) :
    let board := fpgaTop c d
    let vs := verdicts (board.allTaken s (boot ++ is))
    let ms := messages (vs.flatMap Verdict.fed)
    board.allGiven s (boot ++ is) <+: ms.map (·.mtype) ∧
      ∃ n, ∀ js : List FpgaIn, (∀ j ∈ js, j.rstnIn = true) →
        board.allTaken (board.run s (boot ++ is)) js = [] → n ≤ js.length →
        board.allGiven s (boot ++ is ++ js) = ms.map (·.mtype) ∧
          (board.run s (boot ++ is ++ js)).core.book.core =
            ms.foldl BookCore.apply (BookCore.powerUp c (vs.filterMap Verdict.base).getLast?) := by
  intro board vs ms
  obtain ⟨hsync, hcleared, -, hboot₀, hboot₁⟩ := hs.boots hboot
  have htaken (xs : List FpgaIn) :
      board.allTaken s (boot ++ xs) = board.allTaken (board.run s boot) xs := by
    rw [StreamMachine.allTaken_append, hboot₀, List.nil_append]
  have hgiven (xs : List FpgaIn) :
      board.allGiven s (boot ++ xs) = board.allGiven (board.run s boot) xs := by
    rw [StreamMachine.allGiven_append, hboot₁, List.nil_append]
  -- any run behind the boot that hears the same bytes
  have hruns (xs : List FpgaIn) (hxs : ∀ i ∈ xs, i.rstnIn = true)
      (hsame : board.allTaken s (boot ++ xs) = board.allTaken s (boot ++ is)) :
      ∃ out, (board.run s (boot ++ xs)).Boarded (board.allTaken s (boot ++ is))
        (board.allGiven s (boot ++ xs)) out := by
    have hrun := (boarded_cleared hsync hcleared).run hxs
    rw [List.nil_append, List.nil_append, ← htaken, ← hgiven, hsame,
      ← StreamMachine.run_append] at hrun
    exact hrun hband
  obtain ⟨out, hboarded⟩ := hruns is his rfl
  refine ⟨hboarded.commits, ?_⟩
  obtain ⟨n, hn⟩ := hboarded.drains hband
  refine ⟨n, fun js hjs hnone hlen => ?_⟩
  obtain ⟨hfeed, hpulse, hrest⟩ := hn js hjs hnone hlen
  rw [← StreamMachine.run_append] at hfeed hpulse hrest
  have hall : ∀ i ∈ is ++ js, i.rstnIn = true :=
    fun i hi => (List.mem_append.1 hi).elim (his i) (hjs i)
  have hsame : board.allTaken s (boot ++ (is ++ js)) = board.allTaken s (boot ++ is) := by
    rw [← List.append_assoc, StreamMachine.allTaken_append, hnone, List.append_nil]
  obtain ⟨out', hafter⟩ := hruns (is ++ js) hall hsame
  rw [← List.append_assoc] at hafter
  exact hafter.applied hfeed hpulse hrest

end ItchOrderbook.Rtl
