import ItchOrderbook.Rtl.TopUnits

/-!
# What the pipeline does with a stream

The messages that the engine takes are those of the stream, in order, and the top gives their
commits; when nothing comes in any more the pipeline drains, and then the book is that of all
messages of the stream (`top_delivers`). When the beats came, and what held them up, does not
matter.
-/

namespace ItchOrderbook.Rtl

open StreamChain
open BigEndian (toBytes)

/-! ## Cycles in which nothing comes in -/

/-- Nothing comes in. -/
def TopIn.Quiet (i : TopIn) : Prop := i.Plain ∧ i.inValid = false

/-- One such cycle; they are all alike. -/
def TopIn.idle : TopIn := { inBeat := default }

theorem TopIn.plain_idle : TopIn.idle.Plain := ⟨rfl, rfl⟩

theorem FramerState.step_of_not_accepted {s : FramerState} {i : FramerIn}
    (h : (i.inValid && s.inReady) = false) : s.step i = s.step ⟨default, false, i.decPending⟩ := by
  have hwin (b : Beat) : s.winN false b = s.winN false default := by
    unfold winN
    simp only [Bool.false_eq_true, false_and, if_false]
  unfold step
  rw [h, Bool.false_and]
  dsimp only
  rw [hwin i.inBeat]
  rfl

namespace IngestState

/-- A beat that is not taken does not matter. -/
theorem step_of_not_taken {s : IngestState} {i : IngestIn} (h : ingest.taken s i = []) :
    s.step i = s.step ⟨default, false, i.engineIdle⟩ := by
  have hnot : (i.inValid && s.framer.inReady) = false := by
    by_contra hload
    rw [Bool.not_eq_false] at hload
    have htaken : ingest.taken s i = [i.inBeat] := if_pos hload
    rw [htaken] at h
    cases h
  unfold step
  rw [FramerState.step_of_not_accepted (i := ⟨i.inBeat, i.inValid, s.decoder.decValid⟩) hnot]
  rfl

end IngestState

namespace BookState

variable {c : Build} {s : BookState c} {i : EngineIn}

/-- A configuration that is not valid does not matter. -/
theorem step_plain (hi : Plain i) : s.step i = s.step { dec := i.dec, decValid := i.decValid } := by
  obtain ⟨rst, dec, decValid, cfgValid, base⟩ := i
  obtain ⟨rfl, rfl⟩ : rst = false ∧ cfgValid = false := hi
  rfl

/-- A message that is not taken does not matter. -/
theorem step_of_not_accepted (hi : Plain i) (h : s.accept i = none) : s.step i = s.step {} := by
  have hfsm : s.engine.fsm { dec := i.dec, decValid := i.decValid } = s.engine.fsm {} := by
    unfold BookUpdateEngineState.fsm
    cases hs : s.engine.state with
    | idle =>
      have hv : i.decValid = false := by
        unfold accept BookUpdateEngineState.decAccept at h
        rw [hs] at h
        cases hv : i.decValid with
        | false => rfl
        | true =>
          rw [hv] at h
          cases h
      unfold BookUpdateEngineState.onIdle
      rw [hv]
      rfl
    | _ => rfl
  rw [step_plain hi]
  unfold step BookUpdateEngineState.step
  simp only [Bool.false_eq_true, if_false, hfsm]

/-- The engine gets to rest. -/
theorem Serving.drains {k : BookCore c} (h : s.Serving k) :
    Leads (fun b : BookState c => b.step {}) (fun _ => True)
      (fun b => b.engine.state = .idle) s := by
  rcases h with hr | hl
  · exact .here hr.state
  · refine (hl.lift id (fun _ _ => rfl) fun _ _ => trivial).mono ?_
    rintro _ ⟨b, rfl, hr, -⟩
    exact hr.state

end BookState

/-! ## Draining -/

section Drains

variable {c : Build}

/-- An idle cycle of framer, decoder and engine. -/
def applyIdle (p : IngestState × BookState c) : IngestState × BookState c :=
  (applyChain c).machine.step p .idle

/-- An idle cycle of these with the Mold stripper before them. -/
def decapIdle (moldMode : Bool) (q : StripperState × IngestState × BookState c) :
    StripperState × IngestState × BookState c :=
  (decapChain c moldMode).machine.step q .idle

theorem apply_book_step (p : IngestState × BookState c) {i : TopIn} (hi : i.Plain) :
    ((applyChain c).machine.step p i).2 =
      p.2.step { dec := p.1.decoder.dec, decValid := p.1.decoder.decValid } :=
  BookState.step_plain hi

/-- A cycle in which the framer takes nothing. -/
theorem apply_step_of_not_taken {p : IngestState × BookState c} {i : TopIn} (hi : i.Plain)
    (h : (applyChain c).machine.taken p i = []) :
    (applyChain c).machine.step p i = applyIdle p :=
  Prod.ext (IngestState.step_of_not_taken h)
    ((apply_book_step p hi).trans (apply_book_step p TopIn.plain_idle).symm)

/-- Only the beat matters. -/
theorem apply_step_congr {p : IngestState × BookState c} {i j : TopIn} (hi : i.Plain)
    (hj : j.Plain) (hb : i.inBeat = j.inBeat) (hv : i.inValid = j.inValid) :
    (applyChain c).machine.step p i = (applyChain c).machine.step p j := by
  have hfirst : (applyChain c).in₁ p.1 p.2 i = (applyChain c).in₁ p.1 p.2 j := by
    show IngestIn.mk i.inBeat i.inValid _ = IngestIn.mk j.inBeat j.inValid _
    rw [hb, hv]
  exact Prod.ext (congrArg (IngestState.step p.1) hfirst)
    ((apply_book_step p hi).trans (apply_book_step p hj).symm)

/-- Framer, decoder and engine drain. -/
theorem apply_drains {k₀ : BookCore c} {p : IngestState × BookState c} {as : List Beat}
    {ts : List UInt8} (h : Applies k₀ p as ts) :
    Leads applyIdle (fun _ => True)
      (fun p : IngestState × BookState c => p.1.rank = 0 ∧ p.2.engine.state = .idle) p := by
  have hinv (p : IngestState × BookState c) :
      (∃ as ts, Applies k₀ p as ts) → ∃ as ts, Applies k₀ (applyIdle p) as ts := by
    rintro ⟨as, ts, hp⟩
    exact ⟨_, _, (applyChain_keeps k₀).step TopIn.plain_idle (fun _ hb => by cases hb) hp⟩
  have hrank (p : IngestState × BookState c) : (applyIdle p).1.rank ≤
      p.1.rank - if p.2.engine.state == .idle then 1 else 0 :=
    IngestState.rank_step (i := (applyChain c).in₁ p.1 p.2 .idle) rfl
  refine leads_chain (fun b => b.step {}) IngestState.rank (fun b => b.engine.state = .idle) hinv ?_
    (fun p hp => ?_) (fun p _ hidle hpos => ?_) p ⟨as, ts, h⟩
  · rintro p ⟨as, ts, bs, -, hs⟩
    exact hs.serving.drains
  · have hle := hrank p
    have hbook (hnone : p.2.accept ((applyChain c).in₂ p.1 p.2 .idle) = none) :
        (applyIdle p).2 = p.2.step {} := BookState.step_of_not_accepted ⟨rfl, rfl⟩ hnone
    by_cases hidle : p.2.engine.state = .idle
    · rw [hidle, beq_self_eq_true, if_pos rfl] at hle
      by_cases h0 : p.1.rank = 0
      · -- no message waits
        refine .inr ⟨by omega, hbook ?_⟩
        have hv : p.1.decoder.decValid = false := (IngestState.drained_of_rank h0).2.2
        unfold BookState.accept BookUpdateEngineState.decAccept
        rw [show ((applyChain c).in₂ p.1 p.2 .idle).decValid = false from hv, Bool.and_false]
        rfl
      · exact .inl (by omega)
    · obtain ⟨as, ts, bs, -, hs⟩ := hp
      have hbusy := (hs.serving.work_cases hidle).1
      exact .inr ⟨hle.trans (Nat.sub_le _ _),
        hbook (hbusy.step (i := (applyChain c).in₂ p.1 p.2 .idle) ⟨rfl, rfl⟩).1⟩
  · have hle := hrank p
    rw [hidle, beq_self_eq_true, if_pos rfl] at hle
    omega

/-! ### The strippers -/

/-- How far the Mold stripper is from rest; what only goes through it is never in it. -/
def stageRank (moldMode : Bool) (d : StripperState) : ℕ := if moldMode then d.rank else 0

theorem stageStep_of_not_valid {moldMode : Bool} {d : StripperState} {i : StripperIn}
    (h : i.inValid = false) :
    d.stageStep moldMode i = d.stageStep moldMode ⟨default, false, false, i.outReady⟩ := by
  obtain ⟨b, v, sop, r⟩ := i
  obtain rfl : v = false := h
  rfl

/-- A cycle in which no beat comes from the UDP stripper. -/
theorem decap_step_of_not_valid {moldMode : Bool}
    {q : StripperState × IngestState × BookState c} {i : TopIn} (hi : i.Plain)
    (h : i.inValid = false) : (decapChain c moldMode).machine.step q i = decapIdle moldMode q := by
  have hplain : ((decapChain c moldMode).in₂ q.1 q.2 i).Plain := hi
  refine Prod.ext ?_ ?_
  · exact stageStep_of_not_valid (i := (decapChain c moldMode).in₁ q.1 q.2 i) h
  · show (applyChain c).machine.step q.2 ((decapChain c moldMode).in₂ q.1 q.2 i) =
      (applyChain c).machine.step q.2 ((decapChain c moldMode).in₂ q.1 q.2 .idle)
    cases moldMode with
    | true => exact apply_step_congr hplain ⟨rfl, rfl⟩ rfl rfl
    | false =>
      have hnone (j : TopIn) (hv : j.inValid = false) : (applyChain c).machine.taken q.2
          ((decapChain c false).in₂ q.1 q.2 j) = [] := by
        show (if j.inValid && _ then _ else _) = _
        rw [hv, Bool.false_and]
        rfl
      rw [apply_step_of_not_taken hplain (hnone i h),
        apply_step_of_not_taken ⟨rfl, rfl⟩ (hnone .idle rfl)]

/-- When the Mold stripper gives nothing, the rest is left alone. -/
theorem decapIdle_snd {moldMode : Bool} {q : StripperState × IngestState × BookState c}
    (h : (moldStage moldMode).given q.1 ((decapChain c moldMode).in₁ q.1 q.2 .idle) = []) :
    (decapIdle moldMode q).2 = applyIdle q.2 := by
  rw [(decapChain c moldMode).handshake] at h
  exact apply_step_of_not_taken (i := (decapChain c moldMode).in₂ q.1 q.2 .idle) ⟨rfl, rfl⟩ h

/-- An idle cycle moves the Mold stripper on if the framer is ready. -/
theorem stageRank_decapIdle {moldMode : Bool} {q : StripperState × IngestState × BookState c}
    (h : ∃ as bs, StripperState.Passes moldMode q.1 as bs) :
    stageRank moldMode (decapIdle moldMode q).1 ≤
      stageRank moldMode q.1 - if q.2.1.framer.inReady then 1 else 0 := by
  cases moldMode with
  | false => exact Nat.zero_le _
  | true =>
    obtain ⟨as, bs, a, -, hheld, -⟩ := h
    exact StripperState.rank_step hheld (i := (decapChain c true).in₁ q.1 q.2 .idle) rfl

/-- At rest the Mold stripper gives nothing, and with a framer that is not ready neither. -/
theorem stage_given_eq_nil {moldMode : Bool} {q : StripperState × IngestState × BookState c}
    (h : stageRank moldMode q.1 = 0 ∨ q.2.1.framer.inReady = false) :
    (moldStage moldMode).given q.1 ((decapChain c moldMode).in₁ q.1 q.2 .idle) = [] := by
  show (if q.1.stageValid moldMode false && q.2.1.framer.inReady then _ else _) = _
  rcases h with h | h
  · have hvalid : q.1.stageValid moldMode false = false := by
      cases moldMode with
      | false => rfl
      | true => exact (StripperState.atRest_of_rank h).2.2
    rw [hvalid, Bool.false_and]
    rfl
  · rw [h, Bool.and_false]
    rfl

/-- Nothing is left in the Mold stripper and behind it. -/
def DecapRest (moldMode : Bool) (q : StripperState × IngestState × BookState c) : Prop :=
  stageRank moldMode q.1 = 0 ∧ q.2.1.rank = 0 ∧ q.2.2.engine.state = .idle

theorem decaps_decapIdle {moldMode : Bool} {k₀ : BookCore c}
    {q : StripperState × IngestState × BookState c} {as : List (Bool × Beat)} {ts : List UInt8}
    (h : Decaps moldMode k₀ q as ts) :
    ∃ as ts, Decaps moldMode k₀ (decapIdle moldMode q) as ts :=
  ⟨_, _, (decapChain_keeps moldMode k₀).step TopIn.plain_idle (fun _ hb => by cases hb) h⟩

/-- All behind the UDP stripper drains. -/
theorem decap_drains {moldMode : Bool} {k₀ : BookCore c}
    {q : StripperState × IngestState × BookState c} {as : List (Bool × Beat)} {ts : List UInt8}
    (h : Decaps moldMode k₀ q as ts) :
    Leads (decapIdle moldMode) (fun _ => True) (DecapRest moldMode) q := by
  have hinv (q : StripperState × IngestState × BookState c) :
      (∃ as ts, Decaps moldMode k₀ q as ts) →
        ∃ as ts, Decaps moldMode k₀ (decapIdle moldMode q) as ts :=
    fun ⟨_, _, hq⟩ => decaps_decapIdle hq
  refine leads_chain applyIdle (stageRank moldMode)
    (fun p => p.1.rank = 0 ∧ p.2.engine.state = .idle) hinv ?_ ?_ ?_ q ⟨as, ts, h⟩
  · rintro q ⟨as, ts, bs, -, hp⟩
    exact apply_drains hp
  · rintro q ⟨as, ts, bs, hd, -⟩
    have hle := stageRank_decapIdle ⟨as, bs, hd⟩
    by_cases hmoves : stageRank moldMode q.1 = 0 ∨ q.2.1.framer.inReady = false
    · exact .inr ⟨hle.trans (Nat.sub_le _ _), decapIdle_snd (stage_given_eq_nil hmoves)⟩
    · rw [not_or, Bool.not_eq_false] at hmoves
      rw [hmoves.2, if_pos rfl] at hle
      exact .inl (by omega)
  · rintro q ⟨as, ts, bs, hd, cs, hf, -⟩ hrest hpos
    have hle := stageRank_decapIdle ⟨as, bs, hd⟩
    rw [hf.inReady (IngestState.drained_of_rank hrest.1), if_pos rfl] at hle
    omega

/-- Rest lasts. -/
theorem DecapRest.decapIdle {moldMode : Bool} {k₀ : BookCore c}
    {q : StripperState × IngestState × BookState c} {as : List (Bool × Beat)} {ts : List UInt8}
    (hq : Decaps moldMode k₀ q as ts) (h : DecapRest moldMode q) :
    DecapRest moldMode (decapIdle moldMode q) ∧
      (Rtl.decapIdle moldMode q).2.2.engine.engineDone = false := by
  obtain ⟨bs, hd, cs, hf, hs⟩ := hq
  obtain ⟨hstage, hingest, hidle⟩ := h
  have hle := stageRank_decapIdle ⟨as, bs, hd⟩
  have hsnd := decapIdle_snd (stage_given_eq_nil (q := q) (.inl hstage))
  have hrank : (applyIdle q.2).1.rank ≤ q.2.1.rank - _ :=
    IngestState.rank_step (i := (applyChain c).in₁ q.2.1 q.2.2 .idle) rfl
  have hv : ((applyChain c).in₂ q.2.1 q.2.2 .idle).decValid = false :=
    (IngestState.drained_of_rank hingest).2.2
  obtain ⟨hrest, hdone⟩ := (hs.serving.rest_of_idle hidle).idle rfl rfl hv
  unfold DecapRest
  rw [hsnd]
  exact ⟨⟨by omega, by omega, hrest.state⟩, hdone⟩

end Drains

/-- The messages of a part of a stream come first. -/
theorem messages_mono {xs ys : List UInt8} (h : xs <+: ys) : messages xs <+: messages ys :=
  (Framing.split_mono h).filterMap frameMessage

/-! ## The whole pipeline -/

namespace TopState

variable {c : Build} {m : TopMode} {k₀ : BookCore c} {s : TopState c} {i : TopIn}
  {as : List (Bool × Beat)} {ts : List UInt8}

/-- Nothing is left in the pipeline, and no commit is still to be given. -/
def AtRest (m : TopMode) (s : TopState c) : Prop :=
  DecapRest m.mold s.flow.2 ∧ s.book.engine.engineDone = false

/-- When nothing comes in the UDP stripper does nothing. -/
theorem flow_quiet (hi : i.Quiet) : (s.step m i).flow = (s.strip, decapIdle m.mold s.flow.2) := by
  obtain ⟨hplain, hv⟩ := hi
  have hstrip : s.strip.step m.rawMode (s.stripIn m i) = s.strip := by
    unfold UdpState.step stripIn
    rw [hv]
    rfl
  have hvalid : s.strip.outValid m.rawMode (s.stripIn m i) = false := by
    unfold UdpState.outValid stripIn
    rw [hv]
    split
    · rfl
    · rfl
  rw [flow_step hplain.1]
  exact Prod.ext hstrip
    (decap_step_of_not_valid (i := (topChain c m).in₂ s.strip s.flow.2 i) hplain hvalid)

theorem taken_quiet (hi : i.Quiet) : (orderbookTop c m).taken s i = [] := by
  show (if i.inValid && s.inReady m then _ else _) = _
  rw [hi.2, Bool.false_and]
  rfl

theorem run_quiet (s : TopState c) {js : List TopIn} (hjs : ∀ j ∈ js, j.Quiet) :
    ((orderbookTop c m).run s js).flow = (s.strip, (decapIdle m.mold)^[js.length] s.flow.2) ∧
      (orderbookTop c m).allTaken s js = [] := by
  induction js generalizing s with
  | nil => exact ⟨rfl, rfl⟩
  | cons j js ih =>
    obtain ⟨hj, hjs⟩ := List.forall_mem_cons.1 hjs
    have hnow := flow_quiet (s := s) (m := m) hj
    obtain ⟨hflow, hnone⟩ := ih (s.step m j) hjs
    refine ⟨?_, ?_⟩
    · rw [StreamMachine.run_cons, List.length_cons, Function.iterate_succ_apply]
      refine hflow.trans ?_
      rw [show (s.step m j).strip = _ from congrArg Prod.fst hnow, hnow]
    · rw [StreamMachine.allTaken, taken_quiet hj, List.nil_append]
      exact hnone

/-- **The pipeline drains.** -/
theorem drains (h : Flows m k₀ s.flow as ts) :
    ∃ n, ∀ js : List TopIn, (∀ j ∈ js, j.Quiet) → n ≤ js.length →
      AtRest m ((orderbookTop c m).run s js) := by
  obtain ⟨words, -, hdecaps⟩ := h
  obtain ⟨n, hn⟩ := (decap_drains hdecaps).eventually (fun q => ∃ as ts, Decaps m.mold k₀ q as ts)
    (fun q => q.2.2.engine.engineDone = false) ⟨_, _, hdecaps⟩
    (fun _ ⟨_, _, hq⟩ => decaps_decapIdle hq) fun _ ⟨_, _, hq⟩ hrest => hrest.decapIdle hq
  refine ⟨n, fun js hjs hlen => ?_⟩
  obtain ⟨hrest, hdone⟩ := hn js.length hlen
  obtain ⟨hflow, -⟩ := run_quiet (m := m) s hjs
  have hsnd := congrArg Prod.snd hflow
  refine ⟨?_, ?_⟩
  · rw [hsnd]
    exact hrest
  · rw [show ((orderbookTop c m).run s js).book = _ from congrArg (·.2.2) hsnd]
    exact hdone

/-- What the engine has taken are the first messages of the stream. -/
theorem taken_of_flows (h : Flows m k₀ s.flow as ts) :
    ∃ ds, ds <+: messages (streamOf m as) ∧ s.book.Updated k₀ ds ts := by
  obtain ⟨words, hwords, beats, hbeats, ds, hframed, hupdated⟩ := h
  refine ⟨ds, hframed.given_prefix.trans (messages_mono ?_), hupdated⟩
  rw [streamOf, ← hwords.1]
  exact hbeats.given_prefix

/-- At rest it has taken and committed them all, and the next beat is taken. -/
theorem atRest_of_flows (h : Flows m k₀ s.flow as ts) (hr : AtRest m s) :
    s.book.Updated k₀ (messages (streamOf m as)) ts ∧
      ts = (messages (streamOf m as)).map (·.mtype) ∧
      s.book.core = (messages (streamOf m as)).foldl BookCore.apply k₀ ∧ s.inReady m = true := by
  obtain ⟨words, hwords, beats, hbeats, ds, hframed, hupdated⟩ := h
  obtain ⟨⟨hstage, hingest, hidle⟩, hdone⟩ := hr
  -- stage by stage: the stripper holds no byte,
  have hbytes : beats.flatMap Beat.bytes = StripperState.decapped m.mold words := by
    unfold StripperState.Passes at hbeats
    unfold StripperState.decapped
    unfold stageRank at hstage
    split at hstage
    · rename_i hm
      rw [if_pos hm] at hbeats ⊢
      exact (StripperState.Delivered.of_atRest hbeats (StripperState.atRest_of_rank hstage)).1
    · rename_i hm
      rw [if_neg hm] at hbeats ⊢
      rw [hbeats, List.flatMap_map]
  have hdrained := IngestState.drained_of_rank hingest
  -- the framer and the decoder no message,
  have hds : ds = messages (streamOf m as) := by
    rw [hframed.given_eq hdrained, hbytes, streamOf, ← hwords.1]
  -- and the engine none that it has not committed
  have hflight : s.book.inFlight = [] := by
    rw [BookState.inFlight, if_neg]
    rintro (hno | hno)
    · exact hno hidle
    · exact Bool.false_ne_true (hdone.symm.trans hno)
  subst hds
  have hcommits := hupdated.commits
  rw [show s.flow.2.2.2.inFlight = [] from hflight, List.append_nil] at hcommits
  refine ⟨hupdated, hcommits.symm, (hupdated.serving.rest_of_idle hidle).core, ?_⟩
  have hmold : s.moldReady = true := hframed.inReady hdrained
  have hstrip : s.stripReady m = true := by
    unfold stripReady StripperState.stageReady
    split
    · rename_i hm
      rw [stageRank, if_pos hm] at hstage
      have hempty : s.mold.aValid = false := (StripperState.atRest_of_rank hstage).2.1
      rw [StripperState.inReady, hempty]
      rfl
    · exact hmold
  rw [inReady, UdpState.inReady, hstrip, Bool.true_or]

/-- Any run after power-up. -/
theorem flows_run (m : TopMode) (base : Option UInt32) (mold : StripperState)
    (ingest : IngestState) (is : List TopIn) (hplain : ∀ i ∈ is, i.Plain)
    (hok : ∀ t ∈ (orderbookTop c m).allTaken (start c base mold ingest) is, t.2.Ok) :
    Flows m (BookCore.powerUp c base)
      ((orderbookTop c m).run (start c base mold ingest) is).flow
      ((orderbookTop c m).allTaken (start c base mold ingest) is)
      ((orderbookTop c m).allGiven (start c base mold ingest) is) := by
  have hrst : ∀ i ∈ is, i.rst = false := fun i hi => (hplain i hi).1
  rw [flow_run _ hrst, allGiven_flow _ hrst]
  rw [allTaken_flow _ hrst] at hok ⊢
  have hrun := (topChain_keeps m (BookCore.powerUp c base)).run
    (flows_start m base mold ingest) is hplain hok
  rwa [List.nil_append, List.nil_append] at hrun

/-- What comes after the last beat takes nothing more. -/
theorem flows_quiet_run (m : TopMode) (base : Option UInt32) (mold : StripperState)
    (ingest : IngestState) (is : List TopIn) (hplain : ∀ i ∈ is, i.Plain)
    (hok : ∀ t ∈ (orderbookTop c m).allTaken (start c base mold ingest) is, t.2.Ok)
    {js : List TopIn} (hjs : ∀ j ∈ js, j.Quiet) :
    Flows m (BookCore.powerUp c base)
      ((orderbookTop c m).run (start c base mold ingest) (is ++ js)).flow
      ((orderbookTop c m).allTaken (start c base mold ingest) is)
      ((orderbookTop c m).allGiven (start c base mold ingest) (is ++ js)) := by
  have htaken : (orderbookTop c m).allTaken (start c base mold ingest) (is ++ js) =
      (orderbookTop c m).allTaken (start c base mold ingest) is := by
    rw [StreamMachine.allTaken_append, (run_quiet _ hjs).2, List.append_nil]
  rw [← htaken] at hok ⊢
  exact flows_run m base mold ingest (is ++ js)
    (fun i hi => (List.mem_append.1 hi).elim (hplain i) fun hj => (hjs i hj).1) hok

end TopState

open TopState in
/-- **The pipeline delivers.** From power-up, in either mode, with any gaps between the beats: the
commits are those of the first messages of the stream that was taken. Once nothing comes in any
more they are those of all its messages after some cycles, the book is the one that these lead to,
and the next beat is taken. -/
theorem top_delivers {c : Build} (m : TopMode) (base : Option UInt32) (mold : StripperState)
    (ingest : IngestState) (is : List TopIn) (hplain : ∀ i ∈ is, i.Plain)
    (hok : ∀ t ∈ (orderbookTop c m).allTaken (start c base mold ingest) is, t.2.Ok) :
    let top := orderbookTop c m
    let s₀ := start c base mold ingest
    let ms := messages (streamOf m (top.allTaken s₀ is))
    top.allGiven s₀ is <+: ms.map (·.mtype) ∧
      ∃ n, ∀ js : List TopIn, (∀ j ∈ js, j.Quiet) → n ≤ js.length →
        let s := top.run s₀ (is ++ js)
        top.allGiven s₀ (is ++ js) = ms.map (·.mtype) ∧
          s.book.core = ms.foldl BookCore.apply (BookCore.powerUp c base) ∧
          s.inReady m = true := by
  intro top s₀ ms
  have hflows := flows_run m base mold ingest is hplain hok
  refine ⟨?_, ?_⟩
  · obtain ⟨ds, hds, hupdated⟩ := taken_of_flows hflows
    have hcommits := hupdated.commits
    exact (hcommits ▸ List.prefix_append _ _ : _ <+: ds.map (·.mtype)).trans (hds.map _)
  · obtain ⟨n, hn⟩ := drains hflows
    refine ⟨n, fun js hjs hlen => ?_⟩
    have hafter := flows_quiet_run m base mold ingest is hplain hok hjs
    have hrest : AtRest m (top.run s₀ (is ++ js)) := by
      rw [StreamMachine.run_append]
      exact hn js hjs hlen
    exact (atRest_of_flows hafter hrest).2

/-! ## Two datagrams and a repeated one -/

/-- An Add of five shares at 100. -/
def addBody : List UInt8 :=
  [65, 0, 1] ++ List.replicate 10 0 ++ toBytes 8 7 ++ [66] ++ toBytes 4 5 ++ List.replicate 8 32 ++
    toBytes 4 100

/-- The message in it. -/
def addMessage : Decoded :=
  { mtype := tAdd, isBid := true, stockLocate := 1, price := 100, shares := 5, orderRef := 7 }

/-- An execution of two of the shares. -/
def execBody : List UInt8 :=
  [69, 0, 1] ++ List.replicate 10 0 ++ toBytes 8 7 ++ toBytes 4 2 ++ toBytes 8 9

/-- A Replace of the others. -/
def replaceBody : List UInt8 :=
  [85, 0, 1] ++ List.replicate 10 0 ++ toBytes 8 7 ++ toBytes 8 8 ++ toBytes 4 4 ++ toBytes 4 101

/-- The messages in the three. -/
def wireMessages : List Decoded :=
  [addMessage, { mtype := tExec, stockLocate := 1, shares := 2, orderRef := 7 },
    { mtype := tReplace, stockLocate := 1, price := 101, shares := 4, orderRef := 7,
      newOrderRef := 8 }]

/-- A datagram with its headers, for the messages from a sequence number on. -/
def datagram (seq : ℕ) (bodies : List (List UInt8)) : List UInt8 :=
  List.replicate 42 0 ++ List.replicate 10 32 ++ toBytes 8 seq ++ toBytes 2 bodies.length ++
    bodies.flatMap Framing.frame

/-- Its beats, with three cycles between them. -/
def beatsIn (bytes : List UInt8) : List TopIn :=
  (List.range ((bytes.length + 15) / 16)).flatMap fun n =>
    let word := (bytes.drop (16 * n)).take 16
    { inBeat := ⟨Vector.ofFn fun j => word.getD j 0, BitVec.ofNat 5 word.length⟩, inValid := true,
      inSop := n == 0 } :: List.replicate 3 .idle

/-- The Add with its execution, the same datagram again, and the Replace behind a gap. -/
def wireIn : List TopIn :=
  beatsIn (datagram 1 [addBody, execBody]) ++ beatsIn (datagram 1 [addBody, execBody]) ++
    beatsIn (datagram 4 [replaceBody])

theorem messages_addBody : messages (Framing.frame addBody) = [addMessage] := by
  rw [messages, ← List.append_nil (Framing.frame addBody), Framing.split_frame (by decide),
    Framing.incomplete_nil.split_eq]
  decide

theorem messages_bodies :
    messages ([addBody, execBody, replaceBody].flatMap Framing.frame) = wireMessages := by
  rw [messages, Framing.split_flatMap (by decide)]
  decide

/-- The pipeline behind UDP and MoldUDP64. -/
abbrev wireTop : StreamMachine (TopState .simulation) TopIn (Bool × Beat) UInt8 :=
  orderbookTop .simulation ⟨false, true⟩

/-- It after power-up, its unreset registers at zero. -/
abbrev freshTop : TopState .simulation :=
  .start .simulation none default ⟨default, { body := Vector.replicate 48 0 }⟩

/-- The beats that are taken carry the three messages, each once. -/
theorem messages_wireIn : (∀ t ∈ wireTop.allTaken freshTop wireIn, t.2.Ok) ∧
    messages (TopState.streamOf ⟨false, true⟩ (wireTop.allTaken freshTop wireIn)) =
      wireMessages := by
  have hbytes : TopState.streamOf ⟨false, true⟩ (wireTop.allTaken freshTop wireIn) =
      [addBody, execBody, replaceBody].flatMap Framing.frame := by decide +kernel
  rw [hbytes]
  exact ⟨by decide +kernel, messages_bodies⟩

theorem top_delivers_wire : ∃ n, ∀ js : List TopIn, (∀ j ∈ js, j.Quiet) → n ≤ js.length →
    wireTop.allGiven freshTop (wireIn ++ js) = [tAdd, tExec, tReplace] := by
  obtain ⟨hok, hms⟩ := messages_wireIn
  obtain ⟨-, n, hn⟩ := top_delivers ⟨false, true⟩ none default
    ⟨default, { body := Vector.replicate 48 0 }⟩ wireIn (by decide +kernel) hok
  refine ⟨n, fun js hjs hlen => ?_⟩
  rw [(hn js hjs hlen).1, hms]
  rfl

end ItchOrderbook.Rtl
