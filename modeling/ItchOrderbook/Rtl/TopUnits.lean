import ItchOrderbook.Rtl.FramerDelivery
import ItchOrderbook.Rtl.DepthReferences
import ItchOrderbook.Rtl.OrderbookTop
import ItchOrderbook.Rtl.UdpDelivery

/-!
# The units of the pipeline, one by one

What each unit of `orderbook_top` keeps in every cycle, in terms of what it has taken and given: the
strippers and the framer what they deliver, the engine that it serves the messages it has taken and
has committed all of them but the one it works on (`Updated`).
-/

namespace ItchOrderbook.Rtl

open StreamChain

/-! ## What each unit keeps -/

/-- A cycle without `rst` and without band configuration. -/
def TopIn.Plain (i : TopIn) : Prop := i.rst = false ∧ i.bandCfgValid = false

instance (i : TopIn) : Decidable i.Plain := inferInstanceAs (Decidable (_ ∧ _))

/-- A beat that the interface allows. -/
abbrev OkBeat (t : Bool × Beat) : Prop := t.2.Ok

namespace UdpState

/-- The words that come out, in either mode. -/
def strippedOf (rawMode : Bool) (as : List (Bool × Beat)) : List (Bool × Beat) :=
  if rawMode then as.map fun t => (false, t.2) else (as.foldl feedWord (0, [])).2

/-- The state has counted the words, and what they come out as was given. -/
def Passes (rawMode : Bool) (s : UdpState) (as bs : List (Bool × Beat)) : Prop :=
  bs = strippedOf rawMode as ∧ (rawMode = false → Stripped s as bs)

/-- In raw mode a beat goes through as it is, without its flag. -/
theorem raw_cycle (s : UdpState) (i : UdpIn) :
    (udpStripper true).taken s i =
        (if i.inValid && i.outReady then [(i.inSop, i.inBeat)] else []) ∧
      (udpStripper true).given s i =
        if i.inValid && i.outReady then [(false, i.inBeat)] else [] := by
  have hready : s.inReady true i.outReady = i.outReady := Bool.or_false _
  have hvalid : s.outValid true i = i.inValid := Bool.and_true _
  constructor
  · show (if i.inValid && s.inReady true i.outReady then _ else _) = _
    rw [hready]
  · show (if s.outValid true i && i.outReady then _ else _) = _
    rw [hvalid]
    rfl

end UdpState

theorem repacked_ok {b : Beat} (hok : b.Ok) (h : 10 < b.nbytes.toNat) :
    (UdpState.repacked b).Ok := by
  have hn := repacked_nbytes h
  have := hok.2
  exact ⟨by omega, by omega⟩

theorem ok_of_stripWord {k : ℕ} {b : Beat} (hok : b.Ok) : ∀ t ∈ stripWord k b, OkBeat t := by
  intro t ht
  unfold stripWord at ht
  split at ht
  · cases ht
  · split at ht
    · split at ht
      · rename_i hlen
        rw [List.mem_singleton.1 ht]
        exact repacked_ok hok hlen
      · cases ht
    · rw [List.mem_singleton.1 ht]
      exact hok

/-- The UDP stripper. -/
theorem udpStripper_keeps (rawMode : Bool) : (udpStripper rawMode).Keeps (fun _ => True) OkBeat
    OkBeat (UdpState.Passes rawMode) where
  step {s as bs i} _ _ h := by
    obtain ⟨hbs, hstripped⟩ := h
    cases rawMode with
    | false =>
      have hnow := (hstripped rfl).step i
      exact ⟨hnow.out, fun _ => hnow⟩
    | true =>
      refine ⟨?_, fun hraw => (by cases hraw)⟩
      obtain ⟨htaken, hgiven⟩ := UdpState.raw_cycle s i
      rw [hbs, htaken, hgiven, UdpState.strippedOf, UdpState.strippedOf, if_pos rfl, if_pos rfl,
        List.map_append]
      split
      · rfl
      · rfl
  given {s as bs i} _ hgood _ b hb := by
    cases rawMode with
    | false =>
      rcases cycle_cases s i with ⟨-, hgiven, -⟩ | ⟨htaken, hgiven, -⟩
      · rw [hgiven] at hb
        cases hb
      · rw [hgiven] at hb
        rw [htaken] at hgood
        exact ok_of_stripWord (hgood _ List.mem_cons_self) b hb
    | true =>
      obtain ⟨htaken, hgiven⟩ := UdpState.raw_cycle s i
      rw [hgiven] at hb
      rw [htaken] at hgood
      split at hb
      · rename_i hready
        rw [if_pos hready] at hgood
        rw [List.mem_singleton.1 hb]
        exact hgood (i.inSop, i.inBeat) List.mem_cons_self
      · cases hb

namespace StripperState

/-- What the beats of the Mold stripper come out as, in either mode. -/
def decapped (moldMode : Bool) (as : List (Bool × Beat)) : List UInt8 :=
  if moldMode then ((as.map fun t => (t.1, t.2.bytes)).foldl Decap.feed {}).out
  else as.flatMap fun t => t.2.bytes

/-- What was taken is in the stripper or has been given. -/
def Passes (moldMode : Bool) (s : StripperState) (as : List (Bool × Beat)) (bs : List Beat) :
    Prop :=
  if moldMode then Delivered s as bs else bs = as.map (·.2)

theorem Passes.given_prefix {moldMode : Bool} {s : StripperState} {as : List (Bool × Beat)}
    {bs : List Beat} (h : Passes moldMode s as bs) :
    bs.flatMap Beat.bytes <+: decapped moldMode as := by
  cases moldMode with
  | false =>
    have hbs : bs = as.map (·.2) := h
    rw [hbs, List.flatMap_map]
    exact List.prefix_rfl
  | true => exact Delivered.given_prefix h

end StripperState

/-- The Mold stripper. -/
theorem moldStage_keeps (moldMode : Bool) : (moldStage moldMode).Keeps (fun _ => True) OkBeat
    Beat.Ok (StripperState.Passes moldMode) where
  step {s as bs i} _ hgood h := by
    cases moldMode with
    | true => exact StripperState.Delivered.step hgood h
    | false =>
      have hbs : bs = as.map (·.2) := h
      show _ = List.map _ _
      rw [List.map_append, hbs]
      congr 1
      show (if i.inValid && i.outReady then _ else _) =
        List.map _ (if i.inValid && i.outReady then _ else _)
      split
      · rfl
      · rfl
  given {s as bs i} _ hgood h b hb := by
    cases moldMode with
    | true =>
      obtain ⟨a, hcore, -⟩ := h
      have hb : b ∈ if s.outValid && i.outReady then [s.outBeat] else [] := hb
      split at hb
      · rename_i hvalid
        rw [List.mem_singleton.1 hb]
        exact hcore.out (Bool.and_elim_left hvalid)
      · cases hb
    | false =>
      have hb : b ∈ if i.inValid && i.outReady then [i.inBeat] else [] := hb
      have hgood : ∀ t ∈ (if i.inValid && i.outReady then [(i.inSop, i.inBeat)] else []),
        OkBeat t := hgood
      split at hb
      · rename_i hready
        rw [if_pos hready] at hgood
        rw [List.mem_singleton.1 hb]
        exact hgood _ List.mem_cons_self
      · cases hb

/-- Framer and decoder. -/
theorem ingest_keeps :
    ingest.Keeps (fun _ => True) Beat.Ok (fun _ => True) IngestState.Framed where
  step _ hgood h := h.step hgood
  given _ _ _ _ _ := trivial

/-! ## The engine -/

namespace BookUpdateEngineState

variable {c : Build}

@[simp] theorem mtype_setSide (s : BookUpdateEngineState c) (isBid : Bool) (side : SideState c) :
    (s.setSide isBid side).mtype = s.mtype := by
  cases isBid with
  | true => rfl
  | false => rfl

/-- The engine keeps the type of its message while it works. -/
theorem mtype_fsm (s : BookUpdateEngineState c) (i : EngineIn) (h : s.state ≠ .idle) :
    (s.fsm i).mtype = s.mtype := by
  unfold fsm
  cases hs : s.state with
  | idle => exact absurd hs h
  | addTbl =>
    show (s.onAddTbl _).mtype = _
    unfold onAddTbl
    repeat' split
    all_goals rfl
  | addLvl => exact mtype_setSide _ _ _
  | lk =>
    show (s.onLk _).mtype = _
    unfold onLk
    repeat' split
    all_goals rfl
  | modLvl =>
    show (s.onModLvl _).mtype = _
    unfold onModLvl
    dsimp only
    repeat' split
    all_goals exact mtype_setSide _ _ _
  | modTbl =>
    show (s.onModTbl _).mtype = _
    unfold onModTbl
    repeat' split
    all_goals rfl
  | empty =>
    show (s.onEmpty _).mtype = _
    unfold onEmpty
    dsimp only
    repeat' split
    · exact mtype_setSide _ _ _
    · exact mtype_setSide _ _ _
    · rfl
  | emptyWait =>
    show (s.onEmptyWait _).mtype = _
    unfold onEmptyWait
    dsimp only
    repeat' split
    all_goals rfl
  | raddTbl =>
    show (s.onRaddTbl _).mtype = _
    unfold onRaddTbl
    repeat' split
    all_goals rfl
  | raddLvl => exact mtype_setSide _ _ _
  | finish => rfl

/-- A message that is taken leaves the engine busy, with its type. -/
theorem onIdle_taken (s n : BookUpdateEngineState c) {i : EngineIn} (h : i.decValid = true) :
    (s.onIdle n i).state ≠ .idle ∧ (s.onIdle n i).mtype = i.dec.mtype := by
  unfold onIdle
  rw [if_pos h]
  dsimp only
  repeat' split
  all_goals exact ⟨fun hno => (by cases hno), rfl⟩

end BookUpdateEngineState

namespace BookState

variable {c : Build} {k : BookCore c} {s : BookState c} {i : EngineIn}

/-- The type of the message in the engine, from when it is taken until its commit is given. -/
def inFlight (s : BookState c) : List UInt8 :=
  if s.engine.state ≠ .idle ∨ s.engine.engineDone = true then [s.engine.mtype] else []

/-- A working engine is busy, and then still busy or done. -/
theorem Serving.work_cases (h : s.Serving k) (hs : s.engine.state ≠ .idle) :
    s.Busy ∧ (s.work.engine.state ≠ .idle ∨ s.work.engine.engineDone = true) := by
  rcases h with hr | hl
  · exact absurd hr.state hs
  · cases hl with
    | here hr => exact absurd hr.1.state hs
    | next hb hl =>
      refine ⟨hb, ?_⟩
      cases hl with
      | here hr => exact .inr hr.2
      | next hb' _ => exact .inl hb'.1

/-- What a cycle of the engine's inputs does to the message in it. -/
theorem Serving.inFlight_step (h : s.Serving k) (hi : Plain i) :
    s.inFlight ++ (s.accept i).toList.map (·.mtype) =
      (bookUpdate c).given s i ++ (s.step i).inFlight := by
  have hstep : s.step i = ⟨s.engine.clockUnits (s.engine.fsm i), (s.step i).stats⟩ := by
    unfold BookState.step BookUpdateEngineState.step
    simp only [hi.1, hi.2, Bool.false_eq_true, if_false]
  have hgiven : (bookUpdate c).given s i =
      if s.engine.engineDone then [s.engine.mtype] else [] := rfl
  by_cases hs : s.engine.state = .idle
  · have hfsm : s.engine.fsm i = s.engine.onIdle s.engine.clearPulses i := by
      unfold BookUpdateEngineState.fsm
      rw [hs]
    have hbefore : s.inFlight = (bookUpdate c).given s i := by
      rw [inFlight, hgiven]
      simp only [hs, ne_eq, not_true, false_or]
    rw [hbefore]
    congr 1
    cases hv : i.decValid with
    | true =>
      obtain ⟨hbusy, htype⟩ := s.engine.onIdle_taken s.engine.clearPulses hv
      have hacc : s.accept i = some i.dec := by
        unfold BookState.accept BookUpdateEngineState.decAccept
        rw [hs, hv]
        rfl
      rw [← hfsm] at hbusy htype
      rw [hacc, hstep, inFlight, if_pos (.inl hbusy)]
      exact congrArg (fun t => [t]) htype.symm
    | false =>
      have hacc : s.accept i = none := by
        unfold BookState.accept BookUpdateEngineState.decAccept
        rw [hv, Bool.and_false]
        rfl
      have hquiet : s.engine.fsm i = s.engine.clearPulses := by
        rw [hfsm, BookUpdateEngineState.onIdle, hv]
        rfl
      rw [hacc, hstep, hquiet, inFlight, if_neg]
      · rfl
      · rintro (hno | hno)
        · exact hno hs
        · cases hno
  · obtain ⟨hb, hnext⟩ := h.work_cases hs
    obtain ⟨hacc, hwork⟩ := hb.step hi
    have htype : s.work.engine.mtype = s.engine.mtype := s.engine.mtype_fsm {} hs
    rw [hacc, hgiven, hb.2, hwork, inFlight, inFlight, if_pos (.inl hs), if_pos hnext, htype]
    rfl

/-- The engine serves the messages it has taken, and has committed all but the one in it. -/
structure Updated (k₀ : BookCore c) (s : BookState c) (ds : List Decoded) (ts : List UInt8) :
    Prop where
  serving : s.Serving (ds.foldl BookCore.apply k₀)
  commits : ds.map (·.mtype) = ts ++ s.inFlight

end BookState

/-- The engine. -/
theorem bookUpdate_keeps {c : Build} (k₀ : BookCore c) :
    (bookUpdate c).Keeps BookState.Plain (fun _ => True) (fun _ => True)
      (BookState.Updated k₀) where
  step {s ds ts i} hi _ h := by
    have hserving := BookState.serves.settles_step h.serving hi fun _ _ => trivial
    refine ⟨?_, ?_⟩
    · rw [List.foldl_append]
      exact hserving
    · rw [List.map_append, h.commits, List.append_assoc, List.append_assoc]
      exact congrArg (ts ++ ·) (h.serving.inFlight_step hi)
  given _ _ _ _ _ := trivial

/-! ## The row -/

section Row

variable {c : Build}

/-- What framer, decoder and engine keep together. -/
def Applies (k₀ : BookCore c) :
    IngestState × BookState c → List Beat → List UInt8 → Prop :=
  Linked IngestState.Framed (BookState.Updated k₀)

/-- What they keep with the Mold stripper before them. -/
def Decaps (moldMode : Bool) (k₀ : BookCore c) :
    StripperState × IngestState × BookState c → List (Bool × Beat) → List UInt8 → Prop :=
  Linked (StripperState.Passes moldMode) (Applies k₀)

/-- What all units keep together. -/
def Flows (m : TopMode) (k₀ : BookCore c) :
    UdpState × StripperState × IngestState × BookState c → List (Bool × Beat) → List UInt8 →
      Prop :=
  Linked (UdpState.Passes m.rawMode) (Decaps m.mold k₀)

theorem applyChain_keeps (k₀ : BookCore c) :
    (applyChain c).machine.Keeps TopIn.Plain Beat.Ok (fun _ => True) (Applies k₀) :=
  (applyChain c).keeps ingest_keeps (bookUpdate_keeps k₀) fun _ _ _ hi => ⟨trivial, hi⟩

theorem decapChain_keeps (moldMode : Bool) (k₀ : BookCore c) :
    (decapChain c moldMode).machine.Keeps TopIn.Plain OkBeat (fun _ => True)
      (Decaps moldMode k₀) :=
  (decapChain c moldMode).keeps (moldStage_keeps moldMode) (applyChain_keeps k₀)
    fun _ _ _ hi => ⟨trivial, hi⟩

theorem topChain_keeps (m : TopMode) (k₀ : BookCore c) :
    (topChain c m).machine.Keeps TopIn.Plain OkBeat (fun _ => True) (Flows m k₀) :=
  (topChain c m).keeps (udpStripper_keeps m.rawMode) (decapChain_keeps m.mold k₀)
    fun _ _ _ hi => ⟨trivial, hi⟩

end Row

namespace TopState

variable {c : Build}

/-- The stream that the words of a run carry. -/
def streamOf (m : TopMode) (ts : List (Bool × Beat)) : List UInt8 :=
  StripperState.decapped m.mold (UdpState.strippedOf m.rawMode ts)

theorem flows_start (m : TopMode) (base : Option UInt32) (mold : StripperState)
    (ingest : IngestState) :
    Flows m (BookCore.powerUp c base) (start c base mold ingest).flow [] [] := by
  refine ⟨[], ⟨?_, fun _ => ⟨rfl, rfl⟩⟩, [], ?_, [], IngestState.framed_reset ingest,
    .inl (BookState.rest_powerUp c base), rfl⟩
  · unfold UdpState.strippedOf
    split
    · rfl
    · rfl
  · unfold StripperState.Passes
    split
    · exact StripperState.delivered_reset mold
    · rfl

end TopState

end ItchOrderbook.Rtl
