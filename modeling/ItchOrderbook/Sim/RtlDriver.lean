import ItchOrderbook.Rtl.TopReference

/-!
# The testbench driver (`sim/rtl_driver.hpp`)

`drive` feeds a stream to the top, sixteen bytes a cycle while it is ready, and calls `on_commit`
whenever `msg_total` has moved. `Driven` is what it keeps; it gets all messages of the stream
committed, given enough cycles (`drive_commits`).
-/

namespace ItchOrderbook.Sim

open Rtl

/-- `set_in_word`: the bytes packed from lane 0. -/
def inWord (p : List UInt8) : Beat where
  data := Vector.ofFn fun j => p.getD j 0
  nbytes := BitVec.ofNat 5 p.length

/-- `class RtlDriver`: the model with its mode, the input pins as they were set last, and the cycles
clocked. -/
structure RtlDriver (c : Build) where
  top : TopState c
  mode : TopMode
  pins : TopIn
  cyc : ℕ := 0

namespace RtlDriver

variable {c : Build}

/-- `RtlDriver::tick`. -/
def tick (d : RtlDriver c) : RtlDriver c :=
  { d with top := d.top.step d.mode d.pins, cyc := d.cyc + 1 }

/-- `RtlDriver::reset`. -/
def reset (d : RtlDriver c) (rawMode : Bool) : RtlDriver c :=
  let d :=
    { d with
      mode := ⟨rawMode, false⟩, pins := { rst := true, inBeat := ⟨Vector.replicate 16 0, 0⟩ } }
  let d := d.tick.tick.tick.tick.tick.tick
  { d with pins := { d.pins with rst := false } }

/-- The variables of the loop in `drive`: the bytes from `i` on are `left`, and `env` is what
`on_commit` works on. -/
structure DriveState (c : Build) (σ : Type) where
  drv : RtlDriver c
  left : List UInt8
  committed : ℕ
  lastTotal : UInt64
  env : σ

variable {σ : Type} (onCommit : ℕ → RtlDriver c → σ → σ)

/-- The pins for the next cycle. -/
def present (st : DriveState c σ) : DriveState c σ :=
  if st.drv.top.inReady st.drv.mode ∧ st.left ≠ [] then
    { st with
      drv := { st.drv with
        pins := { st.drv.pins with inBeat := inWord (st.left.take 16), inValid := true } }
      left := st.left.drop 16 }
  else { st with drv := { st.drv with pins := { st.drv.pins with inValid := false } } }

/-- One round of the loop. -/
def driveStep (st : DriveState c σ) : DriveState c σ :=
  let st := present st
  let drv := st.drv.tick
  if drv.top.perf.msgTotal ≠ st.lastTotal then
    { st with
      drv
      lastTotal := drv.top.perf.msgTotal
      env := onCommit st.committed drv st.env
      committed := st.committed + 1 }
  else { st with drv }

/-- The loop, with the cycles that are left before `cycle_cap`. -/
def driveLoop (expected : ℕ) : ℕ → DriveState c σ → DriveState c σ
  | 0, st => st
  | left + 1, st =>
    if st.committed < expected then driveLoop expected left (driveStep onCommit st) else st

/-- `RtlDriver::drive`; what it returns is `committed`. -/
def drive (d : RtlDriver c) (s : List UInt8) (expected : ℕ) (env : σ) (cycleCap : ℕ) :
    DriveState c σ :=
  driveLoop onCommit expected (cycleCap - d.cyc)
    { drv := d, left := s, committed := 0, lastTotal := d.top.perf.msgTotal, env }

end RtlDriver

/-! ## What the driver keeps -/

theorem inWord_ok {p : List UInt8} (h : p ≠ []) (hlen : p.length ≤ 16) : (inWord p).Ok := by
  have hpos := List.length_pos_iff.2 h
  have hn : (inWord p).nbytes.toNat = p.length := by
    show (BitVec.ofNat 5 p.length).toNat = _
    rw [BitVec.toNat_ofNat]
    omega
  exact ⟨by omega, by omega⟩

theorem inWord_bytes {p : List UInt8} (hlen : p.length ≤ 16) : (inWord p).bytes = p := by
  have hn : (inWord p).nbytes.toNat = p.length := by
    show (BitVec.ofNat 5 p.length).toNat = _
    rw [BitVec.toNat_ofNat]
    omega
  refine List.ext_getElem? fun j => ?_
  rw [Beat.bytes, hn, List.getElem?_take]
  split
  · rename_i hj
    simp [inWord, show j < 16 by omega, hj]
  · rw [List.getElem?_eq_none (by omega)]

namespace RtlDriver

variable {c : Build} {σ : Type} (onCommit : ℕ → RtlDriver c → σ → σ) {stream : List UInt8}
  {st : DriveState c σ}

theorem streamOf_raw (as : List (Bool × Beat)) :
    TopState.streamOf ⟨true, false⟩ as = as.flatMap fun t => t.2.bytes :=
  List.flatMap_map ..

/-- The bytes taken and those that are left make up the stream, and every commit has been seen. -/
structure Driven (stream : List UInt8) (st : DriveState c σ) : Prop where
  mode : st.drv.mode = ⟨true, false⟩
  plain : st.drv.pins.Plain
  flows : ∃ as ts, Flows ⟨true, false⟩ (BookCore.powerUp c none) st.drv.top.flow as ts ∧
    (as.flatMap fun t => t.2.bytes) ++ st.left = stream ∧ st.committed = ts.length
  total : st.lastTotal = st.drv.top.perf.msgTotal

/-- What `present` offers is taken, and is what it has removed from `left`. -/
theorem present_spec (h : Driven stream st) :
    let st' := present st
    let taken := (topChain c ⟨true, false⟩).machine.taken st.drv.top.flow st'.drv.pins
    st'.drv.top = st.drv.top ∧ st'.drv.mode = ⟨true, false⟩ ∧ st'.drv.pins.Plain ∧
      (∀ t ∈ taken, OkBeat t) ∧ (taken.flatMap fun t => t.2.bytes) ++ st'.left = st.left ∧
      st'.committed = st.committed ∧ st'.lastTotal = st.lastTotal ∧ st'.env = st.env := by
  intro st' taken
  have htaken : taken = if st'.drv.pins.inValid && st.drv.top.inReady ⟨true, false⟩ then
      [(st'.drv.pins.inSop, st'.drv.pins.inBeat)] else [] := TopState.taken_flow _ _
  have hpresent : st' = present st := rfl
  by_cases hready : st.drv.top.inReady st.drv.mode ∧ st.left ≠ []
  · rw [present, if_pos hready] at hpresent
    rw [h.mode] at hready
    rw [hpresent] at htaken ⊢
    rw [hready.1, Bool.and_true, if_pos rfl] at htaken
    have hlen : (st.left.take 16).length ≤ 16 := List.length_take_le 16 _
    have hne : st.left.take 16 ≠ [] := fun hnil =>
      hready.2 ((List.take_eq_nil_iff.1 hnil).resolve_left (by decide))
    refine ⟨rfl, h.mode, h.plain, ?_, ?_, rfl, rfl, rfl⟩
    · rw [htaken]
      intro t ht
      rw [List.mem_singleton.1 ht]
      exact inWord_ok hne hlen
    · rw [htaken, List.flatMap_singleton]
      show (inWord (st.left.take 16)).bytes ++ st.left.drop 16 = st.left
      rw [inWord_bytes hlen, List.take_append_drop]
  · rw [present, if_neg hready] at hpresent
    rw [hpresent] at htaken ⊢
    rw [Bool.false_and, if_neg Bool.false_ne_true] at htaken
    rw [htaken]
    exact ⟨rfl, h.mode, h.plain, fun t ht => (by cases ht), rfl, rfl, rfl, rfl⟩

theorem succ_ne_self (x : UInt64) : x + 1 ≠ x := by
  intro h
  have hnat := congrArg UInt64.toNat h
  have hlt := x.toNat_lt
  rw [UInt64.toNat_add, show (1 : UInt64).toNat = 1 from rfl] at hnat
  omega

/-- One round: `on_commit` is called when the top has given a commit. -/
theorem Driven.step (h : Driven stream st) :
    Driven stream (driveStep onCommit st) ∧
      (if st.drv.top.book.engine.engineDone then
        (driveStep onCommit st).committed = st.committed + 1 ∧
          (driveStep onCommit st).env =
            onCommit st.committed (driveStep onCommit st).drv st.env
      else (driveStep onCommit st).committed = st.committed ∧
        (driveStep onCommit st).env = st.env) := by
  obtain ⟨htop, hmode, hplain, hgood, hleft, hcommitted, hlast, henv⟩ := present_spec h
  obtain ⟨as, ts, hflows, hstream, hcount⟩ := h.flows
  generalize hst : present st = st' at *
  have hflows' := (topChain_keeps ⟨true, false⟩ (BookCore.powerUp c none)).step hplain hgood hflows
  rw [← TopState.flow_step hplain.1] at hflows'
  have htick : st'.drv.tick.top = st.drv.top.step ⟨true, false⟩ st'.drv.pins := by
    show st'.drv.top.step st'.drv.mode st'.drv.pins = _
    rw [htop, hmode]
  have hgiven : (topChain c ⟨true, false⟩).machine.given st.drv.top.flow st'.drv.pins =
      if st.drv.top.book.engine.engineDone then [st.drv.top.book.engine.mtype] else [] := rfl
  have hperf : st'.drv.tick.top.perf.msgTotal =
      PerfCountersState.tick st.lastTotal st.drv.top.book.engine.engineDone := by
    rw [htick, TopState.perf_step hplain.1, h.total]
    rfl
  have hbytes : ((as ++ (topChain c ⟨true, false⟩).machine.taken st.drv.top.flow
      st'.drv.pins).flatMap fun t => t.2.bytes) ++ st'.left = stream := by
    rw [List.flatMap_append, List.append_assoc]
    exact (congrArg (_ ++ ·) hleft).trans hstream
  unfold driveStep
  rw [hst]
  dsimp only
  cases hdone : st.drv.top.book.engine.engineDone with
  | true =>
    rw [hdone] at hperf hgiven
    have hmoved : st'.drv.tick.top.perf.msgTotal ≠ st'.lastTotal := by
      rw [hperf, hlast]
      exact succ_ne_self _
    rw [if_pos hmoved, if_pos rfl]
    refine ⟨⟨hmode, hplain, ⟨_, _, htick ▸ hflows', hbytes, ?_⟩, rfl⟩, ?_, ?_⟩
    · rw [hgiven, List.length_append, ← hcount]
      exact congrArg (· + 1) hcommitted
    · exact congrArg (· + 1) hcommitted
    · rw [hcommitted, henv]
  | false =>
    rw [hdone] at hperf hgiven
    have hsame : ¬st'.drv.tick.top.perf.msgTotal ≠ st'.lastTotal := by
      rw [hperf, hlast]
      exact not_not.2 rfl
    rw [if_neg hsame, if_neg Bool.false_ne_true]
    refine ⟨⟨hmode, hplain, ⟨_, _, htick ▸ hflows', hbytes, ?_⟩, ?_⟩, hcommitted, henv⟩
    · rw [hgiven, if_neg Bool.false_ne_true, List.append_nil, ← hcount]
      exact hcommitted
    · exact (not_not.1 hsame).symm

/-- Any number of rounds. -/
theorem Driven.rounds (h : Driven stream st) (n : ℕ) :
    Driven stream ((driveStep onCommit)^[n] st) := by
  induction n with
  | zero => exact h
  | succ n ih =>
    rw [Function.iterate_succ_apply']
    exact (ih.step onCommit).1

/-- At most all messages of the stream are committed. -/
theorem Driven.committed_le (h : Driven stream st) : st.committed ≤ (messages stream).length := by
  obtain ⟨as, ts, hflows, hstream, hcount⟩ := h.flows
  obtain ⟨ds, hds, hupdated⟩ := TopState.taken_of_flows hflows
  have hcommits := congrArg List.length hupdated.commits
  rw [List.length_map, List.length_append] at hcommits
  have hpart : (as.flatMap fun t => t.2.bytes) <+: stream := ⟨_, hstream⟩
  rw [streamOf_raw] at hds
  have hle := (hds.trans (messages_mono hpart)).length_le
  omega

/-- After `reset` the top is as after power-up. -/
theorem driven_reset (d : RtlDriver c) (hbook : d.top.book = {}) (env : σ) :
    let d := d.reset true
    Driven stream
      { drv := d, left := stream, committed := 0, lastTotal := d.top.perf.msgTotal, env } := by
  obtain ⟨⟨strip, mold, ingest, book, perf⟩, mode, pins, cyc⟩ := d
  obtain rfl : book = {} := hbook
  exact ⟨rfl, ⟨rfl, rfl⟩, ⟨[], [], TopState.flows_start ⟨true, false⟩ none
    mold.reset.reset.reset.reset.reset ingest.reset.reset.reset.reset.reset, rfl, rfl⟩, rfl⟩

/-! ## The driver gets through -/

theorem driveStep_left : (driveStep onCommit st).left = (present st).left := by
  unfold driveStep
  dsimp only
  split
  · rfl
  · rfl

theorem driveStep_top : (driveStep onCommit st).drv.top = (present st).drv.tick.top := by
  unfold driveStep
  dsimp only
  split
  · rfl
  · rfl

/-- A round that offers a word. -/
theorem left_of_offered (hoffer : st.drv.top.inReady st.drv.mode ∧ st.left ≠ []) :
    (driveStep onCommit st).left.length < st.left.length := by
  have hpos := List.length_pos_iff.2 hoffer.2
  rw [driveStep_left, present, if_pos hoffer]
  show (st.left.drop 16).length < _
  rw [List.length_drop]
  omega

/-- A round that offers nothing. -/
theorem quiet_of_not_offered (h : Driven stream st)
    (hno : ¬(st.drv.top.inReady st.drv.mode ∧ st.left ≠ [])) :
    ∃ j : TopIn, j.Quiet ∧ (driveStep onCommit st).left = st.left ∧
      (driveStep onCommit st).drv.top = (orderbookTop c ⟨true, false⟩).step st.drv.top j := by
  refine ⟨{ st.drv.pins with inValid := false }, ⟨h.plain, rfl⟩, ?_, ?_⟩
  · rw [driveStep_left, present, if_neg hno]
  · rw [driveStep_top, present, if_neg hno]
    show st.drv.top.step st.drv.mode _ = _
    rw [h.mode]
    rfl

/-- Either a word is offered at some time, or the cycles are all quiet. -/
theorem waits (h : Driven stream st) (n : ℕ) :
    (∃ k, ((driveStep onCommit)^[k] st).left.length < st.left.length) ∨
      ∃ js : List TopIn, (∀ j ∈ js, j.Quiet) ∧ js.length = n ∧
        ((driveStep onCommit)^[n] st).left = st.left ∧
        ((driveStep onCommit)^[n] st).drv.top =
          (orderbookTop c ⟨true, false⟩).run st.drv.top js := by
  induction n with
  | zero => exact .inr ⟨[], fun _ hj => (by cases hj), rfl, rfl, rfl⟩
  | succ n ih =>
    rcases ih with hshort | ⟨js, hjs, hlen, hleft, htop⟩
    · exact .inl hshort
    · have hn : Driven stream ((driveStep onCommit)^[n] st) := h.rounds onCommit n
      rw [Function.iterate_succ_apply']
      by_cases hoffer : ((driveStep onCommit)^[n] st).drv.top.inReady
          ((driveStep onCommit)^[n] st).drv.mode ∧ ((driveStep onCommit)^[n] st).left ≠ []
      · refine .inl ⟨n + 1, ?_⟩
        rw [Function.iterate_succ_apply', ← hleft]
        exact left_of_offered onCommit hoffer
      · obtain ⟨j, hj, hleft', htop'⟩ := quiet_of_not_offered onCommit hn hoffer
        refine .inr ⟨js ++ [j], ?_, ?_, hleft'.trans hleft, ?_⟩
        · intro i hi
          rcases List.mem_append.1 hi with hi | hi
          · exact hjs i hi
          · exact List.mem_singleton.1 hi ▸ hj
        · rw [List.length_append, hlen]
          rfl
        · rw [htop', htop, StreamMachine.run_append]
          rfl

/-- All messages of the stream are committed some time. -/
theorem Driven.gets_through (h : Driven stream st) :
    ∃ n, (messages stream).length ≤ ((driveStep onCommit)^[n] st).committed := by
  induction hlen : st.left.length using Nat.strongRecOn generalizing st with
  | ind len ih =>
    -- what is left to do when a word was offered
    have hshorter (k : ℕ) (hk : ((driveStep onCommit)^[k] st).left.length < st.left.length) :
        ∃ n, (messages stream).length ≤ ((driveStep onCommit)^[n] st).committed := by
      obtain ⟨n, hn⟩ := ih _ (hlen ▸ hk) (h.rounds onCommit k) rfl
      rw [← Function.iterate_add_apply] at hn
      exact ⟨n + k, hn⟩
    obtain ⟨as, ts, hflows, -⟩ := h.flows
    obtain ⟨n, hdrained⟩ := TopState.drains hflows
    rcases waits onCommit h n with ⟨k, hk⟩ | ⟨js, hjs, hjslen, hleft, htop⟩
    · exact hshorter k hk
    · -- the pipeline is at rest
      have hrest := hdrained js hjs hjslen.ge
      rw [← htop] at hrest
      have hn : Driven stream ((driveStep onCommit)^[n] st) := h.rounds onCommit n
      obtain ⟨as, ts, hflows, hstream, hcount⟩ := hn.flows
      obtain ⟨-, hts, -, hready⟩ := TopState.atRest_of_flows hflows hrest
      by_cases hnil : st.left = []
      · refine ⟨n, ?_⟩
        rw [hleft, hnil, List.append_nil, ← streamOf_raw] at hstream
        rw [hcount, hts, List.length_map, hstream]
      · refine hshorter (n + 1) ?_
        rw [Function.iterate_succ_apply', ← hleft]
        exact left_of_offered onCommit ⟨by rw [hn.mode]; exact hready, by rw [hleft]; exact hnil⟩

/-! ## The loop -/

/-- What a round keeps, the loop keeps. -/
theorem driveLoop_inv (P : DriveState c σ → Prop) (expected : ℕ)
    (hstep : ∀ st, P st → st.committed < expected → P (driveStep onCommit st)) (fuel : ℕ)
    (h : P st) : P (driveLoop onCommit expected fuel st) := by
  induction fuel generalizing st with
  | zero => exact h
  | succ fuel ih =>
    rw [driveLoop]
    split
    · rename_i hmore
      exact ih (hstep st h hmore)
    · exact h

/-- With enough cycles the loop ends with all commits. -/
theorem driveLoop_returns {expected n : ℕ} (fuel : ℕ) (hle : n ≤ fuel)
    (h : expected ≤ ((driveStep onCommit)^[n] st).committed) :
    expected ≤ (driveLoop onCommit expected fuel st).committed := by
  induction fuel generalizing n st with
  | zero =>
    obtain rfl : n = 0 := by omega
    exact h
  | succ fuel ih =>
    rw [driveLoop]
    split
    · rename_i hmore
      cases n with
      | zero =>
        have hdone : expected ≤ st.committed := h
        omega
      | succ n => exact ih (Nat.le_of_succ_le_succ hle) h
    · rename_i hdone
      exact Nat.not_lt.1 hdone

end RtlDriver

end ItchOrderbook.Sim
