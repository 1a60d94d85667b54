import ItchOrderbook.Rtl.TopDelivery

/-!
# What the performance counters say about a run

The message counters are those of the commits, so once the pipeline has drained they are those of
the stream (`top_counts`). A scan never runs while the engine is idle, which orders the occupancy
counters (`occupancy_counts`).
-/

namespace ItchOrderbook.Rtl

namespace TopState

variable {c : Build} {m : TopMode} {k₀ : BookCore c} {s : TopState c} {as : List (Bool × Beat)}
  {ts : List UInt8}

/-- A scan stalls the engine. -/
theorem stalled_of_scanning (h : Flows m k₀ s.flow as ts) (i : TopIn)
    (hscan : (s.perfIn m i).anyScanning = true) : (s.perfIn m i).stalled = true := by
  obtain ⟨ds, -, hupdated⟩ := taken_of_flows h
  have hscan : s.book.engine.anyScanning = true := hscan
  have hbusy : s.book.engine.state ≠ .idle := fun hidle => by
    have hquiet := BookState.anyScanning_of_quiet (hupdated.serving.rest_of_idle hidle).quiet
    rw [hquiet] at hscan
    cases hscan
  show (s.book.engine.state != .idle && (s.book.engine.anyScanning || _)) = true
  rw [hscan, Bool.true_or, Bool.and_true]
  exact bne_iff_ne.2 hbusy

/-- Over a run. -/
theorem stalled_of_scanning_run (h : Flows m k₀ s.flow as ts) (is : List TopIn)
    (hplain : ∀ i ∈ is, i.Plain) (hok : ∀ t ∈ (orderbookTop c m).allTaken s is, t.2.Ok) :
    ∀ p ∈ s.perfIns m is, p.anyScanning = true → p.stalled = true := by
  induction is generalizing s as ts with
  | nil => exact List.forall_mem_nil _
  | cons i is ih =>
    obtain ⟨hi, hrest⟩ := List.forall_mem_cons.1 hplain
    refine List.forall_mem_cons.2 ⟨stalled_of_scanning h i, ?_⟩
    have hgood : ∀ t ∈ (topChain c m).machine.taken s.flow i, OkBeat t := by
      rw [taken_flow]
      exact fun t ht => hok t (List.mem_append_left _ ht)
    have hnow := (topChain_keeps m k₀).step hi hgood h
    rw [← flow_step hi.1] at hnow
    exact ih hnow hrest fun t ht => hok t (List.mem_append_right _ ht)

/-- What `u_perf` sees from `rst` on, with the cycle that configures the band. -/
def perfInsFrom (c : Build) (m : TopMode) (base : Option UInt32) (mold : StripperState)
    (ingest : IngestState) (is : List TopIn) : List PerfIn :=
  (start c none mold ingest).perfIns m (configIns base ++ is)

/-- The cycle that configures the band commits nothing, and no scan runs in it. -/
theorem perfInsFrom_eq (m : TopMode) (base : Option UInt32) (mold : StripperState)
    (ingest : IngestState) (is : List TopIn) : ∃ ps : List PerfIn,
    perfInsFrom c m base mold ingest is = ps ++ (start c base mold ingest).perfIns m is ∧
      ∀ p ∈ ps, p.evDone = false ∧ p.anyScanning = false := by
  cases base with
  | none => exact ⟨[], rfl, List.forall_mem_nil _⟩
  | some base =>
    have hquiet : (BookState.powerUp c none).engine.anyScanning = false :=
      BookState.anyScanning_of_quiet (BookState.rest_powerUp c none).quiet
    refine ⟨(start c none mold ingest).perfIns m (configIns (some base)), ?_,
      List.forall_mem_singleton.2 ⟨rfl, hquiet⟩⟩
    rw [perfInsFrom, configIns, List.singleton_append, perfIns, start_config]
    rfl

/-- The counters after a run. -/
theorem counts_run (m : TopMode) (base : Option UInt32) (mold : StripperState)
    (ingest : IngestState) {is : List TopIn} (hplain : ∀ i ∈ is, i.Plain) :
    ((orderbookTop c m).run (start c base mold ingest) is).perf.Counts
      (perfInsFrom c m base mold ingest is) := by
  have hnorst : ∀ i ∈ configIns base ++ is, i.rst = false := fun i hi => by
    rcases List.mem_append.1 hi with hi | hi
    · cases base with
      | none => cases hi
      | some base =>
        rw [List.mem_singleton.1 hi]
    · exact (hplain i hi).1
  rw [run_start, perf_run _ hnorst]
  exact PerfCountersState.counts_run _

/-- The commits counted are those of the run. -/
theorem commits_perfInsFrom (m : TopMode) (base : Option UInt32) (mold : StripperState)
    (ingest : IngestState) (is : List TopIn) :
    PerfCountersState.commits (perfInsFrom c m base mold ingest is) =
      (orderbookTop c m).allGiven (start c base mold ingest) is := by
  obtain ⟨ps, hps, hquiet⟩ := perfInsFrom_eq (c := c) m base mold ingest is
  have hnone : ps.filter (·.evDone) = [] := List.filter_eq_nil_iff.2 fun p hp => by
    rw [(hquiet p hp).1]
    exact Bool.false_ne_true
  rw [hps, ← commits_perfIns]
  unfold PerfCountersState.commits
  rw [List.filter_append, hnone, List.nil_append]

end TopState

open TopState PerfCountersState in
/-- **The message counters.** They are those of the commits, by type and in total; from some cycle
on after the last beat, those of the messages of the stream. -/
theorem top_counts {c : Build} (m : TopMode) (base : Option UInt32) (mold : StripperState)
    (ingest : IngestState) (is : List TopIn) (hplain : ∀ i ∈ is, i.Plain)
    (hok : ∀ t ∈ (orderbookTop c m).allTaken (start c base mold ingest) is, t.2.Ok) :
    let top := orderbookTop c m
    let s₀ := start c base mold ingest
    let counts (s : TopState c) (ts : List UInt8) : Prop :=
      s.perf.msgTotal = UInt64.ofNat ts.length ∧
        ∀ k, s.perf.msgCount k = UInt32.ofNat (ts.countP fun t => typeIdx t = k)
    counts (top.run s₀ is) (top.allGiven s₀ is) ∧
      ∃ n, ∀ js : List TopIn, (∀ j ∈ js, j.Quiet) → n ≤ js.length →
        counts (top.run s₀ (is ++ js))
          ((messages (streamOf m (top.allTaken s₀ is))).map (·.mtype)) := by
  intro top s₀ counts
  have hcounts (is : List TopIn) (hplain : ∀ i ∈ is, i.Plain) :
      counts (top.run s₀ is) (top.allGiven s₀ is) := by
    have h := counts_run (c := c) m base mold ingest hplain
    have htotal := h.msgTotal
    have htypes := h.msgCount
    rw [commits_perfInsFrom] at htotal htypes
    exact ⟨htotal, htypes⟩
  refine ⟨hcounts is hplain, ?_⟩
  obtain ⟨n, hn⟩ := drains (flows_run m base mold ingest is hplain hok)
  refine ⟨n, fun js hjs hlen => ?_⟩
  have hafter := flows_quiet_run m base mold ingest is hplain hok hjs
  have hrest : AtRest m (top.run s₀ (is ++ js)) := by
    rw [StreamMachine.run_append]
    exact hn js hjs hlen
  rw [← (atRest_of_flows hafter hrest).2.1]
  exact hcounts _ fun i hi => (List.mem_append.1 hi).elim (hplain i) fun hj => (hjs i hj).1

theorem top_counts_wire : ∃ n, ∀ js : List TopIn, (∀ j ∈ js, j.Quiet) → n ≤ js.length →
    let p := ((orderbookTop .simulation ⟨false, true⟩).run (.start .simulation none default
      ⟨default, { body := Vector.replicate 48 0 }⟩) (wireIn ++ js)).perf
    p.msgTotal = 3 ∧ p.msgCount 0 = 1 ∧ p.msgCount 2 = 1 ∧ p.msgCount 5 = 0
      ∧ p.msgCount 6 = 1 := by
  obtain ⟨hok, hms⟩ := messages_wireIn
  obtain ⟨-, n, hn⟩ := top_counts ⟨false, true⟩ none default
    ⟨default, { body := Vector.replicate 48 0 }⟩ wireIn (by decide +kernel) hok
  rw [hms] at hn
  refine ⟨n, fun js hjs hlen => ?_⟩
  obtain ⟨htotal, htypes⟩ := hn js hjs hlen
  exact ⟨htotal, htypes 0, htypes 2, htypes 5, htypes 6⟩

/-! ## The occupancy counters -/

section Occupancy

open TopState PerfCountersState

/-- **The occupancy counters.** They are exact, with the cycle that configures the band. A scan only
runs in cycles in which the engine is stalled. So in fewer than 2^64 cycles there are no more scans
than cycles spent in them, no more of these than stalled cycles, and the engine is busy with Adds,
Deletes and Replaces one at a time. -/
theorem occupancy_counts {c : Build} (m : TopMode) (base : Option UInt32) (mold : StripperState)
    (ingest : IngestState) (is : List TopIn) (hplain : ∀ i ∈ is, i.Plain)
    (hok : ∀ t ∈ (orderbookTop c m).allTaken (start c base mold ingest) is, t.2.Ok) :
    let p := ((orderbookTop c m).run (start c base mold ingest) is).perf
    let ps := perfInsFrom c m base mold ingest is
    p.Counts ps ∧ (∀ q ∈ ps, q.anyScanning = true → q.stalled = true) ∧
      (ps.length < 2 ^ 64 →
        p.cycleCount.toNat = ps.length ∧ p.scanCount ≤ p.scanCyclesTotal ∧
        p.scanCyclesTotal ≤ p.pipelineStallCycles ∧ p.pipelineStallCycles ≤ p.cycleCount ∧
        p.addCycles.toNat + p.deleteCycles.toNat + p.replaceCycles.toNat ≤
          p.cycleCount.toNat) := by
  intro p ps
  have h : p.Counts ps := counts_run m base mold ingest hplain
  have hscan : ∀ q ∈ ps, q.anyScanning = true → q.stalled = true := by
    obtain ⟨front, hps, hquiet⟩ := perfInsFrom_eq (c := c) m base mold ingest is
    have hrun := stalled_of_scanning_run (flows_start m base mold ingest) is hplain hok
    rw [show ps = _ from hps]
    refine List.forall_mem_append.2 ⟨fun q hq hscan => ?_, hrun⟩
    rw [(hquiet q hq).2] at hscan
    cases hscan
  refine ⟨h, hscan, fun hlen => ?_⟩
  have hnat {n : ℕ} (hn : n ≤ ps.length) : (UInt64.ofNat n).toNat = n :=
    UInt64.toNat_ofNat_of_lt' (hn.trans_lt hlen)
  have hle {a b : ℕ} (hab : a ≤ b) (hb : b ≤ ps.length) : UInt64.ofNat a ≤ UInt64.ofNat b := by
    rw [UInt64.le_iff_toNat_le, hnat (hab.trans hb), hnat hb]
    exact hab
  have hscanned : ps.countP PerfIn.anyScanning ≤ ps.countP PerfIn.stalled :=
    List.countP_mono_left hscan
  rw [h.cycleCount, h.scanCount, h.scanCyclesTotal, h.pipelineStallCycles, h.addCycles,
    h.deleteCycles, h.replaceCycles, hnat le_rfl, hnat List.countP_le_length,
    hnat List.countP_le_length, hnat List.countP_le_length]
  exact ⟨rfl, hle (rises_le _ _ _) List.countP_le_length, hle hscanned List.countP_le_length,
    hle List.countP_le_length le_rfl, countP_busy_le ps⟩

theorem occupancy_counts_wire :
    let p := ((orderbookTop .simulation ⟨false, true⟩).run (.start .simulation none default
      ⟨default, { body := Vector.replicate 48 0 }⟩) wireIn).perf
    p.cycleCount.toNat = wireIn.length ∧ p.scanCount ≤ p.scanCyclesTotal := by
  obtain ⟨hok, -⟩ := messages_wireIn
  obtain ⟨-, -, h⟩ := occupancy_counts ⟨false, true⟩ none default
    ⟨default, { body := Vector.replicate 48 0 }⟩ wireIn (by decide +kernel) hok
  have hlen : (perfInsFrom .simulation ⟨false, true⟩ none default
      ⟨default, { body := Vector.replicate 48 0 }⟩ wireIn).length = wireIn.length := by
    rw [perfInsFrom, length_perfIns, configIns, List.nil_append]
  rw [hlen] at h
  obtain ⟨hcycles, hscans, -⟩ := h (by decide +kernel)
  exact ⟨hcycles, hscans⟩

end Occupancy

end ItchOrderbook.Rtl
