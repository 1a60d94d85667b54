import ItchOrderbook.Rtl.ReferenceAgreement
import ItchOrderbook.Rtl.TopDelivery

/-!
# The pipeline against the reference model

What the top shows at each commit is what `Sim.RefBook` shows after as many messages of the stream
(`top_equals_reference`). The condition is one on the messages: each is admissible, and its INSERT
finds a slot.
-/

namespace ItchOrderbook.Rtl

open BookState (replayed)

/-- Each message is admissible for the reference that follows them, and its INSERT finds a slot. -/
def Followed (k : BookCore .simulation) (r : Sim.RefBook) : List Decoded → Prop
  | [] => True
  | d :: ds => Admissible r d ∧ (k.apply d).table.insFailCount = 0 ∧
    Followed (k.apply d) (r.apply d.toRefMsg) ds

namespace Followed

variable {k : BookCore .simulation} {live : LiveEntries} {r : Sim.RefBook} {ds es : List Decoded}

theorem mono (h : Followed k r es) (hds : ds <+: es) : Followed k r ds := by
  induction ds generalizing k r es with
  | nil => trivial
  | cons d ds ih =>
    obtain ⟨rest, rfl⟩ := hds
    exact ⟨h.1, h.2.1, ih h.2.2 (List.prefix_append _ _)⟩

/-- The book and the reference hold the same orders after the messages. -/
theorem mirrors (h : Followed k r ds) (hk : Mirrors k live r) (hfits : k.table.insFailCount = 0) :
    ∃ live, Mirrors (ds.foldl BookCore.apply k) live (replayed r ds) := by
  induction ds generalizing k live r with
  | nil => exact ⟨live, hk⟩
  | cons d ds ih => exact ih h.2.2 (hk.apply h.1 (h.2.1.trans hfits.symm)) h.2.1

end Followed

namespace TopState

variable {m : TopMode} {s : TopState .simulation} {i : TopIn} {as : List (Bool × Beat)}
  {ts : List UInt8}

/-- The book after a cycle. -/
theorem book_step (hi : i.Plain) : (s.step m i).book = s.book.step (s.engineIn i) :=
  congrArg (fun f : UdpState × StripperState × IngestState × BookState .simulation => f.2.2.2)
    (flow_step hi.1)

/-- A commit. -/
theorem matches_of_done (h : Flows m (BookCore.powerUp .simulation none) s.flow as ts)
    (hf : Followed (BookCore.powerUp .simulation none) {} (messages (streamOf m as)))
    (hdone : s.book.engine.engineDone = true) (hi : i.Plain) :
    ts.length + 1 ≤ (messages (streamOf m as)).length ∧ Matches (s.step m i).book
      (replayed {} ((messages (streamOf m as)).take (ts.length + 1))) := by
  obtain ⟨ds, hds, hupdated⟩ := taken_of_flows h
  have hrest := hupdated.serving.rest_of_done hdone
  have hcommits := congrArg List.length hupdated.commits
  rw [List.length_map, List.length_append, BookState.inFlight, if_pos (.inr hdone),
    List.length_singleton] at hcommits
  obtain ⟨live, hm⟩ := (hf.mono hds).mirrors Mirrors.powerUp rfl
  rw [← hcommits, ← List.prefix_iff_eq_take.1 hds, book_step hi]
  exact ⟨hds.length_le, BookState.matches_of_mirrors hrest hm hi⟩

/-- The pipeline at rest. -/
theorem matches_of_atRest (h : Flows m (BookCore.powerUp .simulation none) s.flow as ts)
    (hf : Followed (BookCore.powerUp .simulation none) {} (messages (streamOf m as)))
    (hr : AtRest m s) (hi : i.Plain) :
    Matches (s.step m i).book (replayed {} (messages (streamOf m as))) := by
  obtain ⟨hupdated, -⟩ := atRest_of_flows h hr
  obtain ⟨live, hm⟩ := hf.mirrors Mirrors.powerUp rfl
  rw [book_step hi]
  exact BookState.matches_of_mirrors (hupdated.serving.rest_of_idle hr.1.2.2) hm hi

end TopState

open TopState in
/-- **The pipeline equals the reference.** In the simulation build, in either mode, with any gaps
between the beats: after each commit the top shows what the reference shows after the messages of
the stream up to this one; and once nothing comes in any more it shows, from some cycle on, what
the reference shows after all of them. -/
theorem top_equals_reference (m : TopMode) (mold : StripperState) (ingest : IngestState)
    (is : List TopIn) (hplain : ∀ i ∈ is, i.Plain)
    (hok : ∀ t ∈ (orderbookTop .simulation m).allTaken (start .simulation none mold ingest) is,
      t.2.Ok)
    (hf : Followed (BookCore.powerUp .simulation none) {} (messages (streamOf m
      ((orderbookTop .simulation m).allTaken (start .simulation none mold ingest) is)))) :
    let top := orderbookTop .simulation m
    let s₀ := start .simulation none mold ingest
    let ms := messages (streamOf m (top.allTaken s₀ is))
    ((top.run s₀ is).book.engine.engineDone = true → ∀ i : TopIn, i.Plain →
      ∃ n ≤ ms.length, n = (top.allGiven s₀ (is ++ [i])).length ∧
        Matches (top.run s₀ (is ++ [i])).book (replayed {} (ms.take n))) ∧
      ∃ n, ∀ js : List TopIn, (∀ j ∈ js, j.Quiet) → n ≤ js.length →
        Matches (top.run s₀ (is ++ js)).book (replayed {} ms) := by
  intro top s₀ ms
  have hflows := flows_run m none mold ingest is hplain hok
  refine ⟨fun hdone i hi => ?_, ?_⟩
  · -- the cycle after `engine_done`: its commit is counted in `i`
    obtain ⟨hle, hmatches⟩ := matches_of_done hflows hf hdone hi
    have hgiven : top.allGiven s₀ (is ++ [i]) = top.allGiven s₀ is ++
        [(top.run s₀ is).book.engine.mtype] := by
      rw [StreamMachine.allGiven_append, StreamMachine.allGiven, StreamMachine.allGiven,
        List.append_nil]
      exact congrArg (_ ++ ·) (if_pos hdone)
    refine ⟨_, hle, ?_, ?_⟩
    · rw [hgiven, List.length_append]
      rfl
    · rw [StreamMachine.run_append]
      exact hmatches
  · obtain ⟨n, hn⟩ := drains hflows
    -- one more cycle than the drain, for the outputs registered behind the book
    refine ⟨n + 1, fun js hjs hlen => ?_⟩
    obtain ⟨js, j, rfl⟩ : ∃ js' j, js = js' ++ [j] :=
      ⟨_, _, (List.dropLast_append_getLast (List.ne_nil_of_length_pos (by omega))).symm⟩
    rw [List.length_append, List.length_singleton] at hlen
    have hquiet : ∀ j ∈ js, j.Quiet := fun j hj => hjs j (List.mem_append_left _ hj)
    have hafter := flows_quiet_run m none mold ingest is hplain hok hquiet
    have hrest : AtRest m (top.run s₀ (is ++ js)) := by
      rw [StreamMachine.run_append]
      exact hn js hquiet (by omega)
    rw [← List.append_assoc, StreamMachine.run_append]
    exact matches_of_atRest hafter hf hrest (hjs j (by simp)).1

theorem followed_wire : Followed (BookCore.powerUp .simulation none) {} wireMessages :=
  ⟨by decide +kernel, by decide +kernel, by decide +kernel, by decide +kernel, by decide +kernel,
    by decide +kernel, trivial⟩

theorem top_equals_reference_wire : ∃ n, ∀ js : List TopIn, (∀ j ∈ js, j.Quiet) →
    n ≤ js.length →
      Matches (wireTop.run freshTop (wireIn ++ js)).book (replayed {} wireMessages) := by
  obtain ⟨hok, hms⟩ := messages_wireIn
  obtain ⟨-, n, hn⟩ := top_equals_reference ⟨false, true⟩ default
    ⟨default, { body := Vector.replicate 48 0 }⟩ wireIn (by decide +kernel) hok
    (by rw [hms]; exact followed_wire)
  rw [hms] at hn
  exact ⟨n, hn⟩

end ItchOrderbook.Rtl
