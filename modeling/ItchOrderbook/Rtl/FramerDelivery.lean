import ItchOrderbook.Rtl.FramerSpec

/-!
# Delivery of messages

Over any run, the messages given and the one that waits are those of the complete frames of the
stream (`framed_inv`); nothing is left in framer and decoder after some cycles in which the engine
accepts (`Framed.drained`).
-/

namespace ItchOrderbook.Rtl

open BigEndian Framing

namespace IngestState

variable {s : IngestState}

/-- The stream is some complete frames, whose messages are given or pending, the consumed part of
the current frame and the window. -/
structure Framed (s : IngestState) (taken : List Beat) (given : List Decoded) : Prop where
  occupancy : s.framer.cnt.toNat ≤ 32
  split : ∃ (done : List (List UInt8)) (c : List UInt8),
    taken.flatMap Beat.bytes = done.flatMap frame ++ (c ++ s.framer.window) ∧
      (∀ b ∈ done, b.length < 65536) ∧ At s.framer s.decoder.body c ∧
      given ++ s.decoder.pending = done.filterMap frameMessage

theorem framed_reset (s : IngestState) : Framed s.reset [] [] :=
  ⟨Nat.zero_le _, [], [], rfl, by simp, rfl, rfl⟩

theorem advances {c : List UInt8} (i : IngestIn) (hcnt : s.framer.cnt.toNat ≤ 32)
    (hat : At s.framer s.decoder.body c) :
    Advances s i c (s.framer.window.take s.framer.consume.toNat) := by
  cases hp : s.framer.phase with
  | hdr => exact advances_hdr i hp hat
  | body => exact advances_body i hp hcnt hat
  | settle => exact advances_settle i hp hat
  | drop => exact advances_drop i hp hcnt hat

/-- One cycle. -/
theorem Framed.step {taken : List Beat} {given : List Decoded} {i : IngestIn}
    (hgood : ∀ b ∈ ingest.taken s i, b.Ok) (h : Framed s taken given) :
    Framed (s.step i) (taken ++ ingest.taken s i) (given ++ ingest.given s i) := by
  obtain ⟨hcnt, done, c, htaken, hshort, hat, hgiven⟩ := h
  obtain ⟨new, c', hc, hnew, hat', hout⟩ := advances i hcnt hat
  have htake : ingest.taken s i =
      if i.inValid && s.framer.inReady then [i.inBeat] else [] := rfl
  have hok : (i.inValid && s.framer.inReady) = true → i.inBeat.Ok := fun hacc => by
    rw [htake, if_pos hacc] at hgood
    exact hgood _ List.mem_cons_self
  obtain ⟨hcnt', hwindow⟩ :=
    FramerState.window_step ⟨i.inBeat, i.inValid, s.decoder.decValid⟩ hcnt hok
  have hbytes : (ingest.taken s i).flatMap Beat.bytes =
      if i.inValid && s.framer.inReady then i.inBeat.bytes else [] := by
    rw [htake]
    split
    · exact List.flatMap_singleton ..
    · rfl
  refine ⟨hcnt', done ++ new, c', ?_, ?_, hat', ?_⟩
  · have hsplit : s.framer.window = s.framer.window.take s.framer.consume.toNat ++
        s.framer.window.drop s.framer.consume.toNat := (List.take_append_drop _ _).symm
    have hfront : c ++ s.framer.window =
        new.flatMap frame ++ (c' ++ s.framer.window.drop s.framer.consume.toNat) := by
      rw [hsplit, ← List.append_assoc, hc, List.append_assoc, ← hsplit]
    rw [List.flatMap_append, htaken, hfront, hbytes, show (s.step i).framer.window = _ from hwindow,
      List.flatMap_append]
    simp only [List.append_assoc]
  · intro b hb
    rcases List.mem_append.mp hb with hb | hb
    · exact hshort b hb
    · exact hnew b hb
  · rw [List.append_assoc, hout, ← List.append_assoc, hgiven, List.filterMap_append]

/-- Every run from reset. -/
theorem framed_inv (s : IngestState) (is : List IngestIn)
    (hgood : ∀ b ∈ ingest.allTaken s.reset is, b.Ok) :
    Framed (ingest.run s.reset is) (ingest.allTaken s.reset is) (ingest.allGiven s.reset is) := by
  have hstep (s : IngestState) (taken : List Beat) (given : List Decoded) (i : IngestIn)
      (hg : ∀ b ∈ ingest.taken s i, b.Ok) (h : Framed s taken given) :
      Framed (ingest.step s i) (taken ++ ingest.taken s i) (given ++ ingest.given s i) := h.step hg
  have h := StreamMachine.run_inv hstep (framed_reset s) is hgood
  rwa [List.nil_append, List.nil_append] at h

/-! ## What has been given -/

theorem Framed.given_prefix {taken : List Beat} {given : List Decoded}
    (h : Framed s taken given) : given <+: messages (taken.flatMap Beat.bytes) := by
  obtain ⟨-, done, c, htaken, hshort, -, hgiven⟩ := h
  rw [messages, htaken, split_append hshort, List.filterMap_append, ← hgiven, List.append_assoc]
  exact List.prefix_append _ _

/-- Nothing can be consumed, no message completes and none waits. -/
def Drained (s : IngestState) : Prop :=
  s.framer.consume = 0 ∧ s.framer.phase ≠ .settle ∧ s.decoder.decValid = false

instance (s : IngestState) : Decidable s.Drained := inferInstanceAs (Decidable (_ ∧ _))

theorem cnt_lt_beatSize {f : FramerState} (hbody : f.bodyConsume = 0) (hpos : 0 < f.remain.toNat) :
    f.cnt.toNat < f.beatSize := by
  have h := f.bodyConsume_toNat
  have hsize : 0 < f.beatSize := by
    unfold FramerState.beatSize
    omega
  rw [hbody] at h
  split at h
  · exact absurd h.symm hsize.ne'
  · omega

theorem cnt_lt_two {f : FramerState} (hp : f.phase = .hdr) (hcons : f.consume = 0) :
    f.cnt.toNat < 2 := by
  rw [FramerState.consume, hp] at hcons
  by_contra hge
  rw [if_pos (BitVec.le_def.mpr (show (2 : ℕ) ≤ _ by omega))] at hcons
  exact absurd (show (2 : BitVec 6) = 0 from hcons) (by decide)

/-- In a drained state the window does not complete the current frame. -/
theorem incomplete_of_drained {c : List UInt8} (hd : s.Drained) (hcnt : s.framer.cnt.toNat ≤ 32)
    (hat : At s.framer s.decoder.body c) : Incomplete (c ++ s.framer.window) := by
  obtain ⟨hcons, hsettle, -⟩ := hd
  have hwin := FramerState.window_length hcnt
  -- a frame whose prefix is consumed, with fewer bytes in the window than it still needs
  have hpart (e : List UInt8) (hc : c = toBytes 2 s.framer.len.toNat ++ e)
      (hlen : e.length + s.framer.remain.toNat = s.framer.len.toNat) (hpos : 0 < s.framer.remain.toNat)
      (hbody : s.framer.bodyConsume = 0) : Incomplete (c ++ s.framer.window) := by
    have hsize := cnt_lt_beatSize hbody hpos
    have hle : s.framer.beatSize ≤ s.framer.remain.toNat := Nat.min_le_left _ _
    have hann : announced (c ++ s.framer.window) = s.framer.len.toNat := by
      rw [announced, hc, List.append_assoc, List.take_left' (toBytes_length 2 _),
        ofBytes_toBytes_of_lt s.framer.len.toNat_lt]
    rw [Incomplete, hann, hc, List.length_append, List.length_append, toBytes_length, hwin]
    omega
  cases hp : s.framer.phase with
  | settle => exact absurd hp hsettle
  | hdr =>
    rw [At, hp] at hat
    apply incomplete_of_length_lt
    rw [hat, List.nil_append, hwin]
    exact cnt_lt_two hp hcons
  | body =>
    rw [At, hp] at hat
    rw [FramerState.consume, hp] at hcons
    obtain ⟨e, hc, hlen, -, -, hpos, -⟩ := hat
    exact hpart e hc hlen hpos hcons
  | drop =>
    rw [At, hp] at hat
    rw [FramerState.consume, hp] at hcons
    obtain ⟨e, hc, hlen, -, hpos⟩ := hat
    exact hpart e hc hlen hpos hcons

theorem Framed.given_eq {taken : List Beat} {given : List Decoded} (h : Framed s taken given)
    (hd : s.Drained) : given = messages (taken.flatMap Beat.bytes) := by
  obtain ⟨hcnt, done, c, htaken, hshort, hat, hgiven⟩ := h
  have hnone : s.decoder.pending = [] := if_neg (by rw [hd.2.2]; exact Bool.false_ne_true)
  have hrest := (incomplete_of_drained hd hcnt hat).split_eq
  rw [messages, htaken, split_append hshort, hrest, List.append_nil, ← hgiven, hnone,
    List.append_nil]

/-! ## Rest -/

/-- How far framer and decoder are from having nothing to do. -/
def rank (s : IngestState) : ℕ :=
  if s.Drained then 0
  else
    3 * s.framer.cnt.toNat + (if s.framer.phase = .settle then 2 else 0) +
      if s.decoder.decValid then 1 else 0

theorem rank_le (hcnt : s.framer.cnt.toNat ≤ 32) : s.rank ≤ 99 := by
  unfold rank
  repeat' split
  all_goals omega

theorem drained_of_rank (h : s.rank = 0) : s.Drained := by
  by_contra hd
  rw [rank, if_neg hd] at h
  apply hd
  refine ⟨BitVec.eq_of_toNat_eq ?_, fun hp => ?_, ?_⟩
  · have := s.framer.consume_le
    show _ = 0
    omega
  · rw [if_pos hp] at h
    omega
  · by_contra hv
    rw [Bool.not_eq_false] at hv
    rw [hv, if_pos rfl] at h
    omega

theorem rank_le_sum (s : IngestState) :
    s.rank ≤ 3 * s.framer.cnt.toNat + (if s.framer.phase = .settle then 2 else 0) +
      if s.decoder.decValid then 1 else 0 := by
  unfold rank
  split
  · exact Nat.zero_le _
  · exact Nat.le_refl _

theorem control_of_consume_eq_zero {f : FramerState} (hne : f.phase ≠ .settle)
    (h : f.consume = 0) (p : Bool) (n : FramerState) : f.control p n = n := by
  have hnot : ¬ f.consume ≠ 0 := not_not.mpr h
  rw [FramerState.control]
  cases hp : f.phase with
  | settle => exact absurd hp hne
  | body => exact if_neg hnot
  | drop => exact if_neg hnot
  | hdr =>
    apply if_neg
    intro h2
    rw [FramerState.consume, hp] at h
    exact absurd ((if_pos h2).symm.trans h) (by decide : (2 : BitVec 6) ≠ 0)

/-- A cycle that takes nothing moves the stream on if the engine accepts, and never back. -/
theorem rank_step {i : IngestIn} (hnone : ingest.taken s i = []) :
    (s.step i).rank ≤ s.rank - if i.engineIdle then 1 else 0 := by
  have hload : (i.inValid && s.framer.inReady) = false := by
    by_contra hl
    rw [Bool.not_eq_false] at hl
    have htaken : ingest.taken s i = [i.inBeat] := if_pos hl
    rw [htaken] at hnone
    cases hnone
  have hcnt : (s.step i).framer.cnt.toNat = s.framer.cnt.toNat - s.framer.consume.toNat := by
    have hsame : (s.step i).framer.cnt = s.framer.keep +
        if i.inValid && s.framer.inReady then i.inBeat.nbytes.setWidth 6 else 0 :=
      (FramerState.control_window _ _ _).2
    rw [hsame, hload, if_neg Bool.false_ne_true, ← FramerState.keep_toNat]
    exact congrArg BitVec.toNat (BitVec.add_zero _)
  have hle := s.framer.consume_le
  have hsum := rank_le_sum (s.step i)
  have hphase := (framer_phase (s := s) i).1
  have hidle : (if !i.engineIdle then 1 else 0) + (if i.engineIdle then 1 else 0) = 1 := by
    cases i.engineIdle <;> rfl
  rw [hcnt] at hsum
  by_cases hp : s.framer.phase = .settle
  · have hcons : s.framer.consume = 0 := by rw [FramerState.consume, hp]
    have hrank : s.rank = 3 * s.framer.cnt.toNat + 2 + if s.decoder.decValid then 1 else 0 := by
      rw [rank, if_neg fun hd => hd.2.1 hp, if_pos hp]
    rw [hrank]
    cases hv : s.decoder.decValid with
    | true =>
      -- the message in the decoder has to go first
      have hcomp : (s.framer.toDecoder s.decoder.decValid (s.decAccept i)).msgComplete = false := by
        rw [hv]
        exact Bool.and_false _
      have hvalid : (s.step i).decoder.decValid = !i.engineIdle := by
        have h := (DecoderState.step_of_not_complete (s := s.decoder) hcomp).2.1
        rw [show (s.step i).decoder.decValid = _ from h, hv]
        show (true && !(i.engineIdle && s.decoder.decValid)) = _
        rw [hv, Bool.true_and, Bool.and_true]
      have hsame : (s.step i).framer.phase = .settle := by
        rw [hphase, FramerState.control, hp, hv]
        exact hp
      rw [hvalid, hsame, if_pos rfl, hcons] at hsum
      rw [if_pos rfl]
      have hzero : (0 : BitVec 6).toNat = 0 := rfl
      omega
    | false =>
      have hnext : (s.step i).framer.phase = .hdr := by
        rw [hphase, FramerState.control, hp, hv]
        rfl
      have hone : (if (s.step i).decoder.decValid then 1 else 0) ≤ 1 := by split <;> decide
      rw [hnext, if_neg (by decide), hcons] at hsum
      simp only [Bool.false_eq_true, if_false]
      omega
  · have hcomp := complete_eq_false hp s.decoder.decValid (s.decAccept i)
    have hvalid : (s.step i).decoder.decValid =
        (s.decoder.decValid && !(i.engineIdle && s.decoder.decValid)) :=
      (DecoderState.step_of_not_complete (s := s.decoder) hcomp).2.1
    by_cases hcons : s.framer.consume = 0
    · have hctl := control_of_consume_eq_zero hp hcons s.decoder.decValid
      have hsame : (s.step i).framer.phase = s.framer.phase := by rw [hphase, hctl]
      cases hv : s.decoder.decValid with
      | true =>
        have hrank : s.rank = 3 * s.framer.cnt.toNat + 0 + 1 := by
          rw [rank, if_neg fun hd => Bool.false_ne_true (hd.2.2.symm.trans hv), if_neg hp, hv]
          rfl
        rw [hvalid, hv, Bool.true_and, Bool.and_true, hsame, if_neg hp, hcons] at hsum
        rw [hrank]
        have hzero : (0 : BitVec 6).toNat = 0 := rfl
        omega
      | false =>
        -- at rest, and it stays so
        have hcons' : (s.step i).framer.consume = 0 := by
          have hcnt' : (s.step i).framer.cnt = s.framer.cnt := by
            apply BitVec.eq_of_toNat_eq
            rw [hcnt, hcons]
            exact Nat.sub_zero _
          have hremain : (s.step i).framer.remain = s.framer.remain := by
            rw [(framer_phase (s := s) i).2.2.1, hctl]
          rw [← hcons, FramerState.consume, FramerState.consume, hsame, FramerState.bodyConsume,
            FramerState.bodyConsume, hcnt', hremain]
        have hd : (s.step i).Drained := ⟨hcons', hsame ▸ hp, by rw [hvalid, hv]; rfl⟩
        rw [rank, if_pos hd]
        exact Nat.zero_le _
    · have hpos : 0 < s.framer.consume.toNat :=
        Nat.pos_of_ne_zero fun h => hcons (BitVec.eq_of_toNat_eq h)
      have hrank : s.rank = 3 * s.framer.cnt.toNat + 0 + if s.decoder.decValid then 1 else 0 := by
        rw [rank, if_neg fun hd => hcons hd.1, if_neg hp]
      have htwo : (if (s.step i).framer.phase = .settle then 2 else 0) ≤ 2 := by split <;> decide
      have hmono : (if (s.step i).decoder.decValid then 1 else 0) ≤
          if s.decoder.decValid then 1 else 0 := by
        rw [hvalid]
        cases s.decoder.decValid <;> cases i.engineIdle <;> decide
      rw [hrank]
      omega

/-- After 99 cycles in which the engine is ready and nothing is taken, nothing is left to do. -/
theorem Framed.drained {taken : List Beat} {given : List Decoded} (h : Framed s taken given)
    {is : List IngestIn} (hnone : ingest.allTaken s is = [])
    (hready : 99 ≤ is.countP IngestIn.engineIdle) : (ingest.run s is).Drained := by
  have hok (s : IngestState) (i : IngestIn) (_ : True) (_ : ingest.taken s i = []) : True := trivial
  have hrank (s : IngestState) (i : IngestIn) (_ : True) (hn : ingest.taken s i = []) :
      (ingest.step s i).rank ≤ s.rank - if i.engineIdle then 1 else 0 := rank_step hn
  have hrun := StreamMachine.rank_run hok hrank trivial hnone
  have hle := rank_le h.occupancy
  exact drained_of_rank (by omega)

/-- A drained framer takes the next beat. -/
theorem Framed.inReady {taken : List Beat} {given : List Decoded} (h : Framed s taken given)
    (hd : s.Drained) : s.framer.inReady = true := by
  obtain ⟨-, done, c, -, -, hat, -⟩ := h
  obtain ⟨hcons, hsettle, -⟩ := hd
  have hkeep := s.framer.keep_toNat
  have hbeat : s.framer.beatSize ≤ 16 := Nat.min_le_right _ _
  have hlt : s.framer.cnt.toNat < 16 := by
    cases hp : s.framer.phase with
    | settle => exact absurd hp hsettle
    | hdr => exact (cnt_lt_two hp hcons).trans (by decide)
    | body =>
      rw [At, hp] at hat
      obtain ⟨e, -, -, -, -, hpos, -⟩ := hat
      rw [FramerState.consume, hp] at hcons
      exact (cnt_lt_beatSize hcons hpos).trans_le hbeat
    | drop =>
      rw [At, hp] at hat
      obtain ⟨e, -, -, -, hpos⟩ := hat
      rw [FramerState.consume, hp] at hcons
      exact (cnt_lt_beatSize hcons hpos).trans_le hbeat
  rw [FramerState.inReady_iff]
  omega

/-- While a message waits it does not change. -/
theorem dec_step (i : IngestIn) (hv : s.decoder.decValid = true) :
    (s.step i).decoder.dec = s.decoder.dec := by
  have hcomp : (s.framer.toDecoder s.decoder.decValid (s.decAccept i)).msgComplete = false := by
    rw [hv]
    exact Bool.and_false _
  exact (DecoderState.step_of_not_complete (s := s.decoder) hcomp).1

end IngestState

open IngestState in
/-- Framer and decoder from reset, with any beats, any gaps and any acceptance by the engine. The
messages given are a prefix of those of the stream that was taken, and all of them once nothing is
left to do. The window never holds more than 32 bytes, and a message that waits does not change.
After 99 cycles at most in which the engine is ready and nothing more is taken, nothing is left to
do, and the next beat is taken. -/
theorem ingest_delivers (s : IngestState) (is : List IngestIn)
    (hgood : ∀ b ∈ ingest.allTaken s.reset is, b.Ok) :
    let stream := (ingest.allTaken s.reset is).flatMap Beat.bytes
    let given := ingest.allGiven s.reset is
    let after := ingest.run s.reset is
    given <+: messages stream ∧ (after.Drained → given = messages stream) ∧
      after.framer.cnt.toNat ≤ 32 ∧
      (after.decoder.decValid = true → ∀ i, (after.step i).decoder.dec = after.decoder.dec) ∧
      ∀ js, ingest.allTaken after js = [] → 99 ≤ js.countP IngestIn.engineIdle →
        (ingest.run after js).Drained ∧ (ingest.run after js).framer.inReady = true := by
  have hinv := framed_inv s is hgood
  refine ⟨hinv.given_prefix, hinv.given_eq, hinv.occupancy, fun hv i => dec_step i hv,
    fun js hnone hready => ?_⟩
  have hdrained := hinv.drained hnone hready
  have hall : ingest.allTaken s.reset (is ++ js) = ingest.allTaken s.reset is := by
    rw [StreamMachine.allTaken_append, hnone, List.append_nil]
  have hinv' := framed_inv s (is ++ js) (by rwa [hall])
  rw [StreamMachine.run_append] at hinv'
  exact ⟨hdrained, hinv'.inReady hdrained⟩

/-- A system event, its length prefix split between two beats. -/
def systemEventCycles : List IngestIn :=
  let idle : IngestIn := ⟨default, false, true⟩
  let beat (data : Vector UInt8 16) (n : BitVec 5) : IngestIn := ⟨⟨data, n⟩, true, true⟩
  [beat (Vector.replicate 16 0) 1,
    beat #v[14, 83, 0, 1, 0, 0, 0, 0, 0, 0, 0, 0, 0, 0, 79, 0] 15, idle, idle, idle, idle]

theorem ingest_delivers_system_event :
    let s : IngestState := ⟨default, { body := Vector.replicate 48 0 }⟩
    ingest.allGiven s.reset systemEventCycles = [{ mtype := tSystem, stockLocate := 1 }] := by
  intro s
  have h := (ingest_delivers s systemEventCycles (by decide)).2.1 (by decide)
  rw [h, show (ingest.allTaken s.reset systemEventCycles).flatMap Beat.bytes =
    frame ([83, 0, 1] ++ List.replicate 10 0 ++ [79]) ++ [] from by decide, messages,
    split_frame (by decide), incomplete_nil.split_eq]
  decide

end ItchOrderbook.Rtl
