import ItchOrderbook.Rtl.MoldStripperSpec

/-!
# Delivery of datagram payloads

Over whole datagrams the pipeline-free stripper is the sequence policy applied to one header after
the other (`foldl_feed_datagrams`). The stripper therefore delivers the payload bytes of the
accepted datagrams, whatever the beats and the stalls, and it comes to rest after a few ready
cycles (`stripper_delivers`).
-/

namespace ItchOrderbook.Rtl

open StripperState

/-! ## The policy over datagrams -/

/-- The headers of the datagrams that have one. -/
def headers (ds : List (List UInt8)) : List (List UInt8) :=
  (ds.filter fun d => 20 ≤ d.length).map (List.take 20)

/-- The telemetry after the headers of some datagrams. -/
def telemetry (t : Telemetry) (ds : List (List UInt8)) : Telemetry :=
  (headers ds).foldl (fun t h => (Decap.judge t h).1) t

/-- The bytes from 20 on of the datagrams whose header the policy accepts. -/
def acceptedBytes : Telemetry → List (List UInt8) → List UInt8
  | _, [] => []
  | t, d :: ds =>
    if d.length < 20 then acceptedBytes t ds
    else
      (if (Decap.judge t (d.take 20)).2 then [] else d.drop 20) ++
        acceptedBytes (Decap.judge t (d.take 20)).1 ds

/-- The beats of one datagram: the first carries the `sop` flag, and every one 1 to 16 bytes. -/
structure DatagramBeats where
  first : Beat
  rest : List Beat
  first_ok : first.Ok
  rest_ok : ∀ b ∈ rest, b.Ok

namespace DatagramBeats

def beats (g : DatagramBeats) : List (Bool × Beat) :=
  (true, g.first) :: g.rest.map fun b => (false, b)

def payload (g : DatagramBeats) : List UInt8 := g.first.bytes ++ g.rest.flatMap Beat.bytes

theorem ok_of_mem {g : DatagramBeats} {t : Bool × Beat} (h : t ∈ g.beats) : t.2.Ok := by
  rcases List.mem_cons.mp h with rfl | h
  · exact g.first_ok
  · obtain ⟨b, hb, rfl⟩ := List.mem_map.mp h
    exact g.rest_ok b hb

end DatagramBeats

namespace Decap

/-- `a` when the bytes `p` of a new datagram have come. -/
def ahead (a : Decap) (p : List UInt8) : Decap :=
  if p.length < 20 then { a with hdr := p, left := 20 - p.length }
  else
    ({ a with
        hdr := p.take 20, left := 0
        tel := (judge a.tel (p.take 20)).1, drop := (judge a.tel (p.take 20)).2 } : Decap).body
      (p.drop 20)

theorem body_append (a : Decap) (xs ys : List UInt8) :
    (a.body xs).body ys = a.body (xs ++ ys) := by
  cases hd : a.drop <;> simp [body, hd]

theorem left_body (a : Decap) (xs : List UInt8) : (a.body xs).left = a.left := by
  unfold body
  split <;> rfl

/-- The bytes of a datagram may come in any portions. -/
theorem ahead_feed (a : Decap) (p q : List UInt8) :
    (a.ahead p).feed (false, q) = a.ahead (p ++ q) := by
  rcases Nat.lt_or_ge p.length 20 with hp | hp
  · have hahead : a.ahead p = { a with hdr := p, left := 20 - p.length } := if_pos hp
    have hleft : (a.ahead p).left = 20 - p.length := by rw [hahead]
    have hfeed : (a.ahead p).feed (false, q) =
        ((a.ahead p).header (q.take (20 - p.length))).body (q.drop (20 - p.length)) := by
      rw [← hleft]
      exact if_neg (by rw [if_neg Bool.false_ne_true, hleft]; omega)
    rw [hfeed, hahead]
    rcases Nat.lt_or_ge (p ++ q).length 20 with hq | hq
    · -- still inside the header
      rw [List.length_append] at hq
      rw [List.take_of_length_le (by omega), List.drop_eq_nil_of_le (by omega), body_nil, ahead,
        if_pos (by rw [List.length_append]; exact hq), header, if_neg (by dsimp only; omega),
        List.length_append, Nat.sub_add_eq]
    · -- the header is complete, what is left is payload
      have htake : p ++ q.take (20 - p.length) = (p ++ q).take 20 := by
        rw [List.take_append, List.take_of_length_le hp.le]
      have hdrop : q.drop (20 - p.length) = (p ++ q).drop 20 := by
        rw [List.drop_append, List.drop_eq_nil_of_le hp.le, List.nil_append]
      rw [List.length_append] at hq
      have hdone : 20 - p.length - (q.take (20 - p.length)).length = 0 := by
        rw [List.length_take]
        omega
      rw [ahead, if_neg (by rw [List.length_append]; omega), header, if_pos hdone, hdrop]
      dsimp only
      rw [htake, hdone]
  · have hahead : a.ahead p = _ := if_neg (by omega)
    have hleft : (a.ahead p).left = 0 := by rw [hahead, left_body]
    have hfeed : (a.ahead p).feed (false, q) = (a.ahead p).body q := if_pos hleft
    rw [hfeed, hahead, body_append, ahead, if_neg (by rw [List.length_append]; omega),
      List.take_append_of_le_length hp, List.drop_append_of_le_length hp]

/-- The beats of a datagram. -/
theorem foldl_feed_datagram (a : Decap) (g : DatagramBeats) :
    (g.beats.map fun t => (t.1, t.2.bytes)).foldl feed a = a.ahead g.payload := by
  have hrest (bs : List Beat) (p : List UInt8) :
      ((bs.map fun b => (false, b)).map fun t => (t.1, t.2.bytes)).foldl feed (a.ahead p) =
        a.ahead (p ++ bs.flatMap Beat.bytes) := by
    induction bs generalizing p with
    | nil => simp
    | cons b bs ih =>
      rw [List.map_cons, List.map_cons, List.foldl_cons, ahead_feed, ih, List.flatMap_cons,
        List.append_assoc]
  have hfirst : a.feed (true, g.first.bytes) = a.ahead g.first.bytes := by
    have h := ahead_feed a [] g.first.bytes
    rwa [List.nil_append] at h
  rw [DatagramBeats.beats, List.map_cons, List.foldl_cons, hfirst, hrest]
  rfl

theorem tel_ahead (a : Decap) (p : List UInt8) :
    (a.ahead p).tel = if p.length < 20 then a.tel else (judge a.tel (p.take 20)).1 := by
  unfold ahead body
  repeat' split
  all_goals rfl

theorem out_ahead (a : Decap) (p : List UInt8) :
    (a.ahead p).out = a.out ++
      if p.length < 20 then [] else if (judge a.tel (p.take 20)).2 then [] else p.drop 20 := by
  unfold ahead body
  dsimp only
  repeat' split
  all_goals simp_all

/-- Whole datagrams: the policy over their headers, and the bytes it accepts. -/
theorem foldl_feed_datagrams (a : Decap) (gs : List DatagramBeats) :
    let a' := ((gs.flatMap DatagramBeats.beats).map fun t => (t.1, t.2.bytes)).foldl feed a
    a'.tel = telemetry a.tel (gs.map DatagramBeats.payload) ∧
      a'.out = a.out ++ acceptedBytes a.tel (gs.map DatagramBeats.payload) := by
  induction gs generalizing a with
  | nil => exact ⟨rfl, (List.append_nil _).symm⟩
  | cons g gs ih =>
    obtain ⟨htel, hout⟩ := ih (a.ahead g.payload)
    dsimp only
    rw [List.flatMap_cons, List.map_append, List.foldl_append, foldl_feed_datagram, htel, hout,
      List.map_cons, tel_ahead, out_ahead, acceptedBytes, telemetry, telemetry, headers, headers]
    rcases Nat.lt_or_ge g.payload.length 20 with h | h
    · rw [if_pos h, if_pos h, if_pos h, List.append_nil, List.filter_cons_of_neg (by simpa using h)]
      exact ⟨rfl, rfl⟩
    · have hnot : ¬ g.payload.length < 20 := Nat.not_lt.mpr h
      rw [if_neg hnot, if_neg hnot, if_neg hnot, List.append_assoc,
        List.filter_cons_of_pos (by simpa using h), List.map_cons, List.foldl_cons]
      exact ⟨rfl, rfl⟩

/-- Payload is only ever appended. -/
theorem out_prefix_feed (a : Decap) (t : Bool × List UInt8) : a.out <+: (a.feed t).out := by
  have hbody (a : Decap) (bs : List UInt8) : a.out <+: (a.body bs).out := by
    unfold body
    split
    · exact List.prefix_rfl
    · exact List.prefix_append _ _
  have hheader (a : Decap) (bs : List UInt8) : (a.header bs).out = a.out := by
    unfold header
    dsimp only
    split <;> rfl
  have hbeat (b : Decap) : b.out <+: (if b.left = 0 then b.body t.2
      else (b.header (t.2.take b.left)).body (t.2.drop b.left)).out := by
    split
    · exact hbody _ _
    · exact (hheader b _).symm ▸ hbody _ _
  have hstart : (if t.1 then a.start else a).out = a.out := by
    split <;> rfl
  rw [← hstart]
  exact hbeat _

theorem out_prefix_foldl (a : Decap) (ts : List (Bool × List UInt8)) :
    a.out <+: (ts.foldl feed a).out := by
  induction ts generalizing a with
  | nil => exact List.prefix_rfl
  | cons t ts ih => exact (out_prefix_feed a t).trans (ih (a.feed t))

end Decap

/-! ## Rest -/

namespace StripperState

/-- Nothing is left in the stripper. -/
def AtRest (s : StripperState) : Prop :=
  s.phase = .stream ∧ s.aValid = false ∧ s.outValid = false

/-- The stages the beat in stage A has in front of it. -/
def stageRank (s : StripperState) : ℕ :=
  if s.aValid then if s.hdrLeftEff.toNat = 0 then 2 else 4 else 0

def rankOf (outValid : Bool) (stage : ℕ) (phase : MoldPhase) : ℕ :=
  (if outValid then 1 else 0) + stage + if phase = .decide then 1 else 0

/-- How far the stripper is from rest. -/
def rank (s : StripperState) : ℕ := rankOf s.outValid s.stageRank s.phase

theorem rank_le (s : StripperState) : s.rank ≤ 6 := by
  unfold rank rankOf stageRank
  repeat' split
  all_goals decide

theorem atRest_of_rank {s : StripperState} (h : s.rank = 0) : s.AtRest := by
  unfold rank rankOf stageRank at h
  cases hp : s.phase <;> cases hv : s.aValid <;> cases ho : s.outValid <;> simp [hp, hv, ho] at h
  · exact ⟨hp, hv, ho⟩
  all_goals split at h <;> omega

/-- A cycle that takes nothing moves the beats on if the output is ready, and never back. -/
theorem rank_step {s : StripperState} (hh : Held s) {i : StripperIn}
    (hnone : moldStripper.taken s i = []) :
    (s.step i).rank ≤ s.rank - if i.outReady then 1 else 0 := by
  have hload : (i.inValid && s.inReady i.outReady) = false := by
    by_contra hl
    rw [Bool.not_eq_false] at hl
    have htaken : moldStripper.taken s i = [(i.inSop, i.inBeat)] := if_pos hl
    rw [htaken] at hnone
    cases hnone
  have hstep := s.step_eq i
  dsimp only at hstep
  rw [hload, if_neg Bool.false_ne_true] at hstep
  rw [hstep]
  cases hp : s.phase with
  | decide =>
    obtain ⟨hctl, hcons⟩ := control_decide i.outReady (s.drained i.outReady) hp
    rw [hcons, if_neg Bool.false_ne_true, hctl]
    show rankOf (s.outValid && !i.outReady) s.stageRank .stream ≤ _
    rw [rank, hp]
    cases s.outValid <;> cases i.outReady <;> simp [rankOf]
  | stream =>
    cases hv : s.aValid with
    | false =>
      obtain ⟨hctl, hcons⟩ := control_empty i.outReady (s.drained i.outReady) hp hv
      rw [hcons, if_neg Bool.false_ne_true, hctl]
      show rankOf (s.outValid && !i.outReady) s.stageRank s.phase ≤ _
      rw [rank, hp, stageRank, hv, if_neg Bool.false_ne_true]
      cases s.outValid <;> cases i.outReady <;> decide
    | true =>
      rcases Nat.eq_zero_or_pos s.hdrLeftEff.toNat with hl | hl
      · have hrank : s.rank = rankOf s.outValid 2 .stream := by rw [rank, hp, stageRank, hv, hl]; rfl
        obtain ⟨hctl, hcons⟩ := control_payload i.outReady (s.drained i.outReady) hp hv hl
        rw [hrank, hctl, hcons]
        cases hd : s.drop with
        | true =>
          rw [Bool.true_or, if_pos rfl, if_pos rfl]
          show rankOf (s.outValid && !i.outReady) 0 s.phase ≤ _
          rw [hp]
          cases s.outValid <;> cases i.outReady <;> decide
        | false =>
          rw [Bool.false_or, if_neg Bool.false_ne_true]
          cases hf : s.outFree i.outReady with
          | true =>
            rw [if_pos rfl, if_pos rfl]
            show rankOf true 0 s.phase ≤ _
            rw [hp]
            cases s.outValid <;> cases i.outReady <;> decide
          | false =>
            -- the output register is blocked
            rw [if_neg Bool.false_ne_true, if_neg Bool.false_ne_true]
            obtain ⟨ho, hr⟩ := Bool.or_eq_false_iff.mp hf
            rw [Bool.not_eq_false'] at ho
            have hsame : (s.drained i.outReady).rank = rankOf s.outValid 2 .stream := by
              rw [← hrank, rank, rank, drained, ho, hr]
              rfl
            rw [hsame, hr]
            exact Nat.le_refl _
      · have hrank : s.rank = rankOf s.outValid 4 .stream := by
          rw [rank, hp, stageRank, hv, if_pos rfl, if_neg hl.ne']
        rw [hrank]
        rcases Nat.lt_or_ge s.aBeat.nbytes.toNat s.hdrLeftEff.toNat with hlt | hge
        · obtain ⟨hctl, hcons⟩ := control_partial i.outReady (s.drained i.outReady) hp hv hlt
          rw [hcons, if_pos rfl, hctl]
          show rankOf (s.outValid && !i.outReady) 0 s.phase ≤ _
          rw [hp]
          cases s.outValid <;> cases i.outReady <;> decide
        · obtain ⟨hctl, hcons⟩ :=
            control_completing i.outReady (s.drained i.outReady) hp hv hl.ne' hge
          have hsop := aSop_of_completing (hh.ok hv) hv hge
          rw [hctl, hcons]
          cases hpay : s.hdrPay with
          | true =>
            -- what is held is payload now
            have hleft : (s.hdrLeftEff - s.k).toNat = 0 := by
              rw [hdrLeftEff_sub_k]
              omega
            rw [Bool.not_true, if_neg Bool.false_ne_true]
            have hstage : rankOf (s.outValid && !i.outReady)
                (if s.aValid then if (if s.aValid && s.aSop then hdrBytes
                  else s.hdrLeftEff - s.k).toNat = 0 then 2 else 4 else 0) .decide ≤
                rankOf s.outValid 4 .stream - if i.outReady then 1 else 0 := by
              rw [hv, hsop, Bool.and_false, if_neg Bool.false_ne_true, hleft]
              cases s.outValid <;> cases i.outReady <;> decide
            exact hstage
          | false =>
            rw [Bool.not_false, if_pos rfl]
            show rankOf (s.outValid && !i.outReady) 0 .decide ≤ _
            cases s.outValid <;> cases i.outReady <;> decide

/-- After six ready cycles in which nothing is taken the stripper is at rest. -/
theorem Delivered.atRest {s : StripperState} {as : List (Bool × Beat)} {bs : List Beat}
    (h : Delivered s as bs) {is : List StripperIn} (hnone : moldStripper.allTaken s is = [])
    (hready : 6 ≤ is.countP StripperIn.outReady) : (moldStripper.run s is).AtRest := by
  have hok (s : StripperState) (i : StripperIn) (hs : ∃ as bs, Delivered s as bs)
      (hn : moldStripper.taken s i = []) : ∃ as bs, Delivered (moldStripper.step s i) as bs := by
    obtain ⟨as, bs, hd⟩ := hs
    exact ⟨_, _, hd.step (i := i) fun t ht => by rw [hn] at ht; cases ht⟩
  have hrank (s : StripperState) (i : StripperIn) (hs : ∃ as bs, Delivered s as bs)
      (hn : moldStripper.taken s i = []) :
      (moldStripper.step s i).rank ≤ s.rank - if i.outReady then 1 else 0 := by
    obtain ⟨as, bs, a, hc, hh, -⟩ := hs
    exact rank_step hh hn
  have hrun := StreamMachine.rank_run hok hrank ⟨as, bs, h⟩ hnone
  have hle := s.rank_le
  exact atRest_of_rank (by omega)

/-- At rest everything taken has been given. -/
theorem Delivered.of_atRest {s : StripperState} {as : List (Bool × Beat)} {bs : List Beat}
    (h : Delivered s as bs) (hrest : s.AtRest) :
    let a := (as.map fun t => (t.1, t.2.bytes)).foldl Decap.feed {}
    bs.flatMap Beat.bytes = a.out ∧ s.tel = a.tel := by
  obtain ⟨a, hc, -, habs, hout⟩ := h
  obtain ⟨hp, hv, ho⟩ := hrest
  have hempty : s.outBytes = [] := if_neg (by rw [ho]; exact Bool.false_ne_true)
  have hsame : s.absorb a = a := if_neg (by rw [hv]; exact Bool.false_ne_true)
  rw [hempty, List.append_nil] at hout
  dsimp only
  rw [← habs, hsame]
  exact ⟨hout, (Prod.mk.inj (hc.stream hp)).1.symm⟩

theorem Delivered.given_prefix {s : StripperState} {as : List (Bool × Beat)} {bs : List Beat}
    (h : Delivered s as bs) :
    bs.flatMap Beat.bytes <+: ((as.map fun t => (t.1, t.2.bytes)).foldl Decap.feed {}).out := by
  obtain ⟨a, -, -, habs, hout⟩ := h
  have hprefix : a.out <+: (s.absorb a).out := by
    unfold absorb
    split
    · exact Decap.out_prefix_feed a _
    · exact List.prefix_rfl
  rw [← habs]
  exact (List.prefix_append _ _).trans (hout ▸ hprefix)

end StripperState

/-- With all beats taken and the stripper at rest, it has given the bytes of the accepted datagrams
and its telemetry is that of the headers. -/
theorem given_of_atRest (s : StripperState) (gs : List DatagramBeats) (is : List StripperIn)
    (htaken : moldStripper.allTaken s.reset is = gs.flatMap DatagramBeats.beats)
    (hrest : (moldStripper.run s.reset is).AtRest) :
    (moldStripper.allGiven s.reset is).flatMap Beat.bytes =
        acceptedBytes {} (gs.map DatagramBeats.payload) ∧
      (moldStripper.run s.reset is).tel = telemetry {} (gs.map DatagramBeats.payload) := by
  have hgood : ∀ t ∈ moldStripper.allTaken s.reset is, t.2.Ok := fun t ht => by
    rw [htaken] at ht
    obtain ⟨g, -, hg⟩ := List.mem_flatMap.mp ht
    exact DatagramBeats.ok_of_mem hg
  have hfinal := (deliver_inv s is hgood).of_atRest hrest
  obtain ⟨htel, hout⟩ := Decap.foldl_feed_datagrams {} gs
  dsimp only at hfinal
  rw [htaken, htel, hout] at hfinal
  exact hfinal

/-- The stripper in mold mode, from reset, with any beats of any datagrams, any gaps and any
stalls. What it has given is a prefix of the payload bytes of the accepted datagrams. Once it is at
rest with all beats taken it is all of them, and the telemetry is that of the headers. It does come
to rest, after six ready cycles at most in which nothing more is taken, and then it takes the next
beat. -/
theorem stripper_delivers (s : StripperState) (gs : List DatagramBeats) (is : List StripperIn)
    (htaken : moldStripper.allTaken s.reset is <+: gs.flatMap DatagramBeats.beats) :
    let ds := gs.map DatagramBeats.payload
    let given := (moldStripper.allGiven s.reset is).flatMap Beat.bytes
    let after := moldStripper.run s.reset is
    given <+: acceptedBytes {} ds ∧
      (after.AtRest → moldStripper.allTaken s.reset is = gs.flatMap DatagramBeats.beats →
        given = acceptedBytes {} ds ∧ after.tel = telemetry {} ds) ∧
      ∀ js, moldStripper.allTaken after js = [] → 6 ≤ js.countP StripperIn.outReady →
        (moldStripper.run after js).AtRest ∧ ∀ r, (moldStripper.run after js).inReady r = true := by
  have hgood : ∀ t ∈ moldStripper.allTaken s.reset is, t.2.Ok := fun t ht => by
    obtain ⟨g, -, hg⟩ := List.mem_flatMap.mp (htaken.subset ht)
    exact DatagramBeats.ok_of_mem hg
  have hinv := deliver_inv s is hgood
  have hout := (Decap.foldl_feed_datagrams {} gs).2
  refine ⟨?_, fun hrest hall => given_of_atRest s gs is hall hrest, fun js hnone hready => ?_⟩
  · obtain ⟨more, hmore⟩ := htaken
    have hprefix := hinv.given_prefix.trans
      (Decap.out_prefix_foldl _ (more.map fun t => (t.1, t.2.bytes)))
    rwa [← List.foldl_append, ← List.map_append, hmore, hout] at hprefix
  · have hrest := hinv.atRest hnone hready
    refine ⟨hrest, fun r => ?_⟩
    rw [inReady, hrest.2.1, Bool.not_false, Bool.true_or]

/-- A header in two beats, the second with two payload bytes. -/
def twoBeats : DatagramBeats where
  first := ⟨#v[79, 66, 83, 69, 83, 83, 48, 48, 48, 49, 0, 0, 0, 0, 0, 0], 16⟩
  rest := [⟨#v[0, 7, 0, 1, 170, 187, 0, 0, 0, 0, 0, 0, 0, 0, 0, 0], 6⟩]
  first_ok := by decide
  rest_ok := by decide

/-- Some cycles with the output ready, in which each beat is offered until it is taken. -/
def offer : ℕ → StripperState → List (Bool × Beat) → List StripperIn
  | 0, _, _ => []
  | n + 1, s, [] =>
    let i : StripperIn := ⟨default, false, false, true⟩
    i :: offer n (s.step i) []
  | n + 1, s, t :: ts =>
    let i : StripperIn := ⟨t.2, true, t.1, true⟩
    i :: offer n (s.step i) (if s.inReady true then ts else t :: ts)

theorem stripper_delivers_two_beats :
    let s : StripperState := default
    let is := offer 8 s.reset twoBeats.beats
    (moldStripper.allGiven s.reset is).flatMap Beat.bytes = [170, 187] ∧
      (moldStripper.run s.reset is).tel.expected = 8 := by
  intro s is
  have htaken : moldStripper.allTaken s.reset is = twoBeats.beats := by decide
  have h := (stripper_delivers s [twoBeats] is (by rw [htaken]; simp)).2.1
    ⟨by decide, by decide, by decide⟩ (by rw [htaken]; rfl)
  exact ⟨h.1.trans (by decide), (congrArg Telemetry.expected h.2).trans (by decide)⟩

end ItchOrderbook.Rtl
