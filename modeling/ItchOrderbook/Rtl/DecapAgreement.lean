import ItchOrderbook.Parser.MoldParserSpec
import ItchOrderbook.Rtl.MoldDelivery

/-!
# The walker and the stripper

`MoldParser::walk` and `mold_stripper` decide alike on every packet up to the first end of a
session (`Together.data`). There the walker stops, while the stripper goes on with what follows.
So they end alike exactly when what follows changes nothing: every later data packet is old, or a
heartbeat with the expected number (`decap_agrees_iff`).
-/

namespace ItchOrderbook.Rtl

open StripperState MoldParser Framing

/-! ## Packets, as their headers go -/

/-- Whether a packet is not the end of a session. -/
def isData : Datagram → Bool
  | .data .. => true
  | .sessionEnd .. => false

/-- No sequence number wraps. -/
def NoWrap (ds : List Datagram) : Prop :=
  ∀ session seq blocks, Datagram.data session seq blocks ∈ ds →
    seq.toNat + blocks.bodies.length < 2 ^ 64

/-- The number the next packet should have, if one came before, and how many packets came too
late. -/
def nextNumber (e : Option UInt64 × ℕ) (d : Datagram) : Option UInt64 × ℕ :=
  match d with
  | .sessionEnd .. => e
  | .data _ seq blocks =>
    match e.1 with
    | none => (some (seq + blocks.count.toUInt64), e.2)
    | some n =>
      if seq < n then e
      else (some (seq + blocks.count.toUInt64), if n < seq then e.2 + 1 else e.2)

/-- The packets in front of the first end of a session. -/
def session (ds : List Datagram) : List Datagram := ds.takeWhile isData

/-- The packets behind it. -/
def afterSession (ds : List Datagram) : List Datagram := (ds.dropWhile isData).drop 1

/-- The number expected when the session ends, zero if no packet came. -/
def endNumber (ds : List Datagram) : UInt64 := ((session ds).foldl nextNumber (none, 0)).1.getD 0

/-- The gaps of the session. -/
def gapCount (ds : List Datagram) : ℕ := ((session ds).foldl nextNumber (none, 0)).2

/-- A packet that changes nothing where `n` is expected: an old one or a heartbeat. -/
def Idle (n : UInt64) (d : Datagram) : Prop :=
  ∀ session seq blocks, d = .data session seq blocks →
    seq < n ∨ (seq = n ∧ blocks.bodies = [])

/-! ## The stripper over packets -/

/-- One packet for the stripper: its telemetry, and the bytes given so far. -/
def stripStep (p : Telemetry × List UInt8) (d : Datagram) : Telemetry × List UInt8 :=
  match d with
  | .data _ seq blocks =>
    ((policy p.1 seq blocks.count).1,
      if (policy p.1 seq blocks.count).2 then p.2 else p.2 ++ blocks.bytes)
  | .sessionEnd .. => ({ p.1 with sessionEnd := true }, p.2)

theorem judge_header (t : Telemetry) (session : Vector UInt8 10) (seq : UInt64) (cnt : UInt16)
    (rest : List UInt8) :
    Decap.judge t ((headerBytes session seq cnt ++ rest).take 20) = policy t seq cnt := by
  have hseq := be64_seq session seq cnt []
  have hcnt := be16_count session seq cnt []
  rw [List.append_nil] at hseq hcnt
  rw [List.take_left' (headerBytes_length _ _ _), Decap.judge, hseq, hcnt]

theorem length_bytes (d : Datagram) : 20 ≤ d.bytes.length := by
  cases d <;> simp [Datagram.bytes]

/-- What is left of a packet without its header. -/
theorem drop_bytes_data (session : Vector UInt8 10) (seq : UInt64) (blocks : Blocks) :
    (Datagram.data session seq blocks).bytes.drop 20 = blocks.bytes :=
  List.drop_left' (headerBytes_length _ _ _)

/-- Over packets, the stripper's policy and output are a fold. -/
theorem strip_datagrams (t : Telemetry) (out : List UInt8) (ds : List Datagram) :
    (telemetry t (ds.map Datagram.bytes), out ++ acceptedBytes t (ds.map Datagram.bytes)) =
      ds.foldl stripStep (t, out) := by
  induction ds generalizing t out with
  | nil => exact Prod.ext rfl (List.append_nil out)
  | cons d ds ih =>
    have hlen : ¬ d.bytes.length < 20 := Nat.not_lt.mpr (length_bytes d)
    have hheaders : telemetry t (d.bytes :: ds.map Datagram.bytes) =
        telemetry (Decap.judge t (d.bytes.take 20)).1 (ds.map Datagram.bytes) := by
      have hfilter : (d.bytes :: ds.map Datagram.bytes).filter (fun d => decide (20 ≤ d.length)) =
          d.bytes :: (ds.map Datagram.bytes).filter fun d => decide (20 ≤ d.length) :=
        List.filter_cons_of_pos (decide_eq_true (length_bytes d))
      rw [telemetry, headers, hfilter]
      rfl
    have hstep : stripStep (t, out) d =
        ((Decap.judge t (d.bytes.take 20)).1,
          out ++ if (Decap.judge t (d.bytes.take 20)).2 then [] else d.bytes.drop 20) := by
      cases d with
      | data session seq blocks =>
        rw [drop_bytes_data, Datagram.bytes, judge_header, stripStep]
        dsimp only
        split <;> simp
      | sessionEnd session seq trailer =>
        rw [Datagram.bytes, judge_header, policy]
        simp [stripStep, endCount]
    rw [List.map_cons, List.foldl_cons, hstep, ← ih, hheaders, acceptedBytes, if_neg hlen,
      List.append_assoc]

/-! ## Up to the end of the session -/

/-- The walker and the stripper before the end of the session. -/
structure Together (p : MoldStats × List (List UInt8)) (q : Telemetry × List UInt8)
    (e : Option UInt64 × ℕ) : Prop where
  running : p.1.sessionEnd = false ∧ q.1.sessionEnd = false
  init : p.1.seqInit = e.1.isSome ∧ q.1.seqInit = e.1.isSome
  next : p.1.nextSeq = e.1.getD 0 ∧ q.1.expected = e.1.getD 0
  events : p.1.gapEvents = UInt64.ofNat e.2 ∧ q.1.gapEvents = UInt32.ofNat e.2
  msgs : q.1.gapMsgs = p.1.gapMsgs
  out : q.2 = p.2.flatMap frame

section Policy

variable {t : Telemetry} {seq n : UInt64} {cnt : UInt16}

theorem policy_first (hcnt : cnt ≠ 0xFFFF) (hinit : t.seqInit = false) :
    policy t seq cnt =
      ({ t with seqInit := true, expected := seq + cnt.toUInt64 }, false) := by
  rw [policy, if_neg hcnt, hinit]
  rfl

theorem policy_stale (hcnt : cnt ≠ 0xFFFF) (hinit : t.seqInit = true) (hlt : seq < t.expected) :
    policy t seq cnt = (t, true) := by
  have hne : seq ≠ t.expected := fun heq => UInt64.lt_irrefl seq (by rwa [← heq] at hlt)
  have hnot : ¬ t.expected < seq := UInt64.lt_asymm hlt
  simp [policy, hcnt, hinit, hne, hnot]

theorem policy_next (hcnt : cnt ≠ 0xFFFF) (hinit : t.seqInit = true) (heq : seq = t.expected) :
    policy t seq cnt = ({ t with expected := seq + cnt.toUInt64 }, false) := by
  simp [policy, hcnt, hinit, heq]

theorem policy_gap (hcnt : cnt ≠ 0xFFFF) (hinit : t.seqInit = true) (hgt : t.expected < seq) :
    policy t seq cnt =
      ({ t with
        gapEvents := t.gapEvents + 1
        gapMsgs := t.gapMsgs + (seq - t.expected)
        expected := seq + cnt.toUInt64 }, false) := by
  have hne : seq ≠ t.expected := fun heq => UInt64.lt_irrefl seq (by rwa [← heq] at hgt)
  simp [policy, hcnt, hinit, hne, hgt]

end Policy

/-- A data packet: both drop it, or both pass it on with the same accounting. -/
theorem Together.data {p : MoldStats × List (List UInt8)} {q : Telemetry × List UInt8}
    {e : Option UInt64 × ℕ} (h : Together p q e) (d : Datagram) (hd : isData d = true) :
    Together (walkStep p d) (stripStep q d) (nextNumber e d) := by
  cases d with
  | sessionEnd => cases hd
  | data session seq blocks =>
    obtain ⟨p1, p2⟩ := p
    obtain ⟨q1, q2⟩ := q
    obtain ⟨e1, e2⟩ := e
    obtain ⟨⟨hrun, hrun'⟩, ⟨hinit, hinit'⟩, ⟨hnext, hnext'⟩, ⟨hev, hev'⟩, hmsgs, hout⟩ := h
    dsimp only at *
    have hcnt : blocks.count ≠ 0xFFFF := blocks.count_ne_end
    have hpass : q2 ++ blocks.bytes = (p2 ++ blocks.bodies).flatMap frame := by
      rw [List.flatMap_append, hout, Blocks.bytes]
    have hwalk : walkStep (p1, p2) (.data session seq blocks) =
        (afterData p1 seq blocks.count, if isStale p1 seq then p2 else p2 ++ blocks.bodies) :=
      if_neg (by rw [hrun]; exact Bool.false_ne_true)
    have hstrip : stripStep (q1, q2) (.data session seq blocks) =
        ((policy q1 seq blocks.count).1,
          if (policy q1 seq blocks.count).2 then q2 else q2 ++ blocks.bytes) := rfl
    rw [hwalk, hstrip]
    cases e1 with
    | none =>
      -- the first packet seeds the number
      have hstale : isStale p1 seq = false := by rw [isStale, hinit]; rfl
      have hjump : jumpsAhead p1 seq = false := by rw [jumpsAhead, hinit]; rfl
      rw [hstale, afterData_of_fresh hstale, hjump, policy_first hcnt hinit']
      exact ⟨⟨hrun, hrun'⟩, ⟨rfl, rfl⟩, ⟨rfl, rfl⟩, ⟨hev, hev'⟩, hmsgs, hpass⟩
    | some n =>
      rw [Option.isSome_some] at hinit hinit'
      rw [Option.getD_some] at hnext hnext'
      have hstale : isStale p1 seq = decide (seq < n) := by rw [isStale, hinit, hnext]; rfl
      have hjump : jumpsAhead p1 seq = decide (n < seq) := by rw [jumpsAhead, hinit, hnext]; rfl
      rw [nextNumber]
      dsimp only
      rcases UInt64.lt_or_le seq n with hlt | hge
      · -- both drop it
        rw [decide_eq_true hlt] at hstale
        rw [if_pos hlt, hstale, afterData_of_stale hstale,
          policy_stale hcnt hinit' (by rwa [hnext'])]
        exact ⟨⟨hrun, hrun'⟩, ⟨hinit, hinit'⟩, ⟨hnext, hnext'⟩, ⟨hev, hev'⟩, hmsgs, hout⟩
      · have hlt : ¬ seq < n := UInt64.not_lt.mpr hge
        rw [decide_eq_false hlt] at hstale
        rw [if_neg hlt, hstale, afterData_of_fresh hstale, hjump]
        rcases UInt64.lt_or_le n seq with hgt | hle
        · rw [policy_gap hcnt hinit' (by rwa [hnext']), decide_eq_true hgt, if_pos hgt]
          refine ⟨⟨hrun, hrun'⟩, ⟨rfl, hinit'⟩, ⟨rfl, rfl⟩, ⟨?_, ?_⟩, ?_, hpass⟩
          · show p1.gapEvents + 1 = _
            rw [hev, UInt64.ofNat_add]
            rfl
          · show q1.gapEvents + 1 = _
            rw [hev', UInt32.ofNat_add]
            rfl
          · show q1.gapMsgs + (seq - q1.expected) = p1.gapMsgs + (seq - p1.nextSeq)
            rw [hmsgs, hnext, hnext']
        · have hgt : ¬ n < seq := UInt64.not_lt.mpr hle
          rw [policy_next hcnt hinit' ((UInt64.le_antisymm hle hge).trans hnext'.symm),
            decide_eq_false hgt, if_neg hgt]
          exact ⟨⟨hrun, hrun'⟩, ⟨rfl, hinit'⟩, ⟨rfl, rfl⟩, ⟨hev, hev'⟩, hmsgs, hpass⟩

/-- Data packets only. -/
theorem Together.session {p : MoldStats × List (List UInt8)} {q : Telemetry × List UInt8}
    {e : Option UInt64 × ℕ} (h : Together p q e) {ds : List Datagram}
    (hds : ∀ d ∈ ds, isData d = true) :
    Together (ds.foldl walkStep p) (ds.foldl stripStep q) (ds.foldl nextNumber e) := by
  induction ds generalizing p q e with
  | nil => exact h
  | cons d ds ih =>
    exact ih (h.data d (hds d List.mem_cons_self)) fun d' hd' => hds d' (List.mem_cons_of_mem _ hd')

theorem together_start : Together ({}, []) ({}, []) (none, 0) :=
  ⟨⟨rfl, rfl⟩, ⟨rfl, rfl⟩, ⟨rfl, rfl⟩, ⟨rfl, rfl⟩, rfl, rfl⟩

/-! ## Behind the end of the session -/

/-- A stripper that has seen no packet yet expects the number zero. -/
def Seeded (t : Telemetry) : Prop := t.seqInit = false → t.expected = 0

/-- An idle packet leaves the output and the accounting. -/
theorem stripStep_idle {q : Telemetry × List UInt8} {d : Datagram} (hs : Seeded q.1)
    (hd : Idle q.1.expected d) :
    (stripStep q d).2 = q.2 ∧ (stripStep q d).1.expected = q.1.expected ∧
      (stripStep q d).1.gapEvents = q.1.gapEvents ∧ (stripStep q d).1.gapMsgs = q.1.gapMsgs ∧
      Seeded (stripStep q d).1 := by
  cases d with
  | sessionEnd => exact ⟨rfl, rfl, rfl, rfl, hs⟩
  | data session seq blocks =>
    have hcnt : blocks.count ≠ 0xFFFF := blocks.count_ne_end
    rw [stripStep]
    rcases hd session seq blocks rfl with hlt | ⟨heq, hnil⟩
    · have hinit : q.1.seqInit = true := by
        by_contra hne
        rw [hs (Bool.not_eq_true _ ▸ hne)] at hlt
        exact UInt64.not_lt_zero hlt
      rw [policy_stale hcnt hinit hlt]
      exact ⟨rfl, rfl, rfl, rfl, hs⟩
    · have hnum : seq + blocks.count.toUInt64 = q.1.expected := by
        rw [Blocks.count, hnil, heq]
        exact UInt64.add_zero _
      have hbytes : q.2 ++ blocks.bytes = q.2 := by
        rw [Blocks.bytes, hnil, List.flatMap_nil, List.append_nil]
      cases hinit : q.1.seqInit with
      | false =>
        rw [policy_first hcnt hinit]
        exact ⟨hbytes, hnum, rfl, rfl, fun h => by cases h⟩
      | true =>
        rw [policy_next hcnt hinit heq]
        exact ⟨hbytes, hnum, rfl, rfl, fun h => absurd (hinit.symm.trans h) (by decide)⟩

/-- A packet never takes output back, nor the expected number; and where it leaves both, it was
idle. -/
theorem stripStep_mono {q : Telemetry × List UInt8} {d : Datagram} (hs : Seeded q.1)
    (hwrap : NoWrap [d]) :
    q.2 <+: (stripStep q d).2 ∧ q.1.expected ≤ (stripStep q d).1.expected ∧
      ((stripStep q d).2 = q.2 → (stripStep q d).1.expected = q.1.expected →
        Idle q.1.expected d) := by
  cases d with
  | sessionEnd =>
    exact ⟨List.prefix_rfl, UInt64.le_refl _, fun _ _ _ _ _ h => by cases h⟩
  | data session seq blocks =>
    have hcnt : blocks.count ≠ 0xFFFF := blocks.count_ne_end
    have hno := hwrap session seq blocks List.mem_cons_self
    have hsum : (seq + blocks.count.toUInt64).toNat = seq.toNat + blocks.bodies.length := by
      rw [UInt64.toNat_add, UInt16.toNat_toUInt64, blocks.count_toNat]
      exact Nat.mod_eq_of_lt hno
    -- what an accepted packet does
    have haccept (hge : q.1.expected ≤ seq)
        (h2 : (stripStep q (.data session seq blocks)).2 = q.2 ++ blocks.bytes)
        (he : (stripStep q (.data session seq blocks)).1.expected =
          seq + blocks.count.toUInt64) :
        q.2 <+: (stripStep q (.data session seq blocks)).2 ∧
          q.1.expected ≤ (stripStep q (.data session seq blocks)).1.expected ∧
          ((stripStep q (.data session seq blocks)).2 = q.2 →
            (stripStep q (.data session seq blocks)).1.expected = q.1.expected →
            Idle q.1.expected (.data session seq blocks)) := by
      rw [h2, he]
      have hge' := UInt64.le_iff_toNat_le.mp hge
      refine ⟨List.prefix_append _ _, UInt64.le_iff_toNat_le.mpr (by omega), fun _ heq => ?_⟩
      intro session' seq' blocks' h
      cases h
      have hnat := congrArg UInt64.toNat heq
      rw [hsum] at hnat
      exact Or.inr ⟨UInt64.toNat_inj.mp (by omega), List.length_eq_zero_iff.mp (by omega)⟩
    cases hinit : q.1.seqInit with
    | false =>
      apply haccept
      · rw [hs hinit]
        exact UInt64.zero_le
      · rw [stripStep, policy_first hcnt hinit]
        rfl
      · rw [stripStep, policy_first hcnt hinit]
    | true =>
      rcases UInt64.lt_or_le seq q.1.expected with hlt | hge
      · rw [stripStep, policy_stale hcnt hinit hlt]
        refine ⟨List.prefix_rfl, UInt64.le_refl _, fun _ _ => ?_⟩
        intro session' seq' blocks' h
        cases h
        exact Or.inl hlt
      · rcases UInt64.lt_or_eq_of_le hge with hgt | heq
        · apply haccept hge
          · rw [stripStep, policy_gap hcnt hinit hgt]
            rfl
          · rw [stripStep, policy_gap hcnt hinit hgt]
        · apply haccept hge
          · rw [stripStep, policy_next hcnt hinit heq.symm]
            rfl
          · rw [stripStep, policy_next hcnt hinit heq.symm]

theorem seeded_stripStep {q : Telemetry × List UInt8} (hs : Seeded q.1) (d : Datagram) :
    Seeded (stripStep q d).1 := by
  cases d with
  | sessionEnd => exact hs
  | data session seq blocks =>
    rw [stripStep, policy]
    repeat' split
    all_goals first
      | exact hs
      | exact fun h => absurd h (by simp_all)

theorem NoWrap.of_subset {ds ds' : List Datagram} (h : NoWrap ds) (hsub : ∀ d ∈ ds', d ∈ ds) :
    NoWrap ds' :=
  fun session seq blocks hmem => h session seq blocks (hsub _ hmem)

/-- Idle packets leave everything but the end flag. -/
theorem foldl_stripStep_idle {q : Telemetry × List UInt8} (hs : Seeded q.1) {ds : List Datagram}
    (hidle : ∀ d ∈ ds, Idle q.1.expected d) :
    (ds.foldl stripStep q).2 = q.2 ∧ (ds.foldl stripStep q).1.expected = q.1.expected ∧
      (ds.foldl stripStep q).1.gapEvents = q.1.gapEvents ∧
      (ds.foldl stripStep q).1.gapMsgs = q.1.gapMsgs := by
  induction ds generalizing q with
  | nil => exact ⟨rfl, rfl, rfl, rfl⟩
  | cons d ds ih =>
    obtain ⟨hout, hnext, hevents, hmsgs, hseeded⟩ := stripStep_idle hs (hidle d List.mem_cons_self)
    have hrest := ih hseeded fun d' hd' => by
      rw [hnext]
      exact hidle d' (List.mem_cons_of_mem _ hd')
    rwa [hout, hnext, hevents, hmsgs] at hrest

theorem foldl_stripStep_mono {q : Telemetry × List UInt8} (hs : Seeded q.1) {ds : List Datagram}
    (hwrap : NoWrap ds) :
    q.2 <+: (ds.foldl stripStep q).2 ∧ q.1.expected ≤ (ds.foldl stripStep q).1.expected := by
  induction ds generalizing q with
  | nil => exact ⟨List.prefix_rfl, UInt64.le_refl _⟩
  | cons d ds ih =>
    have hone := stripStep_mono hs (hwrap.of_subset (by simp) : NoWrap [d])
    have hrest := ih (seeded_stripStep hs d)
      (hwrap.of_subset fun d' hd' => List.mem_cons_of_mem _ hd')
    exact ⟨hone.1.trans hrest.1, UInt64.le_trans hone.2.1 hrest.2⟩

/-- Packets behind the end leave output and number only if all are idle. -/
theorem idle_of_foldl_stripStep {q : Telemetry × List UInt8} (hs : Seeded q.1)
    {ds : List Datagram} (hwrap : NoWrap ds) (hout : (ds.foldl stripStep q).2 = q.2)
    (hnext : (ds.foldl stripStep q).1.expected = q.1.expected) :
    ∀ d ∈ ds, Idle q.1.expected d := by
  induction ds generalizing q with
  | nil => exact fun d hd => by cases hd
  | cons d ds ih =>
    rw [List.foldl_cons] at hout hnext
    have hwrap' := hwrap.of_subset fun d' hd' => List.mem_cons_of_mem d hd'
    have hone := stripStep_mono hs (hwrap.of_subset (by simp) : NoWrap [d])
    have hrest := foldl_stripStep_mono (seeded_stripStep hs d) hwrap'
    -- nothing can be taken back later, so the first packet left both alone too
    have hout1 : (stripStep q d).2 = q.2 := by
      have hle := hrest.1.length_le
      rw [hout] at hle
      exact (hone.1.eq_of_length (Nat.le_antisymm hone.1.length_le hle)).symm
    have hnext1 : (stripStep q d).1.expected = q.1.expected :=
      UInt64.le_antisymm (hnext ▸ hrest.2) hone.2.1
    have hidle := ih (seeded_stripStep hs d) hwrap' (hout.trans hout1.symm)
      (hnext.trans hnext1.symm)
    rw [hnext1] at hidle
    intro d' hd'
    rcases List.mem_cons.mp hd' with rfl | hd'
    · exact hone.2.2 hout1 hnext1
    · exact hidle d' hd'

/-- The end flag stays. -/
theorem sessionEnd_foldl {q : Telemetry × List UInt8} (h : q.1.sessionEnd = true)
    (ds : List Datagram) : (ds.foldl stripStep q).1.sessionEnd = true := by
  induction ds generalizing q with
  | nil => exact h
  | cons d ds ih =>
    apply ih
    cases d with
    | sessionEnd => rfl
    | data session seq blocks =>
      rw [stripStep, policy]
      repeat' split
      all_goals first
        | exact h
        | rfl

/-! ## Agreement -/

/-- The walker's statistics and bytes, and the stripper's telemetry and bytes, say the same. -/
structure SameDecap (st : MoldStats) (bytes : List UInt8) (t : Telemetry) (given : List UInt8) :
    Prop where
  bytes : given = bytes
  nextSeq : t.expected = st.nextSeq
  gapEvents : t.gapEvents.toNat = st.gapEvents.toNat
  gapMsgs : t.gapMsgs = st.gapMsgs
  sessionEnd : t.sessionEnd = st.sessionEnd

theorem sameCount_iff (g : ℕ) :
    (UInt32.ofNat g).toNat = (UInt64.ofNat g).toNat ↔ g % 2 ^ 64 < 2 ^ 32 := by
  rw [UInt32.toNat_ofNat', UInt64.toNat_ofNat']
  omega

/-- The two decaps as folds over the packets. -/
theorem sameDecap_fold_iff (ds : List Datagram) (hwrap : NoWrap ds) :
    SameDecap (walkPackets ds).1 ((walkPackets ds).2.flatMap frame) (ds.foldl stripStep ({}, [])).1
        (ds.foldl stripStep ({}, [])).2 ↔
      (∀ d ∈ afterSession ds, Idle (endNumber ds) d) ∧ gapCount ds % 2 ^ 64 < 2 ^ 32 := by
  have hdata : ∀ d ∈ session ds, isData d = true := fun d hd => List.mem_takeWhile_imp hd
  have htog := together_start.session hdata
  have hsplit : session ds ++ ds.dropWhile isData = ds := List.takeWhile_append_dropWhile
  rw [← sameCount_iff]
  set p := (session ds).foldl walkStep ({}, []) with hp
  set q := (session ds).foldl stripStep ({}, []) with hq
  have hwalk : walkPackets ds = (ds.dropWhile isData).foldl walkStep p := by
    rw [hp, ← List.foldl_append, hsplit, walkPackets]
  have hstrip : ds.foldl stripStep ({}, []) = (ds.dropWhile isData).foldl stripStep q := by
    rw [hq, ← List.foldl_append, hsplit]
  have hend : q.1.expected = endNumber ds := htog.next.2
  have hseeded : Seeded q.1 := fun hinit => by
    have hnone : ((session ds).foldl nextNumber (none, 0)).1 = none := by
      rw [← Option.not_isSome_iff_eq_none, ← htog.init.2, hinit]
      exact Bool.false_ne_true
    rw [hend, endNumber, hnone]
    rfl
  have hevents : q.1.gapEvents = UInt32.ofNat (gapCount ds) := htog.events.2
  have hevents' : p.1.gapEvents = UInt64.ofNat (gapCount ds) := htog.events.1
  rw [hwalk, hstrip, afterSession]
  cases hrest : ds.dropWhile isData with
  | nil =>
    -- no end of session
    constructor
    · intro h
      refine ⟨fun d hd => absurd hd List.not_mem_nil, ?_⟩
      rw [← hevents, ← hevents']
      exact h.gapEvents
    · rintro ⟨-, hcount⟩
      exact ⟨htog.out, htog.next.2.trans htog.next.1.symm, by
        rw [List.foldl_nil, List.foldl_nil, hevents, hevents', hcount], htog.msgs,
        htog.running.2.trans htog.running.1.symm⟩
  | cons d post =>
    have hd : isData d = false := by
      have h := List.head?_dropWhile_not isData ds
      rw [hrest, List.head?_cons] at h
      simpa using h
    cases d with
    | data => cases hd
    | sessionEnd session' seq trailer =>
      have hstop : walkStep p (.sessionEnd session' seq trailer) =
          ({ p.1 with packets := p.1.packets + 1, sessionEnd := true }, p.2) :=
        if_neg (by rw [htog.running.1]; exact Bool.false_ne_true)
      have hflag : stripStep q (.sessionEnd session' seq trailer) =
          ({ q.1 with sessionEnd := true }, q.2) := rfl
      have hwrap' : NoWrap post := hwrap.of_subset fun d hd => by
        rw [← hsplit, hrest]
        exact List.mem_append_right _ (List.mem_cons_of_mem _ hd)
      rw [List.foldl_cons, List.foldl_cons, hstop, foldl_walkStep_ended (by rfl), hflag,
        List.drop_succ_cons, List.drop_zero]
      have hs' : Seeded ({ q.1 with sessionEnd := true }, q.2).1 := hseeded
      constructor
      · intro h
        have hidle := idle_of_foldl_stripStep hs' hwrap' (h.bytes.trans htog.out.symm)
          (h.nextSeq.trans (htog.next.1.trans htog.next.2.symm))
        have hkeep := foldl_stripStep_idle hs' hidle
        refine ⟨hend ▸ hidle, ?_⟩
        rw [← hevents, ← hevents']
        exact (congrArg UInt32.toNat hkeep.2.2.1).symm.trans h.gapEvents
      · rintro ⟨hidle, hcount⟩
        have hkeep := foldl_stripStep_idle hs' (hend ▸ hidle)
        refine ⟨hkeep.1.trans htog.out, hkeep.2.1.trans (htog.next.2.trans htog.next.1.symm), ?_,
          hkeep.2.2.2.trans htog.msgs, sessionEnd_foldl rfl post⟩
        rw [hkeep.2.2.1]
        show q.1.gapEvents.toNat = p.1.gapEvents.toNat
        rw [hevents, hevents', hcount]

/-- The walker over concatenated packets and the stripper over the same packets, in any beats and
with any stalls, end alike exactly when every data packet behind the first end of the session is
old or a heartbeat with the number expected there, and the session has fewer gaps than the
stripper's 32-bit counter can tell. -/
theorem decap_agrees_iff (ds : List Datagram) (hwrap : NoWrap ds) (s : StripperState)
    (gs : List DatagramBeats) (is : List StripperIn)
    (hbeats : gs.map DatagramBeats.payload = ds.map Datagram.bytes)
    (htaken : moldStripper.allTaken s.reset is = gs.flatMap DatagramBeats.beats)
    (hrest : (moldStripper.run s.reset is).AtRest) :
    SameDecap (decap (ds.flatMap Datagram.bytes)).1 (decap (ds.flatMap Datagram.bytes)).2
        (moldStripper.run s.reset is).tel
        ((moldStripper.allGiven s.reset is).flatMap Beat.bytes) ↔
      (∀ d ∈ afterSession ds, Idle (endNumber ds) d) ∧ gapCount ds % 2 ^ 64 < 2 ^ 32 := by
  obtain ⟨hgiven, htel⟩ := given_of_atRest s gs is htaken hrest
  have hfold := strip_datagrams {} [] ds
  rw [List.nil_append] at hfold
  rw [← sameDecap_fold_iff ds hwrap, decap_datagrams, hgiven, htel, hbeats, ← hfold]

/-! ## Packets behind the end -/

def sessionName : Vector UInt8 10 := #v[79, 66, 83, 69, 83, 83, 48, 48, 48, 49]

/-- A packet with one message of one byte. -/
def oneMessage (seq : UInt64) : Datagram :=
  .data sessionName seq ⟨[[83]], by decide, by decide, by decide⟩

/-- The end of the session behind a packet with number 1, and one more packet. -/
def packetAfterEnd (seq : UInt64) : List Datagram :=
  [oneMessage 1, .sessionEnd sessionName 2 [], oneMessage seq]

/-- A header with a small sequence number in a full beat and another one, which holds `payload`. -/
def beatsOf (seq : UInt8) (cnt : UInt16) (payload : Vector UInt8 12) (n : BitVec 5)
    (h : n.toNat ≤ 12) : DatagramBeats where
  first := twoBeats.first
  rest := [⟨#v[0, seq, (cnt >>> 8).toUInt8, cnt.toUInt8] ++ payload, n + 4⟩]
  first_ok := twoBeats.first_ok
  rest_ok b hb := by
    obtain rfl := List.mem_singleton.mp hb
    have hsum : (n + 4).toNat = n.toNat + 4 := by
      rw [BitVec.toNat_add]
      exact Nat.mod_eq_of_lt (by show n.toNat + 4 < 32; omega)
    constructor
    · show 1 ≤ (n + 4).toNat
      omega
    · show (n + 4).toNat ≤ 16
      omega

def beatsAfterEnd (seq : UInt8) : List DatagramBeats :=
  let oneMessage (seq : UInt8) := beatsOf seq 1 #v[0, 1, 83, 0, 0, 0, 0, 0, 0, 0, 0, 0] 3 (by decide)
  [oneMessage 1, beatsOf 2 0xFFFF (Vector.replicate 12 0) 0 (by decide), oneMessage seq]

/-- The cycles that carry them. -/
def offerAfterEnd (seq : UInt8) : List StripperIn :=
  offer 13 (default : StripperState).reset ((beatsAfterEnd seq).flatMap DatagramBeats.beats)

theorem noWrap_packetAfterEnd {seq : UInt64} (h : seq.toNat < 100) :
    NoWrap (packetAfterEnd seq) := by
  intro session' seq' blocks hmem
  simp only [packetAfterEnd, oneMessage, List.mem_cons, List.not_mem_nil, or_false, reduceCtorEq,
    false_or, Datagram.data.injEq] at hmem
  rcases hmem with ⟨-, rfl, rfl⟩ | ⟨-, rfl, rfl⟩
  · decide
  · show seq'.toNat + 1 < 2 ^ 64
    omega

/-- Behind the end an old packet changes nothing. -/
theorem decap_agrees_old_after_end :
    let after := moldStripper.run (default : StripperState).reset (offerAfterEnd 1)
    after.tel.expected = 2 ∧
      SameDecap (decap ((packetAfterEnd 1).flatMap Datagram.bytes)).1
        (decap ((packetAfterEnd 1).flatMap Datagram.bytes)).2 after.tel
        ((moldStripper.allGiven (default : StripperState).reset (offerAfterEnd 1)).flatMap
          Beat.bytes) := by
  refine ⟨by decide, (decap_agrees_iff (packetAfterEnd 1) (noWrap_packetAfterEnd (by decide)) default
    (beatsAfterEnd 1) (offerAfterEnd 1) (by decide) (by decide)
    ⟨by decide, by decide, by decide⟩).mpr ⟨?_, by decide⟩⟩
  intro d hd session' seq' blocks h
  obtain rfl := List.mem_singleton.mp hd
  cases h
  exact Or.inl (by decide)

/-- Behind the end the stripper forwards the next packet, the walker does not. -/
theorem decap_differs_after_end :
    ¬ ∀ (ds : List Datagram) (_ : NoWrap ds) (s : StripperState) (gs : List DatagramBeats)
      (is : List StripperIn), gs.map DatagramBeats.payload = ds.map Datagram.bytes →
      moldStripper.allTaken s.reset is = gs.flatMap DatagramBeats.beats →
      (moldStripper.run s.reset is).AtRest →
      SameDecap (decap (ds.flatMap Datagram.bytes)).1 (decap (ds.flatMap Datagram.bytes)).2
        (moldStripper.run s.reset is).tel
        ((moldStripper.allGiven s.reset is).flatMap Beat.bytes) := by
  intro h
  have hbytes := (h (packetAfterEnd 2) (noWrap_packetAfterEnd (by decide)) default (beatsAfterEnd 2)
    (offerAfterEnd 2) (by decide) (by decide) ⟨by decide, by decide, by decide⟩).bytes
  have hgiven : (moldStripper.allGiven (default : StripperState).reset (offerAfterEnd 2)).flatMap
      Beat.bytes = [0, 1, 83, 0, 1, 83] := by decide
  have hwalk : (walkPackets (packetAfterEnd 2)).2.flatMap frame = [0, 1, 83] := rfl
  rw [decap_datagrams, hgiven, hwalk] at hbytes
  exact absurd hbytes (by decide)

end ItchOrderbook.Rtl
