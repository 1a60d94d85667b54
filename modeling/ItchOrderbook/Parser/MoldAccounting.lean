import ItchOrderbook.Parser.MoldParserSpec

/-!
# The walker on any input

Every input of the walker is complete packets and then something that stops it: fewer bytes than a
header, the end of the session, or a packet that breaks off. Only the last counts as truncated
(`truncated_iff`). Over the packets that are complete, the policy applies no sequence number twice
and accounts for every one (`walk_accounting`).
-/

namespace ItchOrderbook

open BigEndian Framing

/-- A complete packet of blocks. -/
structure Packet where
  session : Vector UInt8 10
  seq : UInt64
  blocks : Blocks

namespace Packet

/-- The bytes of a packet. -/
def bytes (p : Packet) : List UInt8 := (Datagram.data p.session p.seq p.blocks).bytes

/-- The first sequence number behind a packet. -/
def next (p : Packet) : ℕ := p.seq.toNat + p.blocks.bodies.length

/-- The blocks of a packet with their sequence numbers. -/
def numbered (p : Packet) : List (ℕ × List UInt8) :=
  p.blocks.bodies.zipIdx.map fun b => (p.seq.toNat + b.2, b.1)

end Packet

namespace MoldParser

variable {σ : Type*} (blockFn : σ → List UInt8 → σ)

/-! ## Where the input stops -/

/-- The header that ends a session, with whatever follows. -/
def EndsSession (bs : List UInt8) : Prop :=
  ∃ session seq trailer, bs = (Datagram.sessionEnd session seq trailer).bytes

/-- The input is complete packets, up to the header that ends the session if there is one. -/
def Whole (data : List UInt8) : Prop :=
  ∃ (ps : List Packet) (tail : List UInt8), data = ps.flatMap Packet.bytes ++ tail ∧
    (tail = [] ∨ EndsSession tail)

/-- Behind its complete packets the input breaks off in a header. -/
def EndsInHeader (data : List UInt8) : Prop :=
  ∃ (ps : List Packet) (tail : List UInt8), data = ps.flatMap Packet.bytes ++ tail ∧
    0 < tail.length ∧ tail.length < hdrBytes

/-- The input without its packets: a walk stops here without a packet that breaks off. -/
def Stops (tail : List UInt8) : Prop := tail.length < hdrBytes ∨ EndsSession tail

theorem toBytes_be16 {bs : List UInt8} (h : 2 ≤ bs.length) :
    toBytes 2 (be16 bs).toNat = bs.take 2 := by
  have hlen : (bs.take 2).length = 2 := List.length_take_of_le h
  have hval : (be16 bs).toNat = ofBytes (bs.take 2) := be16_toNat h
  have hbytes := toBytes_ofBytes (bs.take 2)
  rw [hlen] at hbytes
  rw [hval, hbytes]

theorem toBytes_be64 {bs : List UInt8} (h : 8 ≤ bs.length) :
    toBytes 8 (be64 bs).toNat = bs.take 8 := by
  have hlen : (bs.take 8).length = 8 := List.length_take_of_le h
  have hlt : ofBytes (bs.take 8) < 2 ^ 64 := by
    have := ofBytes_lt (bs.take 8)
    rw [hlen] at this
    omega
  have hval : be64 bs = UInt64.ofNat (ofBytes (bs.take 8)) := by
    have happend := be64_append hlen (bs.drop 8)
    rwa [List.take_append_drop] at happend
  rw [hval, UInt64.toNat_ofNat_of_lt' hlt]
  have hbytes := toBytes_ofBytes (bs.take 8)
  rwa [hlen] at hbytes

/-- Any 20 bytes are a header. -/
theorem exists_header {data : List UInt8} (h : hdrBytes ≤ data.length) :
    ∃ session, data =
      headerBytes session (be64 (data.drop 10)) (be16 (data.drop 18)) ++ data.drop hdrBytes := by
  have h20 : 20 ≤ data.length := h
  have hsize : (data.take 10).toArray.size = 10 := by
    show (data.take 10).length = 10
    exact List.length_take_of_le (by omega)
  have hseq : toBytes 8 (be64 (data.drop 10)).toNat = (data.drop 10).take 8 :=
    toBytes_be64 (by rw [List.length_drop]; omega)
  have hcnt : toBytes 2 (be16 (data.drop 18)).toNat = (data.drop 18).take 2 :=
    toBytes_be16 (by rw [List.length_drop]; omega)
  refine ⟨⟨(data.take 10).toArray, hsize⟩, ?_⟩
  show data = data.take 10 ++ (toBytes 8 _ ++ toBytes 2 _) ++ data.drop 20
  rw [hseq, hcnt]
  have hcut (k m : ℕ) : data.drop k = (data.drop k).take m ++ data.drop (k + m) := by
    rw [← List.drop_drop, List.take_append_drop]
  calc data = data.take 10 ++ data.drop 10 := (List.take_append_drop 10 data).symm
    _ = data.take 10 ++ ((data.drop 10).take 8 ++ data.drop 18) :=
      congrArg (data.take 10 ++ ·) (hcut 10 8)
    _ = data.take 10 ++ ((data.drop 10).take 8 ++ ((data.drop 18).take 2 ++ data.drop 20)) :=
      congrArg (fun r => data.take 10 ++ ((data.drop 10).take 8 ++ r)) (hcut 18 2)
    _ = _ := by simp only [List.append_assoc]

/-- A block loop that ends has read complete blocks. -/
theorem exists_bodies {stale : Bool} {n : ℕ} {data rest : List UInt8} {st : MoldStats} {s : σ}
    (h : (walkBlocks blockFn stale n data st s).1 = some rest) :
    ∃ bodies : List (List UInt8), bodies.length = n ∧ (∀ b ∈ bodies, b ≠ []) ∧
      (∀ b ∈ bodies, b.length < 65536) ∧ data = bodies.flatMap frame ++ rest := by
  induction n generalizing data st s with
  | zero =>
    obtain rfl : data = rest := Option.some.inj h
    exact ⟨[], rfl, fun b hb => absurd hb List.not_mem_nil, fun b hb => absurd hb List.not_mem_nil,
      rfl⟩
  | succ n ih =>
    rw [walkBlocks] at h
    dsimp only at h
    split at h
    · cases h
    · rename_i h2
      split at h
      · cases h
      · rename_i hblen
        -- the block in front, and the ones the loop goes on with
        have hfront : data = frame ((data.drop 2).take (be16 data).toNat) ++
            data.drop (2 + (be16 data).toNat) := by
          have hlen : ((data.drop 2).take (be16 data).toNat).length = (be16 data).toNat :=
            List.length_take_of_le (by rw [List.length_drop]; omega)
          rw [frame, hlen, toBytes_be16 (by omega), List.append_assoc, ← List.drop_drop,
            List.take_append_drop, List.take_append_drop]
        have hrest : ∃ bodies : List (List UInt8), bodies.length = n ∧ (∀ b ∈ bodies, b ≠ []) ∧
            (∀ b ∈ bodies, b.length < 65536) ∧
            data.drop (2 + (be16 data).toNat) = bodies.flatMap frame ++ rest := by
          split at h
          · exact ih h
          · exact ih h
        obtain ⟨bodies, hn, hne, hshort, hdata⟩ := hrest
        have hbody : ((data.drop 2).take (be16 data).toNat).length = (be16 data).toNat :=
          List.length_take_of_le (by rw [List.length_drop]; omega)
        refine ⟨(data.drop 2).take (be16 data).toNat :: bodies, by rw [List.length_cons, hn],
          List.forall_mem_cons.2 ⟨fun hnil => ?_, hne⟩,
          List.forall_mem_cons.2 ⟨?_, hshort⟩, ?_⟩
        · rw [hnil] at hbody
          exact hblen (.inl hbody.symm)
        · rw [hbody]
          exact (be16 data).toNat_lt
        · rw [List.flatMap_cons, List.append_assoc, ← hdata]
          exact hfront

/-! ## Truncation -/

@[simp] theorem truncated_openPacket (st : MoldStats) (seq : UInt64) :
    (openPacket st seq).truncated = st.truncated := by
  unfold openPacket
  split <;> rfl

@[simp] theorem truncated_afterData (st : MoldStats) (seq : UInt64) (n : UInt16) :
    (afterData st seq n).truncated = st.truncated := by
  cases h : isStale st seq with
  | true => rw [afterData_of_stale h]
  | false => rw [afterData_of_fresh h]

/-- The early return of the block loop reports the truncation. -/
theorem truncated_of_walkBlocks {stale : Bool} {n : ℕ} {data : List UInt8} {st : MoldStats} {s : σ}
    (h : (walkBlocks blockFn stale n data st s).1 = none) :
    (walkBlocks blockFn stale n data st s).2.1.truncated = true := by
  induction n generalizing data st s with
  | zero => cases h
  | succ n ih =>
    rw [walkBlocks] at h ⊢
    dsimp only at h ⊢
    split
    · rfl
    · rename_i h2
      rw [if_neg h2] at h
      split
      · rfl
      · rename_i hblen
        rw [if_neg hblen] at h
        cases stale with
        | true => exact ih h
        | false => exact ih h

/-- Packets in front of the rest of the input. -/
theorem walkFrom_packets (ps : List Packet) (tail : List UInt8) (st : MoldStats) (s : σ) :
    ∃ st' s', walkFrom blockFn (ps.flatMap Packet.bytes ++ tail) st s =
      walkFrom blockFn tail st' s' ∧ st'.truncated = st.truncated := by
  induction ps generalizing st s with
  | nil => exact ⟨st, s, rfl, rfl⟩
  | cons p ps ih =>
    rw [List.flatMap_cons, List.append_assoc, Packet.bytes, walkFrom_data]
    obtain ⟨st', s', heq, htrunc⟩ := ih (afterData st p.seq p.blocks.count) _
    exact ⟨st', s', heq, htrunc.trans (truncated_afterData _ _ _)⟩

/-- Where the walk stops it changes nothing but the packet count and the end of the session. -/
theorem walkFrom_stops {tail : List UInt8} (h : Stops tail) (st : MoldStats) (s : σ) :
    ∃ packets sessionEnd,
      walkFrom blockFn tail st s = ({ st with packets, sessionEnd }, s) := by
  rcases h with hshort | ⟨session, seq, trailer, rfl⟩
  · exact ⟨st.packets, st.sessionEnd, by rw [walkFrom, if_pos hshort]⟩
  · have hend := walkFrom_end blockFn session seq trailer [] st s
    rw [List.append_nil] at hend
    exact ⟨_, _, hend⟩

/-- A walk that reports no truncation has read complete packets and stopped behind them. Induction
on the length of the input. -/
theorem exists_packets {data : List UInt8} {st : MoldStats} {s : σ}
    (h : (walkFrom blockFn data st s).1.truncated = false) :
    ∃ (ps : List Packet) (tail : List UInt8), data = ps.flatMap Packet.bytes ++ tail ∧
      Stops tail := by
  rw [walkFrom] at h
  split at h
  case isTrue hshort => exact ⟨[], data, rfl, .inl hshort⟩
  case isFalse hlong =>
    obtain ⟨session, hheader⟩ := exists_header (Nat.not_lt.1 hlong)
    dsimp only at h
    split at h
    case isTrue hend =>
      exact ⟨[], data, rfl, .inr ⟨session, _, data.drop hdrBytes, by
        rw [Datagram.bytes, ← hend]
        exact hheader⟩⟩
    case isFalse hdata =>
      split at h
      case h_1 st' s' hblocks =>
        have htrunc := truncated_of_walkBlocks blockFn (congrArg Prod.fst hblocks)
        rw [hblocks] at htrunc
        rw [htrunc] at h
        cases h
      case h_2 rest st' s' hblocks =>
        obtain ⟨bodies, hn, hne, hshort, hrest⟩ :=
          exists_bodies blockFn (congrArg Prod.fst hblocks)
        have hlt : rest.length < data.length := by
          have := walkBlocks_length_le _ _ _ _ rest _ _ (congrArg Prod.fst hblocks)
          rw [List.length_drop] at this
          simp only [hdrBytes] at *
          omega
        obtain ⟨ps, tail, hps, hstop⟩ := exists_packets h
        have hfew : bodies.length < 65535 := by
          have hmax := (be16 (data.drop 18)).toNat_lt
          have hne' : (be16 (data.drop 18)).toNat ≠ 65535 := fun h' =>
            hdata (UInt16.toNat_inj.1 h')
          omega
        have hcount : UInt16.ofNat bodies.length = be16 (data.drop 18) := by
          rw [hn, UInt16.ofNat_toNat]
        refine ⟨⟨session, be64 (data.drop 10), ⟨bodies, hne, hshort, hfew⟩⟩ :: ps, tail, ?_, hstop⟩
        rw [List.flatMap_cons, List.append_assoc, ← hps]
        show data = headerBytes session _ (UInt16.ofNat bodies.length) ++ bodies.flatMap frame ++ rest
        rw [hcount, List.append_assoc, ← hrest]
        exact hheader
termination_by data.length

/-- A walk reports no truncation exactly if the input stops behind complete packets. -/
theorem not_truncated_iff (data : List UInt8) (s : σ) :
    (walk blockFn data s).1.truncated = false ↔
      ∃ (ps : List Packet) (tail : List UInt8), data = ps.flatMap Packet.bytes ++ tail ∧
        Stops tail := by
  constructor
  · exact exists_packets blockFn
  · rintro ⟨ps, tail, rfl, hstop⟩
    obtain ⟨st', s', heq, htrunc⟩ := walkFrom_packets blockFn ps tail {} s
    obtain ⟨packets, sessionEnd, hend⟩ := walkFrom_stops blockFn hstop st' s'
    rw [walk, heq, hend]
    exact htrunc

theorem bytes_eq (p : Packet) (rest : List UInt8) :
    p.bytes ++ rest = headerBytes p.session p.seq p.blocks.count ++ (p.blocks.bytes ++ rest) :=
  List.append_assoc _ _ _

/-- A walk does not stop in front of a packet. -/
theorem not_stops_packet (p : Packet) (rest : List UInt8) : ¬ Stops (p.bytes ++ rest) := by
  rw [bytes_eq]
  rintro (hshort | ⟨session, seq, trailer, hend⟩)
  · rw [List.length_append, headerBytes_length, hdrBytes] at hshort
    omega
  · have hcount := congrArg (fun bs => be16 (bs.drop 18)) hend
    simp only [Datagram.bytes, be16_count] at hcount
    exact p.blocks.count_ne_end hcount

/-- What is behind a packet depends on the input alone: the block loop finds it. -/
theorem packet_append_cancel {p p' : Packet} {rest rest' : List UInt8}
    (h : p.bytes ++ rest = p'.bytes ++ rest') : rest = rest' := by
  rw [bytes_eq, bytes_eq] at h
  have hcount := congrArg (fun bs => be16 (bs.drop 18)) h
  simp only [be16_count] at hcount
  have hlen : p.blocks.bodies.length = p'.blocks.bodies.length := by
    rw [← p.blocks.count_toNat, ← p'.blocks.count_toNat, hcount]
  have hblocks : p.blocks.bodies.flatMap frame ++ rest =
      p'.blocks.bodies.flatMap frame ++ rest' := by
    have hdrop := congrArg (List.drop 20) h
    rwa [List.drop_left' (headerBytes_length _ _ _), List.drop_left' (headerBytes_length _ _ _)]
      at hdrop
  have hwalk := walkBlocks_bodies (fun (_ : Unit) _ => ()) p.blocks.ne_nil p.blocks.short true rest
    {} ()
  have hwalk' := walkBlocks_bodies (fun (_ : Unit) _ => ()) p'.blocks.ne_nil p'.blocks.short true
    rest' {} ()
  rw [hblocks, hlen, hwalk'] at hwalk
  exact (Option.some.inj (congrArg Prod.fst hwalk)).symm

/-- An input stops in one place. -/
theorem stop_unique {ps ps' : List Packet} {tail tail' : List UInt8}
    (h : ps.flatMap Packet.bytes ++ tail = ps'.flatMap Packet.bytes ++ tail') (hstop : Stops tail)
    (hstop' : Stops tail') : tail = tail' := by
  induction ps generalizing ps' with
  | nil =>
    cases ps' with
    | nil => exact h
    | cons p' ps' =>
      rw [List.flatMap_cons, List.append_assoc] at h
      change tail = _ at h
      exact absurd (h ▸ hstop) (not_stops_packet p' _)
  | cons p ps ih =>
    rw [List.flatMap_cons, List.append_assoc] at h
    cases ps' with
    | nil =>
      change _ = tail' at h
      exact absurd (h.symm ▸ hstop') (not_stops_packet p _)
    | cons p' ps' =>
      rw [List.flatMap_cons, List.append_assoc] at h
      exact ih (packet_append_cancel h)

theorem not_whole_of_endsInHeader {data : List UInt8} (h : EndsInHeader data) : ¬ Whole data := by
  obtain ⟨ps, tail, rfl, hpos, hshort⟩ := h
  rintro ⟨ps', tail', hdata, htail⟩
  rcases htail with rfl | hend
  · have hnil := stop_unique hdata (.inl hshort) (.inl (by decide))
    rw [hnil] at hpos
    exact absurd hpos (by decide)
  · have heq := stop_unique hdata (.inl hshort) (.inr hend)
    obtain ⟨session, seq, trailer, hbytes⟩ := hend
    rw [heq, hbytes, Datagram.bytes, List.length_append, headerBytes_length, hdrBytes] at hshort
    omega

/-- The walk reports a truncation for exactly the inputs that are not whole, if and only if the
input does not break off in a header. -/
theorem truncated_iff (data : List UInt8) (s : σ) :
    ((walk blockFn data s).1.truncated = true ↔ ¬ Whole data) ↔ ¬ EndsInHeader data := by
  constructor
  · rintro h hheader
    have htrunc := h.2 (not_whole_of_endsInHeader hheader)
    obtain ⟨ps, tail, hdata, -, hshort⟩ := hheader
    have hfalse := (not_truncated_iff blockFn data s).2 ⟨ps, tail, hdata, .inl hshort⟩
    rw [htrunc] at hfalse
    cases hfalse
  · intro hheader
    rw [← Bool.not_eq_false, not_truncated_iff]
    refine not_congr ⟨?_, ?_⟩
    · rintro ⟨ps, tail, hdata, hshort | hend⟩
      · have hnil : tail = [] := by
          by_contra hne
          exact hheader ⟨ps, tail, hdata, List.length_pos_iff.2 hne, hshort⟩
        exact ⟨ps, tail, hdata, .inl hnil⟩
      · exact ⟨ps, tail, hdata, .inr hend⟩
    · rintro ⟨ps, tail, hdata, rfl | hend⟩
      · exact ⟨ps, [], hdata, .inl (by decide)⟩
      · exact ⟨ps, tail, hdata, .inr hend⟩

/-- A header that breaks off after 19 bytes is not reported. -/
theorem header_cut_not_reported :
    (decap (List.replicate 19 0)).1.truncated = false ∧ ¬ Whole (List.replicate 19 0) :=
  ⟨by decide +kernel,
    not_whole_of_endsInHeader ⟨[], List.replicate 19 0, rfl, by decide, by decide⟩⟩

/-! ## The sequence policy -/

/-- Whether a packet is behind the number expected. -/
def staleAt (expected : Option ℕ) (p : Packet) : Bool := expected.any (p.seq.toNat < ·)

/-- The number expected after a packet. -/
def expect (expected : Option ℕ) (p : Packet) : Option ℕ :=
  if staleAt expected p then expected else some p.next

/-- The blocks that are applied, with their sequence numbers. -/
def applied : Option ℕ → List Packet → List (ℕ × List UInt8)
  | _, [] => []
  | expected, p :: ps =>
    if staleAt expected p then applied expected ps else p.numbered ++ applied (some p.next) ps

theorem numbered_fst (p : Packet) :
    p.numbered.map Prod.fst = List.range' p.seq.toNat p.blocks.bodies.length := by
  calc p.numbered.map Prod.fst
      = (p.blocks.bodies.zipIdx.map Prod.snd).map (p.seq.toNat + ·) := by
        rw [Packet.numbered, List.map_map, List.map_map]
        rfl
    _ = (List.range' 0 p.blocks.bodies.length).map (p.seq.toNat + ·) := by
        rw [List.zipIdx_map_snd 0]
    _ = List.range' p.seq.toNat p.blocks.bodies.length := List.map_add_range' ..

theorem numbered_snd (p : Packet) : p.numbered.map Prod.snd = p.blocks.bodies := by
  rw [Packet.numbered, List.map_map]
  exact List.zipIdx_map_fst 0 p.blocks.bodies

theorem mem_numbered {p : Packet} {n : ℕ} (h : n ∈ p.numbered.map Prod.fst) :
    p.seq.toNat ≤ n ∧ n < p.next := by
  rw [numbered_fst, List.mem_range'_1] at h
  exact h

/-- Nothing behind the number expected is applied. -/
theorem le_of_mem_applied {n k : ℕ} {ps : List Packet}
    (h : k ∈ (applied (some n) ps).map Prod.fst) : n ≤ k := by
  induction ps generalizing n with
  | nil => cases h
  | cons p ps ih =>
    rw [applied] at h
    split at h
    · exact ih h
    · rename_i hfresh
      have hseq : n ≤ p.seq.toNat := Nat.not_lt.1 fun hlt => hfresh (decide_eq_true hlt)
      rw [List.map_append, List.mem_append] at h
      rcases h with hin | hlater
      · exact hseq.trans (mem_numbered hin).1
      · exact (hseq.trans (Nat.le_add_right _ _)).trans (ih hlater)

/-- No sequence number is applied twice. -/
theorem applied_increasing (expected : Option ℕ) (ps : List Packet) :
    ((applied expected ps).map Prod.fst).Pairwise (· < ·) := by
  induction ps generalizing expected with
  | nil => exact .nil
  | cons p ps ih =>
    rw [applied]
    split
    · exact ih expected
    · rw [List.map_append, List.pairwise_append]
      refine ⟨?_, ih (some p.next), fun a ha b hb => ?_⟩
      · rw [numbered_fst]
        exact List.pairwise_lt_range'
      · exact (mem_numbered ha).2.trans_le (le_of_mem_applied hb)

/-! ## The statistics and the policy -/

/-- The statistics agree with the policy: what was applied and what was lost adds up to the way
from `base` to the number expected. -/
structure Accounts (base : ℕ) (expected : Option ℕ) (count : ℕ) (st : MoldStats) : Prop where
  seqInit : st.seqInit = expected.isSome
  nextSeq : ∀ n ∈ expected, st.nextSeq.toNat = n
  messages : st.messages.toNat = count
  lost : ∀ n ∈ expected, count + st.gapMsgs.toNat + base = n
  fresh : expected = none → st.nextSeq = 0 ∧ st.gapMsgs = 0 ∧ count = 0

theorem Accounts.isStale_eq {base count : ℕ} {expected : Option ℕ} {st : MoldStats}
    (h : Accounts base expected count st) (p : Packet) :
    isStale st p.seq = staleAt expected p := by
  rw [isStale, h.seqInit]
  cases expected with
  | none => rfl
  | some n =>
    show (true && decide (p.seq < st.nextSeq)) = decide (p.seq.toNat < n)
    rw [Bool.true_and, decide_eq_decide, UInt64.lt_iff_toNat_lt, h.nextSeq n rfl]

/-- A gap makes up for the numbers between the expected one and the packet. -/
theorem Accounts.gap {base count : ℕ} {expected : Option ℕ} {st : MoldStats}
    (h : Accounts base expected count st) {p : Packet} (hs : staleAt expected p = false)
    (hbase : expected = none → base = p.seq.toNat) :
    count + (if jumpsAhead st p.seq then st.gapMsgs + (p.seq - st.nextSeq) else st.gapMsgs).toNat +
      base = p.seq.toNat := by
  cases expected with
  | none =>
    have hjump : jumpsAhead st p.seq = false := by
      rw [jumpsAhead, h.seqInit]
      rfl
    obtain ⟨-, hgap, hcount⟩ := h.fresh rfl
    rw [hjump, if_neg Bool.false_ne_true, hgap, hcount, hbase rfl]
    exact Nat.zero_add _
  | some n =>
    have hlost := h.lost n rfl
    have hnext := h.nextSeq n rfl
    have hle : n ≤ p.seq.toNat := Nat.not_lt.1 (of_decide_eq_false hs)
    have hlt := p.seq.toNat_lt
    have hjump : jumpsAhead st p.seq = decide (n < p.seq.toNat) := by
      rw [jumpsAhead, h.seqInit]
      show (true && decide (st.nextSeq < p.seq)) = _
      rw [Bool.true_and, decide_eq_decide, UInt64.lt_iff_toNat_lt, hnext]
    rw [hjump]
    split
    · have hsub : (p.seq - st.nextSeq).toNat = p.seq.toNat - n := by
        rw [UInt64.toNat_sub_of_le _ _ (UInt64.le_iff_toNat_le.2 (hnext ▸ hle)), hnext]
      rw [UInt64.toNat_add, hsub, Nat.mod_eq_of_lt (by omega)]
      omega
    · rename_i hahead
      have heq : p.seq.toNat = n :=
        Nat.le_antisymm (Nat.not_lt.1 fun hlt' => hahead (decide_eq_true hlt')) hle
      rw [heq]
      exact hlost

/-- One packet. -/
theorem Accounts.packet {base count : ℕ} {expected : Option ℕ} {st : MoldStats}
    (h : Accounts base expected count st) {p : Packet} (hfits : p.next < 2 ^ 64)
    (hbase : expected = none → base = p.seq.toNat) :
    Accounts base (expect expected p)
      (count + if staleAt expected p then 0 else p.blocks.bodies.length)
      (afterData st p.seq p.blocks.count) := by
  cases hs : staleAt expected p with
  | true =>
    rw [afterData_of_stale (h.isStale_eq p ▸ hs), expect, if_pos hs]
    exact ⟨h.seqInit, h.nextSeq, h.messages, h.lost, h.fresh⟩
  | false =>
    have hgap := h.gap hs hbase
    have hmax : p.seq.toNat + p.blocks.bodies.length < 2 ^ 64 := hfits
    have hcount : p.blocks.count.toUInt64.toNat = p.blocks.bodies.length := by
      rw [UInt16.toNat_toUInt64, p.blocks.count_toNat]
    rw [afterData_of_fresh (h.isStale_eq p ▸ hs), expect, hs, if_neg Bool.false_ne_true,
      if_neg Bool.false_ne_true]
    constructor
    case seqInit => rfl
    case nextSeq =>
      rintro n ⟨⟩
      show (p.seq + p.blocks.count.toUInt64).toNat = p.next
      rw [UInt64.toNat_add, hcount]
      exact Nat.mod_eq_of_lt hfits
    case messages =>
      show (st.messages + p.blocks.count.toUInt64).toNat = _
      rw [UInt64.toNat_add, hcount, h.messages]
      exact Nat.mod_eq_of_lt (by omega)
    case lost =>
      rintro n ⟨⟩
      show count + p.blocks.bodies.length +
        (if jumpsAhead st p.seq then st.gapMsgs + (p.seq - st.nextSeq) else st.gapMsgs).toNat +
          base = p.seq.toNat + p.blocks.bodies.length
      omega
    case fresh =>
      rintro ⟨⟩

/-- All packets: what is passed on is what the policy applies. Induction on the packets. -/
theorem Accounts.packets {base count : ℕ} {expected : Option ℕ} {st : MoldStats}
    (h : Accounts base expected count st) {ps : List Packet}
    (hfits : ∀ p ∈ ps, p.next < 2 ^ 64)
    (hbase : expected = none → ∀ p ∈ ps.head?, base = p.seq.toNat) (tail : List UInt8) (s : σ) :
    ∃ st', walkFrom blockFn (ps.flatMap Packet.bytes ++ tail) st s =
        walkFrom blockFn tail st'
          (((applied expected ps).map fun b => frame b.2).foldl blockFn s) ∧
      Accounts base (ps.foldl expect expected) (count + (applied expected ps).length) st' := by
  induction ps generalizing expected count st s with
  | nil => exact ⟨st, rfl, h⟩
  | cons p ps ih =>
    have hstep := h.packet (hfits p List.mem_cons_self) fun hn => hbase hn p rfl
    have hlater : expect expected p = none → ∀ q ∈ ps.head?, base = q.seq.toNat := by
      intro hnone
      cases hs : staleAt expected p with
      | true =>
        rw [expect, if_pos hs] at hnone
        rw [hnone] at hs
        cases hs
      | false =>
        rw [expect, hs, if_neg Bool.false_ne_true] at hnone
        cases hnone
    obtain ⟨st', hwalk, hst'⟩ := ih hstep (fun q hq => hfits q (List.mem_cons_of_mem _ hq)) hlater
      (if staleAt expected p then s else (p.blocks.bodies.map frame).foldl blockFn s)
    refine ⟨st', ?_, ?_⟩
    · rw [List.flatMap_cons, List.append_assoc, Packet.bytes, walkFrom_data, h.isStale_eq, hwalk,
        applied]
      cases hs : staleAt expected p with
      | true =>
        rw [expect, if_pos hs]
        rfl
      | false =>
        have hbodies : p.numbered.map (fun b => frame b.2) = p.blocks.bodies.map frame := by
          rw [← numbered_snd p, List.map_map]
          rfl
        rw [expect, hs, if_neg Bool.false_ne_true, if_neg Bool.false_ne_true,
          if_neg Bool.false_ne_true, List.map_append, List.foldl_append, hbodies]
    · have hlen : (applied expected (p :: ps)).length =
          (if staleAt expected p then 0 else p.blocks.bodies.length) +
            (applied (expect expected p) ps).length := by
        rw [applied, expect]
        split
        · exact (Nat.zero_add _).symm
        · rw [List.length_append, Packet.numbered, List.length_map, List.length_zipIdx]
      rw [hlen, ← Nat.add_assoc]
      exact hst'

/-- Once a number is expected, one is. -/
theorem expect_isSome (n : ℕ) (ps : List Packet) : ∃ k, ps.foldl expect (some n) = some k := by
  induction ps generalizing n with
  | nil => exact ⟨n, rfl⟩
  | cons p ps ih =>
    rw [List.foldl_cons, expect]
    split
    · exact ih n
    · exact ih p.next

/-- A whole walk. -/
theorem walk_applied {ps : List Packet} {tail : List UInt8} (hstop : Stops tail)
    (hfits : ∀ p ∈ ps, p.next < 2 ^ 64) (s : σ) :
    (walk blockFn (ps.flatMap Packet.bytes ++ tail) s).2 =
        ((applied none ps).map fun b => frame b.2).foldl blockFn s ∧
      Accounts ((ps.head?.map (·.seq.toNat)).getD 0) (ps.foldl expect none)
        (applied none ps).length (walk blockFn (ps.flatMap Packet.bytes ++ tail) s).1 := by
  have hinit : Accounts ((ps.head?.map (·.seq.toNat)).getD 0) none 0 {} :=
    ⟨rfl, fun n hn => (by cases hn), rfl, fun n hn => (by cases hn), fun _ => ⟨rfl, rfl, rfl⟩⟩
  obtain ⟨st', hwalk, hst'⟩ := hinit.packets blockFn hfits (fun _ p hp => by rw [hp]; rfl) tail s
  obtain ⟨packets, sessionEnd, hend⟩ := walkFrom_stops blockFn hstop st'
    (((applied none ps).map fun b => frame b.2).foldl blockFn s)
  rw [walk, hwalk, hend]
  rw [Nat.zero_add] at hst'
  exact ⟨rfl, hst'.seqInit, hst'.nextSeq, hst'.messages, hst'.lost, hst'.fresh⟩

/-- A stale packet is as if it were not there. -/
theorem applied_stale {expected : Option ℕ} {before after : List Packet} {p : Packet}
    (h : staleAt (before.foldl expect expected) p = true) :
    applied expected (before ++ p :: after) = applied expected (before ++ after) ∧
      (before ++ p :: after).foldl expect expected = (before ++ after).foldl expect expected := by
  induction before generalizing expected with
  | nil =>
    have hs : staleAt expected p = true := h
    refine ⟨?_, ?_⟩
    · show applied expected (p :: after) = _
      rw [applied, if_pos hs]
      rfl
    · show after.foldl expect (expect expected p) = _
      rw [expect, if_pos hs]
      rfl
  | cons q before ih =>
    obtain ⟨happlied, hexpect⟩ := ih h
    refine ⟨?_, hexpect⟩
    show applied expected (q :: (before ++ p :: after)) = applied expected (q :: (before ++ after))
    rw [applied, applied]
    split
    · rename_i hs
      rw [expect, if_pos hs] at happlied
      exact happlied
    · rename_i hs
      rw [expect, if_neg hs] at happlied
      rw [happlied]

/-- A walk that reports no truncation applies blocks of strictly increasing sequence numbers, and
what it applied and lost adds up to the numbers it has passed. A stale packet changes neither the
output nor the number expected. -/
theorem walk_accounting (data : List UInt8) (s : σ)
    (h : (walk blockFn data s).1.truncated = false) :
    (∃ (ps : List Packet) (tail : List UInt8), data = ps.flatMap Packet.bytes ++ tail ∧
      Stops tail) ∧
    ∀ (ps : List Packet) (tail : List UInt8), data = ps.flatMap Packet.bytes ++ tail →
      Stops tail → (∀ p ∈ ps, p.next < 2 ^ 64) →
      (walk blockFn data s).2 = ((applied none ps).map fun b => frame b.2).foldl blockFn s ∧
      ((applied none ps).map Prod.fst).Pairwise (· < ·) ∧
      (∀ p ∈ ps.head?, p.seq ≤ (walk blockFn data s).1.nextSeq ∧
        (walk blockFn data s).1.messages.toNat + (walk blockFn data s).1.gapMsgs.toNat =
          (walk blockFn data s).1.nextSeq.toNat - p.seq.toNat) ∧
      ∀ before p after, ps = before ++ p :: after → staleAt (before.foldl expect none) p = true →
        (walk blockFn ((before ++ after).flatMap Packet.bytes ++ tail) s).2 =
            (walk blockFn data s).2 ∧
          (walk blockFn ((before ++ after).flatMap Packet.bytes ++ tail) s).1.nextSeq =
            (walk blockFn data s).1.nextSeq := by
  refine ⟨exists_packets blockFn h, ?_⟩
  rintro ps tail rfl hstop hfits
  obtain ⟨hout, hcounts⟩ := walk_applied blockFn hstop hfits s
  refine ⟨hout, applied_increasing none ps, fun p hp => ?_, ?_⟩
  · -- behind the first packet a number is expected
    obtain ⟨n, hn⟩ : ∃ n, ps.foldl expect none = some n := by
      cases ps with
      | nil => cases hp
      | cons q ps => exact expect_isSome q.next ps
    have hlost := hcounts.lost n hn
    have hbase : (ps.head?.map (·.seq.toNat)).getD 0 = p.seq.toNat := by
      rw [hp]
      rfl
    rw [hbase] at hlost
    rw [UInt64.le_iff_toNat_le, hcounts.nextSeq n hn, hcounts.messages]
    omega
  · rintro before p after rfl hstale
    obtain ⟨happlied, hexpect⟩ := @applied_stale none before after p hstale
    have hfits' : ∀ q ∈ before ++ after, q.next < 2 ^ 64 := by
      intro q hq
      refine hfits q (List.mem_append.2 ?_)
      exact (List.mem_append.1 hq).imp_right (List.mem_cons_of_mem _)
    obtain ⟨hout', hcounts'⟩ := walk_applied blockFn hstop hfits' s
    refine ⟨by rw [hout', hout, happlied], ?_⟩
    rw [← hexpect] at hcounts'
    cases he : (before ++ p :: after).foldl expect none with
    | none => rw [(hcounts'.fresh he).1, (hcounts.fresh he).1]
    | some n => exact UInt64.toNat_inj.1 ((hcounts'.nextSeq n he).trans (hcounts.nextSeq n he).symm)

/-- Two messages, the second of them again, and a heartbeat two numbers ahead. -/
def history : List Packet :=
  [⟨Vector.replicate 10 0, 5, ⟨[[0x41], [0x42]], by decide, by decide, by decide⟩⟩,
    ⟨Vector.replicate 10 0, 6, ⟨[[0x42]], by decide, by decide, by decide⟩⟩,
    ⟨Vector.replicate 10 0, 9, ⟨[], by decide, by decide, by decide⟩⟩]

theorem walk_accounting_history :
    (walk (fun out block => out ++ block) (history.flatMap Packet.bytes) []).1.truncated = false ∧
      (applied none history).map Prod.fst = [5, 6] ∧
      (5 ≤ (walk (fun out block => out ++ block) (history.flatMap Packet.bytes) []).1.nextSeq ∧
        (walk (fun out block => out ++ block) (history.flatMap Packet.bytes) []).1.messages.toNat +
          (walk (fun out block => out ++ block) (history.flatMap Packet.bytes) []).1.gapMsgs.toNat =
        (walk (fun out block => out ++ block) (history.flatMap Packet.bytes) []).1.nextSeq.toNat -
          5) := by
  have htrunc : (walk (fun (out : List UInt8) block => out ++ block)
      (history.flatMap Packet.bytes) []).1.truncated = false := by decide +kernel
  obtain ⟨-, hall⟩ := walk_accounting (fun (out : List UInt8) block => out ++ block)
    (history.flatMap Packet.bytes) [] htrunc
  obtain ⟨-, -, hsum, -⟩ := hall history [] (List.append_nil _).symm (.inl (by decide)) (by decide)
  exact ⟨htrunc, by decide, hsum _ rfl⟩

end MoldParser

end ItchOrderbook
