import ItchOrderbook.Parser.ItchParserSpec
import ItchOrderbook.Parser.MoldParser

/-!
# What the walker does to a sequence of datagrams

`Datagram` is a complete MoldUDP64 packet. Over concatenated datagrams the walk is a fold: a data
packet passes its blocks on unless the sequence policy finds it stale (`walkFrom_data`), and the
end of the session stops it (`walkFrom_end`).
-/

namespace ItchOrderbook

open BigEndian Framing

/-- The blocks of a packet: bodies that fit their length prefix, and fewer of them than the count
that ends a session. -/
structure Blocks where
  bodies : List (List UInt8)
  ne_nil : ∀ b ∈ bodies, b ≠ []
  short : ∀ b ∈ bodies, b.length < 65536
  few : bodies.length < 65535

namespace Blocks

/-- The block bytes of a packet. -/
def bytes (bs : Blocks) : List UInt8 := bs.bodies.flatMap frame

/-- The count field. -/
def count (bs : Blocks) : UInt16 := UInt16.ofNat bs.bodies.length

theorem count_toNat (bs : Blocks) : bs.count.toNat = bs.bodies.length :=
  UInt16.toNat_ofNat_of_lt (bs.few.trans (by decide))

theorem toUInt64_count (bs : Blocks) : bs.count.toUInt64 = UInt64.ofNat bs.bodies.length := by
  rw [← bs.count_toNat, ← UInt16.toNat_toUInt64, UInt64.ofNat_toNat]

theorem count_ne_end (bs : Blocks) : bs.count ≠ MoldParser.endCount := by
  intro h
  have hn := congrArg UInt16.toNat h
  rw [count_toNat] at hn
  exact absurd hn (Nat.ne_of_lt bs.few)

end Blocks

/-- A complete MoldUDP64 packet: blocks, or the end of the session with whatever follows it. -/
inductive Datagram where
  | data (session : Vector UInt8 10) (seq : UInt64) (blocks : Blocks)
  | sessionEnd (session : Vector UInt8 10) (seq : UInt64) (trailer : List UInt8)

/-- The 20 header bytes. -/
def headerBytes (session : Vector UInt8 10) (seq : UInt64) (cnt : UInt16) : List UInt8 :=
  session.toList ++ (toBytes 8 seq.toNat ++ toBytes 2 cnt.toNat)

@[simp] theorem headerBytes_length (session : Vector UInt8 10) (seq : UInt64) (cnt : UInt16) :
    (headerBytes session seq cnt).length = 20 := by
  simp [headerBytes]

/-- The bytes of a packet. -/
def Datagram.bytes : Datagram → List UInt8
  | .data session seq blocks => headerBytes session seq blocks.count ++ blocks.bytes
  | .sessionEnd session seq trailer => headerBytes session seq MoldParser.endCount ++ trailer

namespace MoldParser

variable {σ : Type*} (blockFn : σ → List UInt8 → σ)

/-! ## The block loop -/

/-- Over complete blocks the loop passes each on, unless the packet is stale. -/
theorem walkBlocks_bodies {bodies : List (List UInt8)} (hne : ∀ b ∈ bodies, b ≠ [])
    (hshort : ∀ b ∈ bodies, b.length < 65536) (stale : Bool) (rest : List UInt8) (st : MoldStats)
    (s : σ) :
    walkBlocks blockFn stale bodies.length (bodies.flatMap frame ++ rest) st s =
      if stale then (some rest, st, s)
      else (some rest, { st with messages := st.messages + UInt64.ofNat bodies.length },
        (bodies.map frame).foldl blockFn s) := by
  induction bodies generalizing st s with
  | nil => cases stale <;> simp [walkBlocks]
  | cons b bodies ih =>
    have hb := hshort b List.mem_cons_self
    have hpos : 0 < b.length := List.length_pos_iff.mpr (hne b List.mem_cons_self)
    have hlen : (frame b ++ (bodies.flatMap frame ++ rest)).length =
        b.length + 2 + (bodies.flatMap frame ++ rest).length := by
      rw [List.length_append, frame_length]
    have hblen : (be16 (frame b ++ (bodies.flatMap frame ++ rest))).toNat = b.length := by
      rw [be16_toNat (by omega), announced_frame hb]
    have hdrop : (frame b ++ (bodies.flatMap frame ++ rest)).drop (2 + b.length) =
        bodies.flatMap frame ++ rest :=
      List.drop_left' (by rw [frame_length, Nat.add_comm])
    have htake : (frame b ++ (bodies.flatMap frame ++ rest)).take (2 + b.length) = frame b :=
      List.take_left' (by rw [frame_length, Nat.add_comm])
    have ih := ih (fun b h => hne b (List.mem_cons_of_mem _ h))
      fun b h => hshort b (List.mem_cons_of_mem _ h)
    rw [List.flatMap_cons, List.append_assoc, List.length_cons, walkBlocks, if_neg (by omega)]
    dsimp only
    rw [hblen, if_neg (by omega), hdrop, htake, ih, ih]
    cases stale with
    | true => rfl
    | false =>
      simp only [Bool.false_eq_true, if_false, List.map_cons, List.foldl_cons, Prod.mk.injEq,
        true_and, and_true, UInt64.ofNat_add, MoldStats.mk.injEq]
      grind

/-! ## One packet -/

/-- Whether the policy drops a packet as stale. -/
def isStale (st : MoldStats) (seq : UInt64) : Bool := st.seqInit && decide (seq < st.nextSeq)

/-- The statistics after a data packet with `n` blocks. -/
def afterData (st : MoldStats) (seq : UInt64) (n : UInt16) : MoldStats :=
  let stale := isStale st seq
  let st := openPacket { st with packets := st.packets + 1 } seq
  let st := if stale then st else { st with messages := st.messages + n.toUInt64 }
  closePacket st seq n stale

/-- Whether a packet skips sequence numbers. -/
def jumpsAhead (st : MoldStats) (seq : UInt64) : Bool := st.seqInit && decide (st.nextSeq < seq)

theorem openPacket_eq (st : MoldStats) (seq : UInt64) :
    openPacket st seq =
      if jumpsAhead st seq then
        { st with gapEvents := st.gapEvents + 1, gapMsgs := st.gapMsgs + (seq - st.nextSeq) }
      else st := by
  simp only [openPacket, jumpsAhead, Bool.and_eq_true, decide_eq_true_eq, gt_iff_lt]

/-- A packet that is not stale moves the sequence on. -/
theorem afterData_of_fresh {st : MoldStats} {seq : UInt64} (h : isStale st seq = false)
    (n : UInt16) :
    afterData st seq n =
      { st with
        packets := st.packets + 1
        heartbeats := if n = 0 then st.heartbeats + 1 else st.heartbeats
        messages := st.messages + n.toUInt64
        gapEvents := if jumpsAhead st seq then st.gapEvents + 1 else st.gapEvents
        gapMsgs := if jumpsAhead st seq then st.gapMsgs + (seq - st.nextSeq) else st.gapMsgs
        nextSeq := seq + n.toUInt64
        seqInit := true } := by
  have hjump : jumpsAhead { st with packets := st.packets + 1 } seq = jumpsAhead st seq := rfl
  rw [afterData, openPacket_eq, hjump, h]
  cases jumpsAhead st seq <;> by_cases hn : n = 0 <;> simp [closePacket, hn]

/-- A stale packet only counts as one. -/
theorem afterData_of_stale {st : MoldStats} {seq : UInt64} (h : isStale st seq = true)
    (n : UInt16) :
    afterData st seq n =
      { st with
        packets := st.packets + 1
        heartbeats := if n = 0 then st.heartbeats + 1 else st.heartbeats
        stalePackets := st.stalePackets + 1 } := by
  have hjump : jumpsAhead { st with packets := st.packets + 1 } seq = false := by
    simp only [isStale, Bool.and_eq_true, decide_eq_true_eq] at h
    have hlt := UInt64.lt_asymm h.2
    simp [jumpsAhead, hlt]
  rw [afterData, openPacket_eq, hjump, h]
  by_cases hn : n = 0 <;> simp [closePacket, hn]

theorem be64_seq (session : Vector UInt8 10) (seq : UInt64) (cnt : UInt16) (rest : List UInt8) :
    be64 ((headerBytes session seq cnt ++ rest).drop 10) = seq := by
  rw [headerBytes, List.append_assoc, List.drop_left' (by simp), List.append_assoc,
    be64_append (toBytes_length _ _), ofBytes_toBytes_of_lt seq.toNat_lt, UInt64.ofNat_toNat]

theorem be16_count (session : Vector UInt8 10) (seq : UInt64) (cnt : UInt16)
    (rest : List UInt8) : be16 ((headerBytes session seq cnt ++ rest).drop 18) = cnt := by
  rw [headerBytes, ← List.append_assoc, List.append_assoc _ _ rest, List.drop_left' (by simp),
    be16_append (toBytes_length _ _), ofBytes_toBytes_of_lt cnt.toNat_lt, UInt16.ofNat_toNat]

/-- A data packet in front: its blocks pass unless it is stale, and the walk goes on behind it. -/
theorem walkFrom_data (session : Vector UInt8 10) (seq : UInt64) (blocks : Blocks)
    (rest : List UInt8) (st : MoldStats) (s : σ) :
    walkFrom blockFn ((Datagram.data session seq blocks).bytes ++ rest) st s =
      walkFrom blockFn rest (afterData st seq blocks.count)
        (if isStale st seq then s else (blocks.bodies.map frame).foldl blockFn s) := by
  have hblocks := walkBlocks_bodies blockFn blocks.ne_nil blocks.short (isStale st seq) rest
    (openPacket { st with packets := st.packets + 1 } seq) s
  have hdrop : (headerBytes session seq blocks.count ++ (blocks.bytes ++ rest)).drop hdrBytes =
      blocks.bytes ++ rest := List.drop_left' (headerBytes_length _ _ _)
  rw [Datagram.bytes, List.append_assoc, walkFrom, if_neg (by simp [hdrBytes])]
  dsimp only
  rw [be64_seq, be16_count, if_neg blocks.count_ne_end, hdrop, blocks.count_toNat]
  -- the block loop ends behind the last block, so the walk never returns early
  split
  · rename_i hw
    have hw := hblocks.symm.trans hw
    cases hs : isStale st seq <;> rw [hs] at hw <;> cases hw
  · rename_i rest' st' s' hw
    have hw := hblocks.symm.trans hw
    change walkFrom blockFn rest' (closePacket st' seq blocks.count (isStale st seq)) s' = _
    rw [afterData]
    cases hs : isStale st seq with
    | true =>
      rw [hs] at hw
      cases hw
      rfl
    | false =>
      rw [hs] at hw
      cases hw
      rw [← blocks.toUInt64_count]
      rfl

/-- The end of the session in front stops the walk. -/
theorem walkFrom_end (session : Vector UInt8 10) (seq : UInt64) (trailer rest : List UInt8)
    (st : MoldStats) (s : σ) :
    walkFrom blockFn ((Datagram.sessionEnd session seq trailer).bytes ++ rest) st s =
      ({ st with packets := st.packets + 1, sessionEnd := true }, s) := by
  rw [Datagram.bytes, List.append_assoc, walkFrom, if_neg (by simp [hdrBytes])]
  dsimp only
  rw [be16_count, if_pos rfl]

/-! ## A sequence of packets -/

/-- One packet for a walk that has not ended: the statistics, and the bodies passed on so far. -/
def walkStep (p : MoldStats × List (List UInt8)) (d : Datagram) : MoldStats × List (List UInt8) :=
  if p.1.sessionEnd then p
  else
    match d with
    | .data _ seq blocks =>
      (afterData p.1 seq blocks.count, if isStale p.1 seq then p.2 else p.2 ++ blocks.bodies)
    | .sessionEnd .. => ({ p.1 with packets := p.1.packets + 1, sessionEnd := true }, p.2)

/-- The walk over a sequence of packets. -/
def walkPackets (ds : List Datagram) : MoldStats × List (List UInt8) := ds.foldl walkStep ({}, [])

theorem foldl_walkStep_ended {p : MoldStats × List (List UInt8)} (h : p.1.sessionEnd = true)
    (ds : List Datagram) : ds.foldl walkStep p = p := by
  induction ds with
  | nil => rfl
  | cons d ds ih =>
    have hstep : walkStep p d = p := if_pos h
    rwa [List.foldl_cons, hstep]

@[simp] theorem sessionEnd_afterData (st : MoldStats) (seq : UInt64) (n : UInt16) :
    (afterData st seq n).sessionEnd = st.sessionEnd := by
  unfold afterData closePacket openPacket
  dsimp only
  repeat' split
  all_goals rfl

theorem walkFrom_nil (st : MoldStats) (s : σ) : walkFrom blockFn [] st s = (st, s) := by
  rw [walkFrom]
  rfl

/-- The walk over concatenated packets is the fold over the packets. -/
theorem walkFrom_datagrams (ds : List Datagram) {p : MoldStats × List (List UInt8)}
    (h : p.1.sessionEnd = false) (s : σ) :
    walkFrom blockFn (ds.flatMap Datagram.bytes) p.1 ((p.2.map frame).foldl blockFn s) =
      ((ds.foldl walkStep p).1, ((ds.foldl walkStep p).2.map frame).foldl blockFn s) := by
  induction ds generalizing p with
  | nil => exact walkFrom_nil blockFn _ _
  | cons d ds ih =>
    have hstep : walkStep p d = _ := if_neg (h ▸ Bool.false_ne_true)
    rw [List.flatMap_cons, List.foldl_cons]
    cases d with
    | data session seq blocks =>
      rw [walkFrom_data]
      rw [← ih (by rw [hstep]; exact (sessionEnd_afterData _ _ _).trans h), hstep]
      dsimp only
      cases isStale p.1 seq with
      | true => rfl
      | false => rw [if_neg Bool.false_ne_true, if_neg Bool.false_ne_true, List.map_append,
          List.foldl_append]
    | sessionEnd session seq trailer =>
      rw [walkFrom_end, foldl_walkStep_ended (by rw [hstep]), hstep]

/-- `decap` of concatenated packets. -/
theorem decap_datagrams (ds : List Datagram) :
    decap (ds.flatMap Datagram.bytes) = ((walkPackets ds).1, (walkPackets ds).2.flatMap frame) := by
  have happ (bs : List (List UInt8)) (out : List UInt8) :
      (bs.map frame).foldl (fun out block => out ++ block) out = out ++ bs.flatMap frame := by
    induction bs generalizing out with
    | nil => simp
    | cons b bs ih => rw [List.map_cons, List.foldl_cons, ih, List.flatMap_cons, List.append_assoc]
  have h := walkFrom_datagrams (fun out block => out ++ block) ds
    (show (({}, []) : MoldStats × List (List UInt8)).1.sessionEnd = false from rfl) []
  simp only [happ, List.nil_append] at h
  exact h

/-- `parse_stream` of concatenated packets. -/
theorem parseStream_datagrams (handler : σ → DecodedMessage → σ) (ds : List Datagram) (s : σ) :
    parseStream handler (ds.flatMap Datagram.bytes) s =
      ((walkPackets ds).1, ((walkPackets ds).2.map decoded).foldl handler s) := by
  have hbody (b : List UInt8) :
      decodeBody ((frame b).drop 2) ((frame b).length - 2) = decoded b := by
    rw [frame_length, frame, List.drop_left' (toBytes_length _ _), Nat.add_sub_cancel, decoded]
  have h := walkFrom_datagrams
    (fun s block => handler s (decodeBody (block.drop 2) (block.length - 2))) ds
    (show (({}, []) : MoldStats × List (List UInt8)).1.sessionEnd = false from rfl) s
  simp only [List.foldl_map, hbody] at h
  rw [List.foldl_map]
  exact h

end MoldParser

end ItchOrderbook
