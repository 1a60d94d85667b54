import ItchOrderbook.Parser.ItchParserSpec
import ItchOrderbook.Receiver.ReplayReceiver

/-!
# Packets and the flat stream

The inner loop takes some of the bodies that the parser would see, and leaves the others to the
packets behind (`fillPacket_spec`). Only the first body of a packet is taken whatever its size, so a
packet above `max_bytes` holds one message. Over the whole buffer the packets are the frames that
`parse_stream` consumes (`packetised_equals_flat`).
-/

namespace ItchOrderbook

open BigEndian Framing

namespace FileReplayReceiver

variable {σ : Type*} {maxBytes : ℕ} {data rest : List UInt8} {pkt size : ℕ}

/-! ## One packet -/

/-- A packet begun with `pkt` bytes takes `bodies` from `data`, and the rest is left to the next. -/
structure Fills (maxBytes pkt : ℕ) (data : List UInt8) (size : ℕ) (rest : List UInt8)
    (bodies : List (List UInt8)) : Prop where
  size_eq : size = pkt + (bodies.flatMap frame).length
  front : bodies.flatMap frame <+: data
  remaining : streamBodies data = bodies ++ streamBodies rest
  -- the check is skipped only while the packet is empty
  bounded : pkt ≠ 0 → bodies ≠ [] → size ≤ maxBytes
  single : pkt = 0 → 2 ≤ bodies.length → size ≤ maxBytes
  stuck : pkt = 0 → bodies = [] → streamBodies data = []

/-- Nothing is taken, and nothing is left for the packets behind. -/
theorem Fills.none (h : streamBodies data = streamBodies rest)
    (hstuck : pkt = 0 → streamBodies data = []) : Fills maxBytes pkt data pkt rest [] where
  size_eq := by simp
  front := List.nil_prefix
  remaining := h
  bounded _ hne := absurd rfl hne
  single _ hlen := by simp at hlen
  stuck hzero _ := hstuck hzero

/-- The message at the cursor, and what the loop takes behind it. -/
theorem Fills.cons {bodies : List (List UInt8)} (hfull : ¬Incomplete data)
    (hpos : 0 < announced data) (hroom : ¬(pkt ≠ 0 ∧ maxBytes < pkt + (2 + announced data)))
    (h : Fills maxBytes (pkt + (2 + announced data)) (data.drop (2 + announced data)) size rest
      bodies) :
    Fills maxBytes pkt data size rest ((data.drop 2).take (announced data) :: bodies) where
  size_eq := by
    rw [h.size_eq, List.flatMap_cons, List.length_append, frame_length, front_length hfull]
    omega
  front := by
    obtain ⟨tail, htail⟩ := h.front
    refine ⟨tail, ?_⟩
    rw [List.flatMap_cons, List.append_assoc, htail, frame_front hfull]
  remaining := by rw [streamBodies_cons hfull hpos, h.remaining, List.cons_append]
  bounded hpkt _ := by
    -- either this message is the last one, or the bound held again behind it
    cases bodies with
    | nil =>
      have hsize := h.size_eq
      rw [List.flatMap_nil, List.length_nil] at hsize
      omega
    | cons body bodies => exact h.bounded (by omega) (List.cons_ne_nil _ _)
  single _ hlen := by
    refine h.bounded (by omega) ?_
    rintro rfl
    simp at hlen
  stuck _ hnil := absurd hnil (List.cons_ne_nil _ _)

/-- The inner loop. Along its recursion. -/
theorem fillPacket_spec (maxBytes : ℕ) (data : List UInt8) (pkt : ℕ) :
    ∃ bodies, Fills maxBytes pkt data (fillPacket maxBytes data pkt).1
      (fillPacket maxBytes data pkt).2 bodies := by
  have hnil : streamBodies [] = [] := streamBodies_nil (.inr incomplete_nil)
  induction data, pkt using fillPacket.induct maxBytes with
  | case1 data pkt h2 blen hzero =>
    -- an empty message
    have hbodies : streamBodies data = [] :=
      streamBodies_nil (.inl (by rw [← be16_toNat h2]; exact hzero))
    rw [fillPacket, if_pos h2]
    dsimp only
    rw [if_pos hzero]
    exact ⟨[], .none (by rw [hbodies, hnil]) fun _ => hbodies⟩
  | case2 data pkt h2 blen hpos msz hcut =>
    -- a truncated tail
    have hbodies : streamBodies data = [] :=
      streamBodies_nil (.inr (by rw [Incomplete, ← be16_toNat h2]; exact hcut))
    rw [fillPacket, if_pos h2]
    dsimp only
    rw [if_neg hpos, if_pos hcut]
    exact ⟨[], .none (by rw [hbodies, hnil]) fun _ => hbodies⟩
  | case3 data pkt h2 blen hpos msz hfull hclose =>
    rw [fillPacket, if_pos h2]
    dsimp only
    rw [if_neg hpos, if_neg hfull, if_pos hclose]
    exact ⟨[], .none rfl fun hzero => absurd hzero hclose.1⟩
  | case4 data pkt h2 blen hpos msz hfull hroom ih =>
    have hlen : blen = announced data := be16_toNat h2
    rw [fillPacket, if_pos h2]
    dsimp only
    rw [if_neg hpos, if_neg hfull, if_neg hroom]
    obtain ⟨bodies, h⟩ := ih
    simp only [msz, hlen] at h hfull hroom hpos
    rw [be16_toNat h2]
    exact ⟨_, h.cons hfull (Nat.pos_of_ne_zero hpos) hroom⟩
  | case5 data pkt h2 =>
    -- not even a length is left
    rw [fillPacket, if_neg h2]
    exact ⟨[], .none rfl fun _ =>
      streamBodies_nil (.inr (incomplete_of_length_lt (Nat.lt_of_not_le h2)))⟩

/-! ## All packets -/

/-- A packet of whole messages. -/
def WholeMessages (maxBytes : ℕ) (packet : List UInt8) (bodies : List (List UInt8)) : Prop :=
  packet = bodies.flatMap frame ∧ bodies ≠ [] ∧ (∀ body ∈ bodies, body ≠ [] ∧ body.length < 65536)
    ∧ (maxBytes < packet.length → bodies.length = 1)

/-- The bodies that reach the handler are those of messages. -/
theorem streamBodies_mem {body : List UInt8} (h : body ∈ streamBodies data) :
    body ≠ [] ∧ body.length < 65536 := by
  induction data using split.induct with
  | case1 data hshort =>
    rw [streamBodies_nil (.inr hshort)] at h
    simp at h
  | case2 data hfull ih =>
    rcases Nat.eq_zero_or_pos (announced data) with hzero | hpos
    · rw [streamBodies_nil (.inl hzero)] at h
      simp at h
    · rw [streamBodies_cons hfull hpos] at h
      rcases List.mem_cons.mp h with rfl | htail
      · have hlength := front_length hfull
        refine ⟨fun hnil => ?_, ?_⟩
        · rw [hnil] at hlength
          exact absurd hlength.symm (Nat.ne_of_gt hpos)
        · rw [hlength]
          have h2 : 2 ≤ data.length := by omega
          rw [← be16_toNat h2]
          exact UInt16.toNat_lt _
      · exact ih htail

/-- What the parser consumes is in front. -/
theorem streamBodies_prefix (data : List UInt8) : (streamBodies data).flatMap frame <+: data := by
  induction data using split.induct with
  | case1 data hshort =>
    rw [streamBodies_nil (.inr hshort)]
    exact List.nil_prefix
  | case2 data hfull ih =>
    rcases Nat.eq_zero_or_pos (announced data) with hzero | hpos
    · rw [streamBodies_nil (.inl hzero)]
      exact List.nil_prefix
    · obtain ⟨tail, htail⟩ := ih
      refine ⟨tail, ?_⟩
      rw [streamBodies_cons hfull hpos, List.flatMap_cons, List.append_assoc, htail,
        frame_front hfull]

/-- A packet that is handed out. -/
theorem Fills.wholeMessages {bodies : List (List UInt8)}
    (h : Fills maxBytes 0 data size rest bodies) (hsize : size ≠ 0) :
    WholeMessages maxBytes (data.take size) bodies := by
  have hlength : size = (bodies.flatMap frame).length := by rw [h.size_eq, Nat.zero_add]
  have hne : bodies ≠ [] := by
    rintro rfl
    exact hsize hlength
  refine ⟨?_, hne, fun body hbody => ?_, fun hover => ?_⟩
  · rw [hlength]
    exact (List.prefix_iff_eq_take.mp h.front).symm
  · have hmem : body ∈ streamBodies data := by
      rw [h.remaining]
      exact List.mem_append_left _ hbody
    exact streamBodies_mem hmem
  · -- two messages would have met the bound
    have hpos := List.length_pos_iff.mpr hne
    have hsingle := h.single rfl
    rw [List.length_take] at hover
    omega

/-- The packets, as groups of the parser's bodies. Along the outer loop. -/
theorem deliverPackets_spec (maxBytes : ℕ) (cb : σ → List UInt8 → σ) (data : List UInt8) (s : σ) :
    ∃ groups : List (List (List UInt8)),
      groups.flatten = streamBodies data
        ∧ (∀ bodies ∈ groups, WholeMessages maxBytes (bodies.flatMap frame) bodies)
        ∧ deliverPackets maxBytes cb data s =
          (groups.map fun bodies => bodies.flatMap frame).foldl cb s := by
  induction data, s using deliverPackets.induct maxBytes cb with
  | case1 data s hpos filled hzero =>
    obtain ⟨bodies, h⟩ := fillPacket_spec maxBytes data 0
    have hnil : bodies = [] := by
      have hsize := h.size_eq
      rw [show (fillPacket maxBytes data 0).1 = 0 from hzero] at hsize
      cases bodies with
      | nil => rfl
      | cons body bodies =>
        rw [List.flatMap_cons, List.length_append, frame_length] at hsize
        omega
    refine ⟨[], (h.stuck rfl hnil).symm, fun bodies hmem => absurd hmem List.not_mem_nil, ?_⟩
    rw [deliverPackets, if_pos hpos]
    exact if_pos hzero
  | case2 data s hpos filled hne ih =>
    obtain ⟨bodies, h⟩ := fillPacket_spec maxBytes data 0
    have hwhole := h.wholeMessages hne
    obtain ⟨groups, hflatten, hgroups, hrun⟩ := ih
    refine ⟨bodies :: groups, ?_, ?_, ?_⟩
    · rw [List.flatten_cons, hflatten]
      exact h.remaining.symm
    · refine List.forall_mem_cons.mpr ⟨?_, hgroups⟩
      rw [hwhole.1] at hwhole
      exact hwhole
    · rw [deliverPackets, if_pos hpos]
      dsimp only
      rw [if_neg hne, List.map_cons, List.foldl_cons, ← hwhole.1]
      exact hrun
  | case3 data s hempty =>
    refine ⟨[], ?_, fun bodies hmem => absurd hmem List.not_mem_nil, ?_⟩
    · rw [streamBodies_nil (.inr (incomplete_of_length_lt (by omega)))]
      rfl
    · rw [deliverPackets, if_neg hempty]
      rfl

/-- The packets do not depend on what the callback does with them. -/
theorem deliverPackets_foldl (maxBytes : ℕ) (cb : σ → List UInt8 → σ) (data : List UInt8) (s : σ)
    (seen : List (List UInt8)) :
    deliverPackets maxBytes cb data (seen.foldl cb s) =
      (deliverPackets maxBytes (fun ps p => ps ++ [p]) data seen).foldl cb s := by
  induction data, seen using deliverPackets.induct maxBytes (fun ps p => ps ++ [p]) with
  | case1 data seen hpos filled hzero =>
    rw [deliverPackets, deliverPackets, if_pos hpos, if_pos hpos]
    dsimp only
    rw [if_pos hzero, if_pos hzero]
  | case2 data seen hpos filled hne ih =>
    rw [List.foldl_append, List.foldl_cons, List.foldl_nil] at ih
    rw [deliverPackets, deliverPackets.eq_def maxBytes (fun ps p => ps ++ [p]), if_pos hpos,
      if_pos hpos]
    dsimp only
    rw [if_neg hne, if_neg hne]
    exact ih
  | case3 data seen hempty =>
    rw [deliverPackets, deliverPackets, if_neg hempty, if_neg hempty]

theorem deliverPackets_eq (maxBytes : ℕ) (cb : σ → List UInt8 → σ) (data : List UInt8) (s : σ) :
    deliverPackets maxBytes cb data s = (packets maxBytes data).foldl cb s :=
  deliverPackets_foldl maxBytes cb data s []

/-- A packet is parsed to its messages. -/
theorem WholeMessages.streamBodies_eq {packet : List UInt8} {bodies : List (List UInt8)}
    (h : WholeMessages maxBytes packet bodies) : streamBodies packet = bodies := by
  rw [h.1]
  exact streamBodies_flatMap (fun b hb => (h.2.2.1 b hb).1) fun b hb => (h.2.2.1 b hb).2

/-- A handler behind the parser, packet by packet. -/
theorem foldl_parseStream (handler : σ → DecodedMessage → σ) {groups : List (List (List UInt8))}
    (hgroups : ∀ bodies ∈ groups, WholeMessages maxBytes (bodies.flatMap frame) bodies) (s : σ) :
    (groups.map fun bodies => bodies.flatMap frame).foldl
        (fun s p => (parseStream handler p s).2) s =
      (groups.flatten.map decoded).foldl handler s := by
  induction groups generalizing s with
  | nil => rfl
  | cons bodies groups ih =>
    obtain ⟨hwhole, hgroups⟩ := List.forall_mem_cons.mp hgroups
    rw [List.map_cons, List.foldl_cons, ih hgroups, parseStream_eq, hwhole.streamBodies_eq,
      List.flatten_cons, List.map_append, List.foldl_append]

/-- **Packetised delivery equals flat delivery.** The packets are whole messages that together are
the prefix `parse_stream` consumes, only a single message makes a packet larger than `max_bytes`, and
a handler that parses packet by packet ends where one that parses the whole buffer does. -/
theorem packetised_equals_flat (maxBytes : ℕ) (data : List UInt8)
    (handler : σ → DecodedMessage → σ) (s : σ) :
    (packets maxBytes data).flatten = (streamBodies data).flatMap frame
      ∧ (packets maxBytes data).flatten <+: data
      ∧ UInt64.ofNat (packets maxBytes data).flatten.length = (parseStream handler data s).1.bytes
      ∧ (∀ packet ∈ packets maxBytes data, ∃ bodies, WholeMessages maxBytes packet bodies)
      ∧ (packets maxBytes data).flatMap parsedMessages = parsedMessages data
      ∧ deliverPackets maxBytes (fun s packet => (parseStream handler packet s).2) data s =
        (parseStream handler data s).2 := by
  obtain ⟨groups, hflatten, hgroups, hpackets⟩ :=
    deliverPackets_spec maxBytes (fun ps p => ps ++ [p]) data []
  rw [foldl_snoc, List.nil_append] at hpackets
  replace hpackets : packets maxBytes data = groups.map fun bodies => bodies.flatMap frame :=
    hpackets
  have hconcat : (packets maxBytes data).flatten = (streamBodies data).flatMap frame := by
    rw [hpackets, ← hflatten, ← List.flatMap_id (L := groups), List.flatMap_assoc]
    exact (List.flatMap_def ..).symm
  refine ⟨hconcat, ?_, ?_, ?_, ?_, ?_⟩
  · rw [hconcat]
    exact streamBodies_prefix data
  · rw [hconcat, parseStream_eq, foldl_add]
    exact (UInt64.zero_add _).symm
  · intro packet hpacket
    rw [hpackets] at hpacket
    obtain ⟨bodies, hbodies, rfl⟩ := List.mem_map.mp hpacket
    exact ⟨bodies, hgroups bodies hbodies⟩
  · have hparsed (bodies : List (List UInt8)) (hmem : bodies ∈ groups) :
        parsedMessages (bodies.flatMap frame) = bodies.map decoded := by
      rw [parsedMessages_eq, (hgroups bodies hmem).streamBodies_eq]
    rw [parsedMessages_eq, ← hflatten, List.map_flatten, hpackets, List.flatMap_def, List.map_map]
    exact congrArg List.flatten (List.map_congr_left hparsed)
  · rw [deliverPackets_eq, hpackets, foldl_parseStream handler hgroups, hflatten, parseStream_eq]

end FileReplayReceiver

end ItchOrderbook
