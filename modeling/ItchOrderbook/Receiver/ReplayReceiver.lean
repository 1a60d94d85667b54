import ItchOrderbook.Parser.ItchParser

/-!
# File replay (`sw/receiver/replay_receiver.hpp`)

`FileReplayReceiver::deliver_packets` hands out a loaded stream in packets that end where a message
ends. As in the parser, a pointer into the buffer is the byte list from there on; `o = buf_.size()`
leaves the empty list.
-/

namespace ItchOrderbook

namespace FileReplayReceiver

variable {σ : Type*}

/-- The inner loop of `deliver_packets`, `pkt` bytes into a packet: the size of the packet and what
is left of the buffer at `o`. -/
def fillPacket (maxBytes : ℕ) (data : List UInt8) (pkt : ℕ) : ℕ × List UInt8 :=
  if 2 ≤ data.length then
    let blen := (be16 data).toNat
    if blen = 0 then (pkt, [])
    else
      let msz := 2 + blen
      if data.length < msz then (pkt, [])
      -- close this packet
      else if pkt ≠ 0 ∧ maxBytes < pkt + msz then (pkt, data)
      else fillPacket maxBytes (data.drop msz) (pkt + msz)
  else (pkt, data)
termination_by data.length
decreasing_by simp only [List.length_drop]; omega

/-- The cursor moves over the bytes of the packet at least. -/
theorem fillPacket_length (maxBytes : ℕ) (data : List UInt8) (pkt : ℕ) :
    (fillPacket maxBytes data pkt).1 + (fillPacket maxBytes data pkt).2.length ≤
      pkt + data.length := by
  induction data, pkt using fillPacket.induct maxBytes with
  | case1 data pkt h2 blen hzero =>
    rw [fillPacket, if_pos h2]
    simp [blen, hzero]
  | case2 data pkt h2 blen hpos msz hcut =>
    rw [fillPacket, if_pos h2]
    simp [blen, hpos, msz, hcut]
  | case3 data pkt h2 blen hpos msz hfull hclose =>
    rw [fillPacket, if_pos h2]
    simp [blen, hpos, msz, hfull, hclose]
  | case4 data pkt h2 blen hpos msz hfull hroom ih =>
    rw [fillPacket, if_pos h2]
    dsimp only
    rw [if_neg hpos, if_neg hfull, if_neg hroom]
    refine le_trans ih ?_
    rw [List.length_drop]
    omega
  | case5 data pkt h2 =>
    rw [fillPacket, if_neg h2]

/-- `deliver_packets`, from the cursor on. -/
def deliverPackets (maxBytes : ℕ) (cb : σ → List UInt8 → σ) (data : List UInt8) (s : σ) : σ :=
  if 0 < data.length then
    let filled := fillPacket maxBytes data 0
    if filled.1 = 0 then s
    else deliverPackets maxBytes cb filled.2 (cb s (data.take filled.1))
  else s
termination_by data.length
decreasing_by
  -- a packet that is not empty moved the cursor
  have hlength := fillPacket_length maxBytes data 0
  have hne : (fillPacket maxBytes data 0).1 ≠ 0 := by assumption
  show (fillPacket maxBytes data 0).2.length < data.length
  omega

/-- The packets of a buffer, in the order the callback sees them. -/
def packets (maxBytes : ℕ) (data : List UInt8) : List (List UInt8) :=
  deliverPackets maxBytes (fun ps p => ps ++ [p]) data []

end FileReplayReceiver

end ItchOrderbook
