import ItchOrderbook.Parser.ItchParser

/-!
# MoldUDP64 walker (`sw/parser/mold_parser.hpp`)

A `.mold` file is a concatenation of packets, each a 20-byte header
(`session[10] | seq[8] | count[2]`) and `count` length-prefixed blocks. `MoldParser::walk` hands
every block of every packet that the sequence policy applies to a function; `parse_stream` and
`decap` are its two uses.
-/

namespace ItchOrderbook

/-- `struct MoldStats`. -/
structure MoldStats where
  packets : UInt64 := 0
  heartbeats : UInt64 := 0
  messages : UInt64 := 0
  gapEvents : UInt64 := 0
  gapMsgs : UInt64 := 0
  stalePackets : UInt64 := 0
  nextSeq : UInt64 := 0
  seqInit : Bool := false
  sessionEnd : Bool := false
  truncated : Bool := false
  deriving DecidableEq, Repr

namespace MoldParser

/-- `HDR_BYTES`. -/
def hdrBytes : ℕ := 20

/-- `cnt == 0xFFFF`. -/
def endCount : UInt16 := 0xFFFF

variable {σ : Type*}

/-- The block loop of one packet, `n` blocks still to walk. `none` is the early return on a
truncated stream, otherwise the data behind the packet is left. -/
def walkBlocks (blockFn : σ → List UInt8 → σ) (stale : Bool) :
    ℕ → List UInt8 → MoldStats → σ → Option (List UInt8) × MoldStats × σ
  | 0, data, st, s => (some data, st, s)
  | n + 1, data, st, s =>
    if data.length < 2 then (none, { st with truncated := true }, s)
    else
      let blen := (be16 data).toNat
      if blen = 0 ∨ data.length < 2 + blen then (none, { st with truncated := true }, s)
      else if stale then walkBlocks blockFn stale n (data.drop (2 + blen)) st s
      else
        walkBlocks blockFn stale n (data.drop (2 + blen)) { st with messages := st.messages + 1 }
          (blockFn s (data.take (2 + blen)))

/-- The block loop does not move backwards. -/
theorem walkBlocks_length_le (blockFn : σ → List UInt8 → σ) (stale : Bool) (n : ℕ)
    (data rest : List UInt8) (st : MoldStats) (s : σ)
    (h : (walkBlocks blockFn stale n data st s).1 = some rest) : rest.length ≤ data.length := by
  induction n generalizing data st s with
  | zero =>
    obtain rfl : data = rest := Option.some_inj.mp h
    exact Nat.le_refl _
  | succ n ih =>
    have hdrop (k : ℕ) : (data.drop k).length ≤ data.length := by
      rw [List.length_drop]
      exact Nat.sub_le _ _
    rw [walkBlocks] at h
    dsimp only at h
    repeat' split at h
    · cases h
    · cases h
    · exact (ih _ _ _ h).trans (hdrop _)
    · exact (ih _ _ _ h).trans (hdrop _)

/-- The accounting of a header in front of its blocks: a jump ahead is a gap. -/
def openPacket (st : MoldStats) (seq : UInt64) : MoldStats :=
  if st.seqInit ∧ seq > st.nextSeq then
    { st with gapEvents := st.gapEvents + 1, gapMsgs := st.gapMsgs + (seq - st.nextSeq) }
  else st

/-- The accounting behind the blocks of a packet. -/
def closePacket (st : MoldStats) (seq : UInt64) (cnt : UInt16) (stale : Bool) : MoldStats :=
  let st := if stale then { st with stalePackets := st.stalePackets + 1 }
    else { st with nextSeq := seq + cnt.toUInt64, seqInit := true }
  if cnt = 0 then { st with heartbeats := st.heartbeats + 1 } else st

/-- `MoldParser::walk` from some offset on, where `data` is what is left there. -/
def walkFrom (blockFn : σ → List UInt8 → σ) (data : List UInt8) (st : MoldStats) (s : σ) :
    MoldStats × σ :=
  if data.length < hdrBytes then (st, s)
  else
    let seq := be64 (data.drop 10)
    let cnt := be16 (data.drop 18)
    let st := { st with packets := st.packets + 1 }
    if cnt = endCount then ({ st with sessionEnd := true }, s)
    else
      let stale := st.seqInit && decide (seq < st.nextSeq)
      match _h : walkBlocks blockFn stale cnt.toNat (data.drop hdrBytes) (openPacket st seq) s with
      | (none, st, s) => (st, s)
      | (some rest, st, s) => walkFrom blockFn rest (closePacket st seq cnt stale) s
termination_by data.length
decreasing_by
  have hle := walkBlocks_length_le _ _ _ _ rest _ _ (congrArg Prod.fst _h)
  rw [List.length_drop] at hle
  simp only [hdrBytes] at *
  omega

/-- `MoldParser::walk`. -/
def walk (blockFn : σ → List UInt8 → σ) (data : List UInt8) (s : σ) : MoldStats × σ :=
  walkFrom blockFn data {} s

/-- `MoldParser::parse_stream`. -/
def parseStream (handler : σ → DecodedMessage → σ) (data : List UInt8) (s : σ) : MoldStats × σ :=
  walk (fun s block => handler s (decodeBody (block.drop 2) (block.length - 2))) data s

/-- `MoldParser::decap`. -/
def decap (data : List UInt8) : MoldStats × List UInt8 :=
  walk (fun out block => out ++ block) data []

end MoldParser

end ItchOrderbook
