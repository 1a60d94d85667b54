import Mathlib.Data.Nat.Notation

/-!
# Mold wrapper (`tools/mold_wrap.cpp`)

Wraps a length-prefixed file into MoldUDP64 packets: split the input into blocks, put every
`per_pkt` of them behind a header, leave out the packets that are to be dropped but advance the
sequence over them, and append a session-end packet unless told not to.
-/

namespace ItchOrderbook.MoldWrap

/-- The options of the command line, after the check of `--msgs-per-packet`. `drop` is the set of
packet indices to leave out. -/
structure Options where
  perPkt : ℕ := 4
  seq : UInt64 := 1
  endPkt : Bool := true
  drop : List UInt64 := []
  perPkt_pos : 0 < perPkt := by decide
  perPkt_lt : perPkt < 0xFFFF := by decide

/-- `put_be16`. -/
def putBe16 (v : List UInt8) (x : UInt16) : List UInt8 :=
  v ++ [(x >>> 8).toUInt8, (x &&& 0xFF).toUInt8]

/-- `put_be64`: the byte shifts from 56 down to 0. -/
def putBe64 (v : List UInt8) (x : UInt64) : List UInt8 :=
  [7, 6, 5, 4, 3, 2, 1, 0].foldl (fun v (i : UInt64) => v ++ [(x >>> (8 * i)).toUInt8]) v

/-- The session of every header. -/
def session : Vector UInt8 10 :=
  #v['O'.toUInt8, 'B'.toUInt8, 'S'.toUInt8, 'E'.toUInt8, 'S'.toUInt8, 'S'.toUInt8, '0'.toUInt8,
    '0'.toUInt8, '0'.toUInt8, '1'.toUInt8]

/-- `put_header`. -/
def putHeader (v : List UInt8) (seq : UInt64) (count : UInt16) : List UInt8 :=
  putBe16 (putBe64 (v ++ session.toList) seq) count

/-- The split loop from offset `o` on: offset and total length of every complete block. -/
def splitFrom (input : List UInt8) (o : ℕ) : List (ℕ × ℕ) :=
  if _h : o + 2 ≤ input.length then
    let blen := ((input.getD o 0).toUInt16 <<< 8 ||| (input.getD (o + 1) 0).toUInt16).toNat
    if blen = 0 ∨ o + 2 + blen > input.length then []
    else (o, 2 + blen) :: splitFrom input (o + 2 + blen)
  else []
termination_by input.length - o

/-- The blocks of a packet: `n` slices of the input, appended. -/
def putBlocks (input out : List UInt8) (blocks : List (ℕ × ℕ)) : List UInt8 :=
  blocks.foldl (fun out b => out ++ (input.drop b.1).take b.2) out

/-- The wrap loop over the blocks that are left, at packet `pktIdx`. -/
def wrapFrom (opt : Options) (input : List UInt8) (msgs : List (ℕ × ℕ)) (pktIdx seq : UInt64)
    (out : List UInt8) : UInt64 × List UInt8 :=
  if _h : msgs = [] then (seq, out)
  else
    let n := min opt.perPkt msgs.length
    if opt.drop.contains pktIdx then
      wrapFrom opt input (msgs.drop opt.perPkt) (pktIdx + 1) (seq + UInt64.ofNat n) out
    else
      let out := putHeader out seq (UInt16.ofNat n)
      let out := putBlocks input out (msgs.take n)
      wrapFrom opt input (msgs.drop opt.perPkt) (pktIdx + 1) (seq + UInt64.ofNat n) out
termination_by msgs.length
decreasing_by
  all_goals
    have := List.length_pos_iff.mpr _h
    have := opt.perPkt_pos
    rw [List.length_drop]
    omega

/-- The bytes `main` writes for an input. -/
def wrap (opt : Options) (input : List UInt8) : List UInt8 :=
  let (seq, out) := wrapFrom opt input (splitFrom input 0) 0 opt.seq []
  if opt.endPkt then putHeader out seq 0xFFFF else out

end ItchOrderbook.MoldWrap
