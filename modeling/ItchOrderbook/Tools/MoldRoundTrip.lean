import ItchOrderbook.Parser.MoldParserSpec
import ItchOrderbook.Tools.MoldWrap
import Mathlib.Algebra.BigOperators.Group.Finset.Basic
import Mathlib.Algebra.BigOperators.Intervals
import Mathlib.Algebra.Order.BigOperators.Group.Finset
import Mathlib.Data.List.Forall2
import Mathlib.Order.Interval.Finset.Nat

/-!
# Wrapping and unwrapping

What `mold_wrap` writes is a sequence of `Datagram`s: the packets that were kept, each with the
sequence number of its first message (`wrap_eq`). The walker passes on the blocks of exactly these
packets, and its gap counters count the runs of dropped packets between two kept ones
(`wrap_decap`).
-/

namespace ItchOrderbook.MoldWrap

open BigEndian Framing MoldParser

/-! ## Headers -/

theorem putBe16_eq (v : List UInt8) (x : UInt16) : putBe16 v x = v ++ toBytes 2 x.toNat := by
  have hlow : (x &&& 0xFF).toUInt8 = UInt8.ofNat (x.toNat / 256 ^ 0) := by
    apply UInt8.toNat_inj.mp
    have hmask : x.toNat &&& 255 = x.toNat % 2 ^ 8 := Nat.and_two_pow_sub_one_eq_mod x.toNat 8
    rw [UInt16.toNat_toUInt8, UInt16.toNat_and, show (0xFF : UInt16).toNat = 255 from rfl, hmask,
      UInt8.toNat_ofNat', pow_zero, Nat.div_one]
    exact Nat.mod_mod _ _
  have hhigh : (x >>> 8).toUInt8 = UInt8.ofNat (x.toNat / 256 ^ 1) := by
    apply UInt8.toNat_inj.mp
    simp [UInt16.toNat_shiftRight, Nat.shiftRight_eq_div_pow]
  rw [putBe16, hlow, hhigh]
  rfl

theorem putBe64_eq (v : List UInt8) (x : UInt64) : putBe64 v x = v ++ toBytes 8 x.toNat := by
  have hbyte (i : UInt64) (k : ℕ) (hk : k < 8) (hi : i = UInt64.ofNat k) :
      (x >>> (8 * i)).toUInt8 = UInt8.ofNat (x.toNat / 256 ^ k) := by
    apply UInt8.toNat_inj.mp
    have hshift : (8 * i).toNat % 64 = 8 * k := by
      have hk64 : (UInt64.ofNat k).toNat = k :=
        UInt64.toNat_ofNat_of_lt (hk.trans (by decide))
      rw [hi, UInt64.toNat_mul, hk64, show (8 : UInt64).toNat = 8 from rfl]
      omega
    rw [UInt64.toNat_toUInt8, UInt64.toNat_shiftRight, hshift, Nat.shiftRight_eq_div_pow, pow_mul,
      UInt8.toNat_ofNat']
    rfl
  simp only [putBe64, List.foldl_cons, List.foldl_nil, List.append_assoc]
  rw [hbyte 7 7 (by decide) rfl, hbyte 6 6 (by decide) rfl, hbyte 5 5 (by decide) rfl,
    hbyte 4 4 (by decide) rfl, hbyte 3 3 (by decide) rfl, hbyte 2 2 (by decide) rfl,
    hbyte 1 1 (by decide) rfl, hbyte 0 0 (by decide) rfl]
  rfl

theorem putHeader_eq (v : List UInt8) (seq : UInt64) (cnt : UInt16) :
    putHeader v seq cnt = v ++ headerBytes session seq cnt := by
  rw [putHeader, putBe16_eq, putBe64_eq, headerBytes]
  simp only [List.append_assoc]

/-! ## The input -/

/-- The messages of an input file. -/
structure Messages where
  bodies : List (List UInt8)
  ne_nil : ∀ b ∈ bodies, b ≠ []
  short : ∀ b ∈ bodies, b.length < 65536

/-- The input file. -/
def Messages.bytes (ms : Messages) : List UInt8 := ms.bodies.flatMap frame

/-- Each offset and length cuts the frame of its body out of the input. -/
def Slices (input : List UInt8) (msgs : List (ℕ × ℕ)) (bodies : List (List UInt8)) : Prop :=
  List.Forall₂ (fun p b => (input.drop p.1).take p.2 = frame b) msgs bodies

/-- The split loop finds every block. Induction on the bodies, the blocks in front skipped. -/
theorem splitFrom_slices {bodies : List (List UInt8)} (hne : ∀ b ∈ bodies, b ≠ [])
    (hshort : ∀ b ∈ bodies, b.length < 65536) (pre : List UInt8) :
    Slices (pre ++ bodies.flatMap frame) (splitFrom (pre ++ bodies.flatMap frame) pre.length)
      bodies := by
  induction bodies generalizing pre with
  | nil =>
    have hnil : splitFrom (pre ++ [].flatMap frame) pre.length = [] := by
      rw [splitFrom, dif_neg (by simp)]
    rw [hnil]
    exact List.Forall₂.nil
  | cons b bodies ih =>
    have hb := hshort b List.mem_cons_self
    have hpos : 0 < b.length := List.length_pos_iff.mpr (hne b List.mem_cons_self)
    set input := pre ++ (b :: bodies).flatMap frame with hinput
    have hcat : input = pre ++ frame b ++ bodies.flatMap frame := by
      rw [hinput, List.flatMap_cons, List.append_assoc]
    have hdrop : input.drop pre.length = frame b ++ bodies.flatMap frame := by
      rw [hcat, List.append_assoc, List.drop_left' rfl]
    have hlen : input.length = pre.length + (b.length + 2) + (bodies.flatMap frame).length := by
      rw [hcat, List.length_append, List.length_append, frame_length]
    -- the length the loop reads is the one the prefix announces
    have hblen : ((input.getD pre.length 0).toUInt16 <<< 8 |||
        (input.getD (pre.length + 1) 0).toUInt16).toNat = b.length := by
      have hbe : be16 (input.drop pre.length) = (input.getD pre.length 0).toUInt16 <<< 8 |||
          (input.getD (pre.length + 1) 0).toUInt16 := by
        rw [be16, getD_drop, getD_drop]
        rfl
      rw [← hbe, hdrop, be16_toNat (by rw [List.length_append, frame_length]; omega),
        announced_frame hb]
    have hnext := ih (fun b h => hne b (List.mem_cons_of_mem _ h))
      (fun b h => hshort b (List.mem_cons_of_mem _ h)) (pre ++ frame b)
    rw [← hcat, List.length_append, frame_length] at hnext
    rw [splitFrom, dif_pos (by omega)]
    dsimp only
    rw [hblen, if_neg (by omega)]
    apply List.Forall₂.cons
    · rw [hdrop, List.take_left' (by rw [frame_length, Nat.add_comm])]
    · rwa [show pre.length + 2 + b.length = pre.length + (b.length + 2) by omega]

theorem putBlocks_slices {input : List UInt8} {msgs : List (ℕ × ℕ)} {bodies : List (List UInt8)}
    (h : Slices input msgs bodies) (out : List UInt8) :
    putBlocks input out msgs = out ++ bodies.flatMap frame := by
  induction h generalizing out with
  | nil => simp [putBlocks]
  | cons hslice _ ih =>
    rw [putBlocks, List.foldl_cons, hslice]
    exact (ih _).trans (by rw [List.flatMap_cons, List.append_assoc])

/-! ## Packets -/

section Packets

variable (opt : Options) (ms : Messages)

/-- How many packets the messages fill. -/
def packets : ℕ := (ms.bodies.length + opt.perPkt - 1) / opt.perPkt

/-- How many messages lie in front of packet `k`. -/
def start (k : ℕ) : ℕ := min (opt.perPkt * k) ms.bodies.length

/-- The messages of packet `k`. -/
def packet (k : ℕ) : List (List UInt8) := (ms.bodies.drop (opt.perPkt * k)).take opt.perPkt

/-- Whether packet `k` is written. -/
def Options.kept (opt : Options) (k : ℕ) : Bool := !opt.drop.contains (UInt64.ofNat k)

/-- The sequence number of the first message of packet `k`. -/
def seqOf (k : ℕ) : UInt64 := opt.seq + UInt64.ofNat (start opt ms k)

theorem length_packet (k : ℕ) :
    (packet opt ms k).length = min opt.perPkt (ms.bodies.length - opt.perPkt * k) := by
  rw [packet, List.length_take, List.length_drop]

theorem start_succ (k : ℕ) : start opt ms (k + 1) = start opt ms k + (packet opt ms k).length := by
  rw [length_packet, start, start, Nat.mul_succ]
  omega

/-- The packet indices are those with a message to carry. -/
theorem lt_packets_iff (k : ℕ) : k < packets opt ms ↔ opt.perPkt * k < ms.bodies.length := by
  have hpos := opt.perPkt_pos
  rw [packets, Nat.lt_div_iff_mul_lt hpos, Nat.mul_comm k]
  omega

/-- The blocks of packet `k`. -/
def packetBlocks (k : ℕ) : Blocks where
  bodies := packet opt ms k
  ne_nil b h := ms.ne_nil b (List.mem_of_mem_drop (List.mem_of_mem_take h))
  short b h := ms.short b (List.mem_of_mem_drop (List.mem_of_mem_take h))
  few := by
    rw [length_packet]
    exact Nat.lt_of_le_of_lt (Nat.min_le_left _ _) opt.perPkt_lt

/-- Packet `k` as it is written. -/
def datagram (k : ℕ) : Datagram := .data session (seqOf opt ms k) (packetBlocks opt ms k)

/-- The packets that are written, in order. -/
def keptPackets : List ℕ := (List.range (packets opt ms)).filter opt.kept

/-- Everything that is written. -/
def datagrams : List Datagram :=
  (keptPackets opt ms).map (datagram opt ms) ++
    if opt.endPkt then [.sessionEnd session (seqOf opt ms (packets opt ms)) []] else []

theorem seqOf_succ (k : ℕ) :
    seqOf opt ms (k + 1) = seqOf opt ms k + UInt64.ofNat (packet opt ms k).length := by
  rw [seqOf, seqOf, start_succ, UInt64.ofNat_add, UInt64.add_assoc]

/-- The wrap loop from packet `k` on. Induction on the number of packets that are left. -/
theorem wrapFrom_eq {input : List UInt8} {msgs : List (ℕ × ℕ)} {k : ℕ} (out : List UInt8)
    (h : Slices input msgs (ms.bodies.drop (opt.perPkt * k))) (hk : k ≤ packets opt ms) :
    wrapFrom opt input msgs (UInt64.ofNat k) (seqOf opt ms k) out =
      (seqOf opt ms (packets opt ms),
        out ++ ((List.range' k (packets opt ms - k)).filter opt.kept).flatMap
          fun k => (datagram opt ms k).bytes) := by
  have hlen : msgs.length = ms.bodies.length - opt.perPkt * k := by
    rw [h.length_eq, List.length_drop]
  have hmore := lt_packets_iff opt ms k
  induction hn : packets opt ms - k generalizing k msgs out with
  | zero =>
    obtain rfl : k = packets opt ms := by omega
    have hnil : msgs = [] := List.length_eq_zero_iff.mp (by omega)
    rw [wrapFrom, dif_pos hnil, List.range'_zero, List.filter_nil, List.flatMap_nil,
      List.append_nil]
  | succ n ih =>
    have hcons : msgs ≠ [] := fun hnil => by
      rw [hnil, List.length_nil] at hlen
      omega
    have hsize : min opt.perPkt msgs.length = (packet opt ms k).length := by
      rw [length_packet, hlen]
    have hidx : UInt64.ofNat k + 1 = UInt64.ofNat (k + 1) := (UInt64.ofNat_add k 1).symm
    have hrest : Slices input (msgs.drop opt.perPkt) (ms.bodies.drop (opt.perPkt * (k + 1))) := by
      rw [Nat.mul_succ, ← List.drop_drop]
      exact List.forall₂_drop _ h
    have hblocks : Slices input (msgs.take (min opt.perPkt msgs.length)) (packet opt ms k) := by
      rw [← List.take_eq_take_min]
      exact List.forall₂_take _ h
    have ih (out : List UInt8) := ih out hrest (by omega)
      (by rw [hrest.length_eq, List.length_drop]) (lt_packets_iff opt ms (k + 1)) (by omega)
    rw [wrapFrom, dif_neg hcons]
    dsimp only
    rw [putBlocks_slices hblocks, putHeader_eq, hidx, hsize, ← seqOf_succ, ih, ih,
      List.range'_succ]
    -- a dropped packet still moves the sequence number; only its bytes stay out
    cases hd : opt.drop.contains (UInt64.ofNat k) with
    | true =>
      have hkept : opt.kept k = false := by rw [Options.kept, hd, Bool.not_true]
      rw [if_pos rfl, List.filter_cons_of_neg (by rw [hkept]; exact Bool.false_ne_true)]
    | false =>
      have hkept : opt.kept k = true := by rw [Options.kept, hd, Bool.not_false]
      rw [if_neg Bool.false_ne_true, List.filter_cons_of_pos hkept, List.flatMap_cons]
      simp only [List.append_assoc]
      rfl

/-- The wrapper writes its datagrams, nothing else. -/
theorem wrap_eq : wrap opt ms.bytes = (datagrams opt ms).flatMap Datagram.bytes := by
  have hslices := splitFrom_slices ms.ne_nil ms.short []
  have hall : Slices ms.bytes (splitFrom ms.bytes 0) (ms.bodies.drop (opt.perPkt * 0)) := by
    rw [Nat.mul_zero, List.drop_zero]
    exact hslices
  have hseq : seqOf opt ms 0 = opt.seq := by
    rw [seqOf, start, Nat.mul_zero, Nat.zero_min]
    exact UInt64.add_zero _
  have h := wrapFrom_eq opt ms [] hall (Nat.zero_le _)
  rw [hseq, Nat.sub_zero, ← List.range_eq_range', List.nil_append] at h
  rw [wrap, show (0 : UInt64) = UInt64.ofNat 0 from rfl, h, datagrams, List.flatMap_append,
    List.flatMap_map]
  dsimp only
  cases opt.endPkt with
  | true =>
    rw [if_pos rfl, if_pos rfl, putHeader_eq, List.flatMap_singleton, Datagram.bytes,
      List.append_nil]
    rfl
  | false =>
    rw [if_neg Bool.false_ne_true, if_neg Bool.false_ne_true, List.flatMap_nil, List.append_nil]
    rfl

end Packets

/-! ## Runs of dropped packets -/

section Gaps

variable (opt : Options) (ms : Messages)

/-- The maximal runs of dropped packets between two kept ones, among the first `n` packets. A run
is given by the two packets around it. -/
def gapRuns (n : ℕ) : Finset (ℕ × ℕ) :=
  (Finset.range n ×ˢ Finset.range n).filter fun p =>
    opt.kept p.1 ∧ opt.kept p.2 ∧ p.1 + 1 < p.2 ∧ ∀ k ∈ Finset.Ioo p.1 p.2, opt.kept k = false

/-- The messages of a run. -/
def runMsgs (p : ℕ × ℕ) : ℕ := ∑ k ∈ Finset.Ioo p.1 p.2, (packet opt ms k).length

theorem mem_gapRuns {n i j : ℕ} :
    (i, j) ∈ gapRuns opt n ↔ j < n ∧ opt.kept i ∧ opt.kept j ∧ i + 1 < j ∧
      ∀ k, i < k → k < j → opt.kept k = false := by
  simp only [gapRuns, Finset.mem_filter, Finset.mem_product, Finset.mem_range, Finset.mem_Ioo,
    and_imp]
  grind

theorem runMsgs_eq {i j : ℕ} (h : i < j) :
    runMsgs opt ms (i, j) = start opt ms j - start opt ms (i + 1) := by
  have hIoo : Finset.Ioo i j = Finset.Ico (i + 1) j := by
    ext k
    simp only [Finset.mem_Ioo, Finset.mem_Ico, Nat.succ_le_iff]
  rw [runMsgs, hIoo]
  clear hIoo
  -- the sum telescopes
  induction j, h using Nat.le_induction with
  | base => simp
  | succ j h ih =>
    have hmono : start opt ms (i + 1) ≤ start opt ms j := by
      have hmul : opt.perPkt * (i + 1) ≤ opt.perPkt * j := Nat.mul_le_mul_left _ h
      rw [start, start]
      omega
    rw [Finset.sum_Ico_succ_top h, start_succ opt ms j, ih]
    omega

/-- The last packet that was kept among the first `n`. -/
def LastKept (n j : ℕ) : Prop := j < n ∧ opt.kept j ∧ ∀ k, j < k → k < n → opt.kept k = false

theorem gapRuns_succ_of_dropped {n : ℕ} (h : opt.kept n = false) :
    gapRuns opt (n + 1) = gapRuns opt n := by
  ext ⟨i, j⟩
  rw [mem_gapRuns, mem_gapRuns]
  grind

theorem gapRuns_of_none {n : ℕ} (h : ∀ k < n, opt.kept k = false) : gapRuns opt (n + 1) = ∅ := by
  ext ⟨i, j⟩
  rw [mem_gapRuns]
  grind

/-- A kept packet right behind the last kept one ends no run. -/
theorem gapRuns_succ_of_next {n : ℕ} (h : LastKept opt (n + 1) n) :
    gapRuns opt (n + 1 + 1) = gapRuns opt (n + 1) := by
  ext ⟨i, j⟩
  rw [mem_gapRuns, mem_gapRuns]
  grind [LastKept]

/-- A kept packet further behind ends the run that began behind the last kept one. -/
theorem gapRuns_succ_of_gap {n j : ℕ} (hn : opt.kept n) (h : LastKept opt n j) (hgap : j + 1 < n) :
    gapRuns opt (n + 1) = insert (j, n) (gapRuns opt n) := by
  ext ⟨i, k⟩
  rw [Finset.mem_insert, mem_gapRuns, mem_gapRuns, Prod.mk.injEq]
  grind [LastKept]

/-! ## The walk over the packets -/

theorem start_mono {i j : ℕ} (h : i ≤ j) : start opt ms i ≤ start opt ms j := by
  have hmul := Nat.mul_le_mul_left opt.perPkt h
  rw [start, start]
  omega

theorem start_lt {i j : ℕ} (h : i < j) (hj : j < packets opt ms) :
    start opt ms i < start opt ms j := by
  have hmul := Nat.mul_lt_mul_of_pos_left h opt.perPkt_pos
  rw [lt_packets_iff] at hj
  rw [start, start]
  omega

/-- The sequence number has room for every message. -/
def Fits : Prop := opt.seq.toNat + ms.bodies.length < 2 ^ 64

variable {opt ms}

theorem toNat_seqOf (h : Fits opt ms) (k : ℕ) :
    (seqOf opt ms k).toNat = opt.seq.toNat + start opt ms k := by
  have hstart : start opt ms k ≤ ms.bodies.length := Nat.min_le_right _ _
  rw [Fits] at h
  rw [seqOf, UInt64.toNat_add, UInt64.toNat_ofNat']
  omega

theorem seqOf_sub (h : Fits opt ms) {i j : ℕ} (hij : i ≤ j) :
    seqOf opt ms j - seqOf opt ms i = UInt64.ofNat (start opt ms j - start opt ms i) := by
  have hle := start_mono opt ms hij
  have hstart : start opt ms j ≤ ms.bodies.length := Nat.min_le_right _ _
  have hi := toNat_seqOf h i
  have hj := toNat_seqOf h j
  rw [Fits] at h
  apply UInt64.toNat_inj.mp
  rw [UInt64.toNat_sub_of_le _ _ (UInt64.le_iff_toNat_le.mpr (by omega)), UInt64.toNat_ofNat']
  omega

variable (opt ms) in
/-- What the walk knows after the packets below `n`. The sequence number it expects is that of
the packet behind the last kept one. -/
structure Counted (n : ℕ) (p : MoldStats × List (List UInt8)) : Prop where
  bodies : p.2 = ((List.range n).filter opt.kept).flatMap (packet opt ms)
  fresh : p.1.stalePackets = 0
  whole : p.1.truncated = false
  running : p.1.sessionEnd = false
  events : p.1.gapEvents = UInt64.ofNat (gapRuns opt n).card
  msgs : p.1.gapMsgs = UInt64.ofNat (∑ r ∈ gapRuns opt n, runMsgs opt ms r)
  last : ((∀ k < n, opt.kept k = false) ∧ p.1.seqInit = false) ∨
    ∃ j, LastKept opt n j ∧ p.1.seqInit = true ∧ p.1.nextSeq = seqOf opt ms (j + 1) ∧
      ∑ r ∈ gapRuns opt n, runMsgs opt ms r ≤ start opt ms (j + 1)

/-- A dropped packet leaves the walk as it is. -/
theorem Counted.dropped {n : ℕ} {p : MoldStats × List (List UInt8)} (h : Counted opt ms n p)
    (hn : opt.kept n = false) : Counted opt ms (n + 1) p where
  bodies := by
    rw [h.bodies, List.range_succ, List.filter_append,
      List.filter_cons_of_neg (by rw [hn]; exact Bool.false_ne_true), List.filter_nil,
      List.append_nil]
  fresh := h.fresh
  whole := h.whole
  running := h.running
  events := by rw [h.events, gapRuns_succ_of_dropped opt hn]
  msgs := by rw [h.msgs, gapRuns_succ_of_dropped opt hn]
  last := by
    rw [gapRuns_succ_of_dropped opt hn]
    rcases h.last with ⟨hnone, hinit⟩ | ⟨j, hj, hrest⟩
    · exact Or.inl ⟨by grind, hinit⟩
    · exact Or.inr ⟨j, by grind [LastKept], hrest⟩

/-- A kept packet is never stale: the walk has seen no later one. -/
theorem Counted.isStale_eq {n : ℕ} {p : MoldStats × List (List UInt8)} (h : Counted opt ms n p)
    (hfits : Fits opt ms) : isStale p.1 (seqOf opt ms n) = false := by
  rcases h.last with ⟨-, hinit⟩ | ⟨j, hj, -, hnext, -⟩
  · rw [isStale, hinit, Bool.false_and]
  · have hle : start opt ms (j + 1) ≤ start opt ms n := start_mono opt ms hj.1
    have hge : ¬ seqOf opt ms n < p.1.nextSeq := by
      rw [hnext, UInt64.lt_iff_toNat_lt, toNat_seqOf hfits, toNat_seqOf hfits]
      omega
    rw [isStale, decide_eq_false hge, Bool.and_false]

/-- It jumps ahead exactly when it is not the one behind the last kept packet. -/
theorem Counted.jumpsAhead_eq {n j : ℕ} {p : MoldStats × List (List UInt8)}
    (hfits : Fits opt ms) (hn : n < packets opt ms) (hj : LastKept opt n j)
    (hinit : p.1.seqInit = true) (hnext : p.1.nextSeq = seqOf opt ms (j + 1)) :
    jumpsAhead p.1 (seqOf opt ms n) = decide (j + 1 < n) := by
  rw [jumpsAhead, hinit, Bool.true_and, hnext]
  apply decide_eq_decide.mpr
  rw [UInt64.lt_iff_toNat_lt, toNat_seqOf hfits, toNat_seqOf hfits]
  constructor
  · intro hlt
    have hne : n ≠ j + 1 := fun heq => by rw [heq] at hlt; omega
    have := hj.1
    omega
  · intro hlt
    have := start_lt opt ms hlt hn
    omega

/-- The step of a kept packet, up to the count of the runs. -/
theorem Counted.kept_of {n : ℕ} {p : MoldStats × List (List UInt8)} (h : Counted opt ms n p)
    (hfits : Fits opt ms) (hn : opt.kept n = true)
    (hevents : (if jumpsAhead p.1 (seqOf opt ms n) then p.1.gapEvents + 1 else p.1.gapEvents) =
      UInt64.ofNat (gapRuns opt (n + 1)).card)
    (hmsgs : (if jumpsAhead p.1 (seqOf opt ms n)
        then p.1.gapMsgs + (seqOf opt ms n - p.1.nextSeq) else p.1.gapMsgs) =
      UInt64.ofNat (∑ r ∈ gapRuns opt (n + 1), runMsgs opt ms r))
    (hle : ∑ r ∈ gapRuns opt (n + 1), runMsgs opt ms r ≤ start opt ms (n + 1)) :
    Counted opt ms (n + 1) (walkStep p (datagram opt ms n)) := by
  have hstep : walkStep p (datagram opt ms n) = (_, _) :=
    if_neg (by rw [h.running]; exact Bool.false_ne_true)
  have hstale := h.isStale_eq hfits
  rw [hstale, if_neg Bool.false_ne_true, afterData_of_fresh hstale] at hstep
  have hnext : seqOf opt ms n + (packetBlocks opt ms n).count.toUInt64 = seqOf opt ms (n + 1) := by
    rw [Blocks.toUInt64_count, seqOf_succ]
    rfl
  have hlast : LastKept opt (n + 1) n := ⟨Nat.lt_succ_self n, hn, fun k _ _ => by omega⟩
  have hbodies : p.2 ++ packet opt ms n =
      ((List.range (n + 1)).filter opt.kept).flatMap (packet opt ms) := by
    rw [List.range_succ, List.filter_append, List.filter_cons_of_pos hn, List.filter_nil,
      List.flatMap_append, List.flatMap_singleton, h.bodies]
  rw [hstep]
  exact ⟨hbodies, h.fresh, h.whole, h.running, hevents, hmsgs, Or.inr ⟨n, hlast, rfl, hnext, hle⟩⟩

/-- A kept packet: its messages pass, and if packets were dropped in front of it a run ends. -/
theorem Counted.kept {n : ℕ} {p : MoldStats × List (List UInt8)} (h : Counted opt ms n p)
    (hfits : Fits opt ms) (hn : opt.kept n = true) (hlt : n < packets opt ms) :
    Counted opt ms (n + 1) (walkStep p (datagram opt ms n)) := by
  have hmono : start opt ms n ≤ start opt ms (n + 1) := start_mono opt ms (Nat.le_succ n)
  rcases h.last with ⟨hnone, hinit⟩ | ⟨j, hj, hinit, hseq, hle⟩
  · -- the first kept packet
    have hjump : jumpsAhead p.1 (seqOf opt ms n) = false := by
      rw [jumpsAhead, hinit, Bool.false_and]
    have hempty : gapRuns opt (n + 1) = gapRuns opt n := by
      rw [gapRuns_of_none opt hnone]
      ext ⟨i, j⟩
      rw [mem_gapRuns]
      grind
    apply h.kept_of hfits hn
    · rw [hjump, hempty]
      exact h.events
    · rw [hjump, hempty]
      exact h.msgs
    · rw [gapRuns_of_none opt hnone]
      exact Nat.zero_le _
  · have hjump := jumpsAhead_eq hfits hlt hj hinit hseq
    rcases Nat.lt_or_ge (j + 1) n with hgap | hgap
    · -- the end of a run
      have hnot : (j, n) ∉ gapRuns opt n := fun hmem => by
        rw [mem_gapRuns] at hmem
        omega
      have hrun := runMsgs_eq opt ms hj.1
      have hmono' := start_mono opt ms hgap.le
      rw [decide_eq_true hgap] at hjump
      apply h.kept_of hfits hn
      · rw [gapRuns_succ_of_gap opt hn hj hgap, Finset.card_insert_of_notMem hnot, if_pos hjump,
          h.events, UInt64.ofNat_add]
        rfl
      · rw [gapRuns_succ_of_gap opt hn hj hgap, Finset.sum_insert hnot, if_pos hjump, h.msgs,
          hseq, seqOf_sub hfits hgap.le, hrun, UInt64.ofNat_add]
        exact UInt64.add_comm _ _
      · rw [gapRuns_succ_of_gap opt hn hj hgap, Finset.sum_insert hnot, hrun]
        omega
    · -- no packet was dropped in front of it
      obtain rfl : n = j + 1 := by
        have := hj.1
        omega
      have hlast : LastKept opt (j + 1) j := hj
      rw [decide_eq_false (Nat.lt_irrefl _)] at hjump
      apply h.kept_of hfits hn
      · rw [hjump, gapRuns_succ_of_next opt hlast]
        exact h.events
      · rw [hjump, gapRuns_succ_of_next opt hlast]
        exact h.msgs
      · rw [gapRuns_succ_of_next opt hlast]
        exact hle.trans hmono

/-- The walk over the kept packets below `n`. Induction on `n`. -/
theorem counted_range (hfits : Fits opt ms) {n : ℕ} (hn : n ≤ packets opt ms) :
    Counted opt ms n
      ((((List.range n).filter opt.kept).map (datagram opt ms)).foldl walkStep ({}, [])) := by
  induction n with
  | zero =>
    exact ⟨rfl, rfl, rfl, rfl, rfl, rfl, Or.inl ⟨fun k hk => absurd hk (Nat.not_lt_zero k), rfl⟩⟩
  | succ n ih =>
    have ih := ih (Nat.le_of_succ_le hn)
    rw [List.range_succ, List.filter_append]
    cases hk : opt.kept n with
    | true =>
      rw [List.filter_cons_of_pos hk, List.filter_nil, List.map_append, List.foldl_append]
      exact ih.kept hfits hk hn
    | false =>
      rw [List.filter_cons_of_neg (by rw [hk]; exact Bool.false_ne_true), List.filter_nil,
        List.append_nil]
      exact ih.dropped hk

/-- There are no more messages in dropped runs than messages, and no more runs. -/
theorem Counted.sum_le {n : ℕ} {p : MoldStats × List (List UInt8)} (h : Counted opt ms n p) :
    ∑ r ∈ gapRuns opt n, runMsgs opt ms r ≤ ms.bodies.length := by
  rcases h.last with ⟨hnone, -⟩ | ⟨j, -, -, -, hle⟩
  · have hempty : gapRuns opt n = ∅ := by
      ext ⟨i, j⟩
      rw [mem_gapRuns]
      grind
    rw [hempty]
    exact Nat.zero_le _
  · exact hle.trans (Nat.min_le_right _ _)

theorem card_gapRuns_le {n : ℕ} (hn : n ≤ packets opt ms) :
    (gapRuns opt n).card ≤ ∑ r ∈ gapRuns opt n, runMsgs opt ms r := by
  rw [Finset.card_eq_sum_ones]
  apply Finset.sum_le_sum
  rintro ⟨i, j⟩ hr
  obtain ⟨hj, -, -, hgap, -⟩ := (mem_gapRuns opt).mp hr
  have hlt := start_lt opt ms hgap (Nat.lt_of_lt_of_le hj hn)
  rw [runMsgs_eq opt ms (Nat.lt_of_succ_lt hgap)]
  omega

end Gaps

/-! ## The round trip -/

/-- Unwrapping what was wrapped gives the messages of the kept packets. No packet is stale or cut,
the gap counters count the runs of dropped packets between two kept ones and the messages in them,
and the handler form sees the messages a parse of the unwrapped bytes sees. -/
theorem wrap_decap (opt : Options) (ms : Messages)
    (hseq : opt.seq.toNat + ms.bodies.length < 2 ^ 64) {σ : Type*}
    (handler : σ → DecodedMessage → σ) (s : σ) :
    let st := (decap (wrap opt ms.bytes)).1
    let bytes := (decap (wrap opt ms.bytes)).2
    bytes = (keptPackets opt ms).flatMap (fun k => (packet opt ms k).flatMap frame) ∧
      st.stalePackets = 0 ∧ st.truncated = false ∧ st.sessionEnd = opt.endPkt ∧
      st.gapEvents.toNat = (gapRuns opt (packets opt ms)).card ∧
      st.gapMsgs.toNat = ∑ r ∈ gapRuns opt (packets opt ms), runMsgs opt ms r ∧
      MoldParser.parseStream handler (wrap opt ms.bytes) s =
        (st, (ItchOrderbook.parseStream handler bytes s).2) := by
  have hcount := counted_range (show Fits opt ms from hseq) (Nat.le_refl (packets opt ms))
  have hsum := hcount.sum_le
  have hcard : (gapRuns opt (packets opt ms)).card ≤ _ := card_gapRuns_le (Nat.le_refl _)
  set p := ((keptPackets opt ms).map (datagram opt ms)).foldl walkStep ({}, []) with hp
  -- the packet that ends the session only sets its flag
  have hwalk : walkPackets (datagrams opt ms) =
      ({ p.1 with
          packets := if opt.endPkt then p.1.packets + 1 else p.1.packets
          sessionEnd := opt.endPkt }, p.2) := by
    have hrunning : p.1.sessionEnd = false := hcount.running
    rw [walkPackets, datagrams, List.foldl_append, ← hp]
    cases hend : opt.endPkt with
    | true => exact if_neg (by rw [hrunning]; exact Bool.false_ne_true)
    | false =>
      rw [if_neg Bool.false_ne_true, List.foldl_nil, if_neg Bool.false_ne_true, ← hrunning]
  have hbodies : p.2 = (keptPackets opt ms).flatMap (packet opt ms) := hcount.bodies
  have hshort : ∀ b ∈ p.2, b.length < 65536 := fun b hb => by
    rw [hbodies, List.mem_flatMap] at hb
    obtain ⟨k, -, hk⟩ := hb
    exact (packetBlocks opt ms k).short b hk
  have hne : ∀ b ∈ p.2, b ≠ [] := fun b hb => by
    rw [hbodies, List.mem_flatMap] at hb
    obtain ⟨k, -, hk⟩ := hb
    exact (packetBlocks opt ms k).ne_nil b hk
  dsimp only
  rw [wrap_eq, decap_datagrams, parseStream_datagrams, hwalk]
  dsimp only
  refine ⟨?_, hcount.fresh, hcount.whole, rfl, ?_, ?_, ?_⟩
  · rw [hbodies, List.flatMap_assoc]
  · rw [show p.1.gapEvents = _ from hcount.events]
    exact UInt64.toNat_ofNat_of_lt (by simp only [UInt64.size]; omega)
  · rw [show p.1.gapMsgs = _ from hcount.msgs]
    exact UInt64.toNat_ofNat_of_lt (by simp only [UInt64.size]; omega)
  · rw [parseStream_eq, streamBodies_flatMap hne hshort]

/-- Of three packets the one in the middle is dropped: one gap of one message. -/
theorem wrap_decap_middle_dropped :
    let opt : Options := { perPkt := 1, drop := [1] }
    let ms : Messages := ⟨[[1], [2, 3], [4]], by decide, by decide⟩
    (decap (wrap opt ms.bytes)).2 = [0, 1, 1, 0, 1, 4] ∧
      (decap (wrap opt ms.bytes)).1.gapEvents.toNat = 1 ∧
      (decap (wrap opt ms.bytes)).1.gapMsgs.toNat = 1 := by
  intro opt ms
  obtain ⟨hbytes, -, -, -, hevents, hmsgs, -⟩ :=
    wrap_decap opt ms (by decide) (fun (n : ℕ) _ => n + 1) 0
  exact ⟨hbytes.trans (by decide), hevents.trans (by decide), hmsgs.trans (by decide)⟩

end ItchOrderbook.MoldWrap
