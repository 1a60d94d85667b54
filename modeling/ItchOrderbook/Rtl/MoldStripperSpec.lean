import ItchOrderbook.Parser.ItchParser
import ItchOrderbook.Rtl.MoldStripper
import Mathlib

/-!
# What the stripper delivers

`Decap` is what the stripper computes, without its pipeline: header bytes are collected, the policy
is applied when the twentieth arrives, payload is appended or dropped. The stripper with its two
pipeline registers simulates it whatever the beats and the stalls (`deliver_inv`), so what leaves
it is what `decapFold` makes of the datagrams (`stripper_delivers`).
-/

namespace ItchOrderbook.Rtl

/-! ## The stripper without its pipeline -/

/-- The header bytes of the current datagram, how many are missing, whether its payload is
dropped, the telemetry and the payload so far. -/
structure Decap where
  hdr : List UInt8 := []
  left : ℕ := 0
  drop : Bool := false
  tel : Telemetry := {}
  out : List UInt8 := []

namespace Decap

/-- The policy on the fields of a header. -/
def judge (tel : Telemetry) (hdr : List UInt8) : Telemetry × Bool :=
  StripperState.policy tel (be64 (hdr.drop 10)) (be16 (hdr.drop 18))

/-- A datagram starts. -/
def start (a : Decap) : Decap := { a with hdr := [], left := 20 }

/-- Bytes of the header; the last of them decides. -/
def header (a : Decap) (bs : List UInt8) : Decap :=
  let a' := { a with hdr := a.hdr ++ bs, left := a.left - bs.length }
  if a'.left = 0 then
    { a' with tel := (judge a.tel a'.hdr).1, drop := (judge a.tel a'.hdr).2 }
  else a'

/-- Bytes of the payload. -/
def body (a : Decap) (bs : List UInt8) : Decap :=
  if a.drop then a else { a with out := a.out ++ bs }

@[simp] theorem body_nil (a : Decap) : a.body [] = a := by
  unfold body
  split
  · rfl
  · rw [List.append_nil]

/-- The bytes of a beat, first those the header is still missing. -/
def feed (a : Decap) (t : Bool × List UInt8) : Decap :=
  let a := if t.1 then a.start else a
  if a.left = 0 then a.body t.2 else (a.header (t.2.take a.left)).body (t.2.drop a.left)

end Decap

namespace StripperState

/-! ## The registers in numbers -/

theorem hdrActive_eq (s : StripperState) : s.hdrActive = (s.hdrLeftEff.toNat != 0) := by
  rw [hdrActive, Bool.eq_iff_iff, bne_iff_ne, bne_iff_ne, ne_eq, ne_eq, BitVec.toNat_eq]
  rfl

theorem k_toNat (s : StripperState) :
    s.k.toNat = min s.hdrLeftEff.toNat s.aBeat.nbytes.toNat := by
  unfold k
  split
  · rename_i h
    have := BitVec.lt_def.mp h
    omega
  · rename_i h
    have : ¬ s.hdrLeftEff.toNat < s.aBeat.nbytes.toNat := fun hlt => h (BitVec.lt_def.mpr hlt)
    omega

theorem hdrLeftEff_sub_k (s : StripperState) :
    (s.hdrLeftEff - s.k).toNat = s.hdrLeftEff.toNat - s.aBeat.nbytes.toNat := by
  have hk := s.k_toNat
  rw [BitVec.toNat_sub_of_le (BitVec.le_def.mpr (by omega))]
  omega

theorem completes_eq (s : StripperState) :
    s.completes = decide (s.hdrLeftEff.toNat ≠ 0 ∧ s.hdrLeftEff.toNat ≤ s.aBeat.nbytes.toNat) := by
  have hk := s.k_toNat
  have heq : (s.k == s.hdrLeftEff) = decide (s.k.toNat = s.hdrLeftEff.toNat) := by
    rw [Bool.eq_iff_iff, beq_iff_eq, decide_eq_true_iff, BitVec.toNat_eq]
  rw [completes, hdrActive_eq, heq, Bool.eq_iff_iff, Bool.and_eq_true, bne_iff_ne,
    decide_eq_true_iff, decide_eq_true_iff]
  omega

theorem hdrPay_eq (s : StripperState) :
    s.hdrPay = decide (s.hdrLeftEff.toNat ≠ 0 ∧ s.hdrLeftEff.toNat < s.aBeat.nbytes.toNat) := by
  have hk := s.k_toNat
  rw [hdrPay, completes_eq, Bool.eq_iff_iff, Bool.and_eq_true, decide_eq_true_iff,
    decide_eq_true_iff, decide_eq_true_iff, BitVec.lt_def]
  omega

/-- The bytes in stage A that are still to be used. -/
def held (s : StripperState) : List UInt8 := s.aBeat.bytes.drop s.aOff.toNat

/-- The bytes in the output register. -/
def outBytes (s : StripperState) : List UInt8 := if s.outValid then s.outBeat.bytes else []

/-- The payload beat carries the bytes held in stage A. -/
theorem payload_bytes {s : StripperState} (hok : s.aBeat.Ok) (hoff : s.aOff < s.aBeat.nbytes) :
    s.payload.Ok ∧ s.payload.bytes = s.held := by
  have hlt := BitVec.lt_def.mp hoff
  have hn : s.payload.nbytes.toNat = s.aBeat.nbytes.toNat - s.aOff.toNat :=
    BitVec.toNat_sub_of_le (BitVec.le_def.mpr hlt.le)
  refine ⟨⟨by omega, by have := hok.2; omega⟩, ?_⟩
  apply List.ext_getElem?
  intro j
  have h16 := hok.2
  rw [Beat.bytes, List.getElem?_take, hn, held, Beat.bytes, List.getElem?_drop, List.getElem?_take]
  rcases Nat.lt_or_ge j (s.aBeat.nbytes.toNat - s.aOff.toNat) with h | h
  · rw [if_pos h, if_pos (by omega)]
    simp [payload, show j < 16 by omega, show j + s.aOff.toNat < 16 by omega,
      Nat.add_comm s.aOff.toNat j]
  · rw [if_neg (by omega), if_neg (by omega)]

/-! ## The simulation -/

/-- The registers behind stage A say what `a` says. While the policy is still to be applied, `a` is
ahead of them by it. -/
structure Core (s : StripperState) (a : Decap) : Prop where
  left : a.left = s.hdrLeft.toNat
  left_le : a.left ≤ 20
  hdr_length : a.left ≠ 0 → a.hdr.length + a.left = 20
  hdr : a.left ≠ 0 → ∀ j (hj : j < 20), j < a.hdr.length → a.hdr[j]? = some s.hdr[j]
  stream : s.phase = .stream → (a.tel, a.drop) = (s.tel, s.drop)
  decide : s.phase = .decide → (a.tel, a.drop) = policy s.tel s.seq s.cnt ∧ a.left = 0
  out : s.outValid = true → s.outBeat.Ok

/-- Stage A holds a beat, and header bytes are only skipped in one whose header is complete. -/
structure Held (s : StripperState) : Prop where
  ok : s.aValid = true → s.aBeat.Ok
  off : s.aOff ≠ 0 → s.aValid = true ∧ s.aSop = false ∧ s.hdrLeft = 0 ∧ s.aOff < s.aBeat.nbytes

/-- What `a` becomes when the beat in stage A has passed too. -/
def absorb (s : StripperState) (a : Decap) : Decap :=
  if s.aValid then a.feed (s.aSop, s.held) else a

variable {s : StripperState} {a : Decap}

theorem absorb_of_body (hv : s.aValid = true) (hs : s.aSop = false) (hl : a.left = 0) :
    s.absorb a = a.body s.held := by
  rw [absorb, if_pos hv, Decap.feed, hs]
  exact if_pos hl

/-- The header bytes still missing are those `a` misses once the beat has started its datagram. -/
theorem Core.hdrLeftEff_eq (h : Core s a) (hv : s.aValid = true) :
    s.hdrLeftEff.toNat = (if s.aSop then a.start else a).left := by
  cases hs : s.aSop with
  | true => simp [hdrLeftEff, hv, hs, hdrBytes, Decap.start]
  | false => simp [hdrLeftEff, hs, h.left]

/-- While header bytes are missing nothing in stage A has been used. -/
theorem Held.off_eq (h : Held s) (hl : s.hdrLeftEff.toNat ≠ 0) :
    s.aOff = 0 := by
  by_contra hne
  obtain ⟨-, hs, hzero, -⟩ := h.off hne
  rw [hdrLeftEff, hs, Bool.and_false, if_neg Bool.false_ne_true, hzero] at hl
  exact hl rfl

theorem hdrN_getElem_eq (s : StripperState) (j : ℕ) (hj : j < 20) :
    s.hdrN[j] =
      if 20 - s.hdrLeftEff.toNat ≤ j ∧ j - (20 - s.hdrLeftEff.toNat) < s.k.toNat then
        (s.aBeat.data[j - (20 - s.hdrLeftEff.toNat)]?).getD s.hdr[j]
      else s.hdr[j] := by
  rw [hdrN, Vector.getElem_ofFn]
  rfl

/-- The header with the bytes of the beat in stage A. -/
theorem hdrN_getElem (hok : s.aBeat.Ok) {hdr : List UInt8}
    (hlen : hdr.length + s.hdrLeftEff.toNat = 20)
    (hhdr : ∀ j (hj : j < 20), j < hdr.length → hdr[j]? = some s.hdr[j]) (j : ℕ) (hj : j < 20)
    (hlt : j < (hdr ++ s.aBeat.bytes.take s.hdrLeftEff.toNat).length) :
    (hdr ++ s.aBeat.bytes.take s.hdrLeftEff.toNat)[j]? = some s.hdrN[j] := by
  have hk := s.k_toNat
  have hbytes := hok.bytes_length
  have h16 := hok.2
  rw [List.length_append, List.length_take, hbytes] at hlt
  have hfirst : 20 - s.hdrLeftEff.toNat = hdr.length := by omega
  rw [hdrN_getElem_eq, hfirst]
  rcases Nat.lt_or_ge j hdr.length with hl | hl
  · rw [List.getElem?_append_left hl, if_neg (fun hc => by omega), hhdr j hj hl]
  · have hlane : j - hdr.length < 16 := by omega
    have hpos : hdr.length ≤ j ∧ j - hdr.length < s.k.toNat := by omega
    rw [List.getElem?_append_right hl, if_pos hpos, List.getElem?_take_of_lt (by omega), Beat.bytes,
      List.getElem?_take_of_lt (by omega)]
    simp [hlane]

/-- The registers after the output register was drained. -/
def drained (s : StripperState) (r : Bool) : StripperState :=
  { s with outValid := s.outValid && !r }

/-- The bytes that leave in a cycle. -/
def givenBytes (s : StripperState) (r : Bool) : List UInt8 :=
  if s.outValid && r then s.outBeat.bytes else []

/-- What leaves and what stays in the output register. -/
theorem givenBytes_append (s : StripperState) (r : Bool) :
    s.givenBytes r ++ (s.drained r).outBytes = s.outBytes := by
  cases hv : s.outValid <;> cases r <;> simp [givenBytes, drained, outBytes, hv]

/-! ## The state machine, case by case -/

section Control

variable (r : Bool) (n : StripperState)

theorem control_decide (hp : s.phase = .decide) :
    s.control r n =
      { n with
        tel := (policy s.tel s.seq s.cnt).1, drop := (policy s.tel s.seq s.cnt).2
        phase := .stream } ∧ s.aConsume r = false := by
  refine ⟨?_, if_neg (by rw [hp]; simp)⟩
  rw [control, hp]

theorem control_empty (hp : s.phase = .stream) (hv : s.aValid = false) :
    s.control r n = n ∧ s.aConsume r = false := by
  simp [control, aConsume, hp, hv]

/-- A beat inside the header. -/
theorem control_partial (hp : s.phase = .stream) (hv : s.aValid = true)
    (hl : s.aBeat.nbytes.toNat < s.hdrLeftEff.toNat) :
    s.control r n = { n with hdr := s.hdrN, hdrLeft := s.hdrLeftEff - s.k } ∧
      s.aConsume r = true := by
  have hactive : s.hdrActive = true := by
    rw [hdrActive_eq]
    exact bne_iff_ne.mpr (Nat.ne_zero_of_lt hl)
  have hcomp : s.completes = false := by
    rw [completes_eq]
    exact decide_eq_false (by omega)
  simp [control, aConsume, hp, hv, hactive, hdrPay, hcomp]

/-- The beat that completes the header. -/
theorem control_completing (hp : s.phase = .stream) (hv : s.aValid = true)
    (hne : s.hdrLeftEff.toNat ≠ 0) (hl : s.hdrLeftEff.toNat ≤ s.aBeat.nbytes.toNat) :
    s.control r n =
      { n with
        hdr := s.hdrN, hdrLeft := s.hdrLeftEff - s.k
        seq := BigEndian.word64 s.hdrN[10] s.hdrN[11] s.hdrN[12] s.hdrN[13] s.hdrN[14] s.hdrN[15]
          s.hdrN[16] s.hdrN[17]
        cnt := BigEndian.word16 s.hdrN[18] s.hdrN[19]
        aOff := if s.hdrPay then s.k else 0
        phase := .decide } ∧
      s.aConsume r = !s.hdrPay := by
  have hactive : s.hdrActive = true := by rw [hdrActive_eq]; exact bne_iff_ne.mpr hne
  have hcomp : s.completes = true := by
    rw [completes_eq]
    exact decide_eq_true ⟨hne, hl⟩
  simp [control, aConsume, hp, hv, hactive, hcomp]

/-- A beat is shorter than the header, so the one that completes it did not start it. -/
theorem aSop_of_completing (hok : s.aBeat.Ok) (hv : s.aValid = true)
    (hl : s.hdrLeftEff.toNat ≤ s.aBeat.nbytes.toNat) : s.aSop = false := by
  by_contra hs
  rw [Bool.not_eq_false] at hs
  rw [hdrLeftEff, hv, hs] at hl
  exact absurd (show (20 : ℕ) ≤ _ from hl) (by have := hok.2; omega)

/-- Payload. -/
theorem control_payload (hp : s.phase = .stream) (hv : s.aValid = true)
    (hl : s.hdrLeftEff.toNat = 0) :
    s.control r n =
      (if s.drop then { n with aOff := 0 }
      else if s.outFree r then { n with outBeat := s.payload, outValid := true, aOff := 0 }
      else n) ∧ s.aConsume r = (s.drop || s.outFree r) := by
  have hactive : s.hdrActive = false := by rw [hdrActive_eq, hl]; rfl
  cases hd : s.drop <;> simp [control, aConsume, hp, hv, hactive, hd]

end Control

/-- What the state machine does to the registers in one cycle: `a` moves on to `a'`, and the beat in
stage A either has passed or stays, with less of it to use. -/
structure Passed (s : StripperState) (a : Decap) (r : Bool) (n : StripperState) (a' : Decap) :
    Prop where
  core : Core n a'
  out : ∀ pre, pre ++ s.outBytes = a.out → pre ++ s.givenBytes r ++ n.outBytes = a'.out
  valid : n.aValid = s.aValid
  beat : n.aBeat = s.aBeat
  free : s.inReady r = true → n.aOff = 0 ∧ a' = s.absorb a
  kept : s.inReady r = false → Held n ∧ n.absorb a' = s.absorb a

theorem Core.drained (h : Core s a) (r : Bool) : Core (s.drained r) a :=
  { h with out := fun hv => h.out (Bool.and_elim_left hv) }

/-- The output side of a cycle that does not load the output register. -/
theorem out_of_outBytes_eq {n : StripperState} {r : Bool}
    (hn : n.outBytes = (s.drained r).outBytes) (pre : List UInt8) (h : pre ++ s.outBytes = a.out) :
    pre ++ s.givenBytes r ++ n.outBytes = a.out := by
  rw [List.append_assoc, hn, givenBytes_append, h]

/-- `S_DECIDE` applies the policy and leaves stage A as it is. -/
theorem passed_decide (hc : Core s a) (hh : Held s) (r : Bool) (hp : s.phase = .decide) :
    Passed s a r (s.control r (s.drained r)) a := by
  obtain ⟨hctl, hconsume⟩ := control_decide r (s.drained r) hp
  have hready : s.inReady r = !s.aValid := by rw [inReady, hconsume, Bool.or_false]
  rw [hctl]
  refine ⟨{ hc.drained r with stream := fun _ => (hc.decide hp).1, decide := fun h => by cases h },
    out_of_outBytes_eq rfl, rfl, rfl, fun h => ?_, fun _ => ⟨⟨hh.ok, hh.off⟩, rfl⟩⟩
  rw [hready, Bool.not_eq_true'] at h
  refine ⟨by_contra fun hne => ?_, (if_neg (by rw [h]; exact Bool.false_ne_true)).symm⟩
  have := (hh.off hne).1
  rw [h] at this
  exact Bool.false_ne_true this

/-- An empty stage A. -/
theorem passed_empty (hc : Core s a) (hh : Held s) (r : Bool) (hp : s.phase = .stream)
    (hv : s.aValid = false) : Passed s a r (s.control r (s.drained r)) a := by
  have hctl := (control_empty r (s.drained r) hp hv).1
  have hready : s.inReady r = true := by simp [inReady, hv]
  rw [hctl]
  refine ⟨hc.drained r, out_of_outBytes_eq rfl, rfl, rfl, fun _ => ?_, fun h => ?_⟩
  · refine ⟨by_contra fun hne => ?_, (if_neg (by rw [hv]; exact Bool.false_ne_true)).symm⟩
    have := (hh.off hne).1
    rw [hv] at this
    exact Bool.false_ne_true this
  · rw [hready] at h
    cases h

/-- `a` once the beat in stage A has started its datagram. -/
def begun (s : StripperState) (a : Decap) : Decap := if s.aSop then a.start else a

/-- Of the header so far, `hdr_left_eff` bytes are missing. -/
theorem Core.begun (h : Core s a) (hv : s.aValid = true) (hl : s.hdrLeftEff.toNat ≠ 0) :
    (s.begun a).left = s.hdrLeftEff.toNat ∧
      (s.begun a).hdr.length + s.hdrLeftEff.toNat = 20 ∧
      ∀ j (hj : j < 20), j < (s.begun a).hdr.length → (s.begun a).hdr[j]? = some s.hdr[j] := by
  have hleft := h.hdrLeftEff_eq hv
  rw [hleft] at hl ⊢
  unfold StripperState.begun
  cases hs : s.aSop with
  | true => exact ⟨rfl, rfl, fun j _ hlt => absurd hlt (Nat.not_lt_zero j)⟩
  | false =>
    rw [hs] at hl
    exact ⟨rfl, h.hdr_length hl, h.hdr hl⟩

theorem begun_stream (h : Core s a) (hp : s.phase = .stream) :
    (s.begun a).tel = s.tel ∧ (s.begun a).drop = s.drop ∧ (s.begun a).out = a.out := by
  have hstream := Prod.mk.inj (h.stream hp)
  unfold begun
  cases s.aSop with
  | true => exact ⟨hstream.1, hstream.2, rfl⟩
  | false => exact ⟨hstream.1, hstream.2, rfl⟩

theorem absorb_of_header (hc : Core s a) (hh : Held s) (hv : s.aValid = true)
    (hl : s.hdrLeftEff.toNat ≠ 0) :
    s.absorb a = ((s.begun a).header (s.aBeat.bytes.take s.hdrLeftEff.toNat)).body
      (s.aBeat.bytes.drop s.hdrLeftEff.toNat) := by
  have hleft := (hc.begun hv hl).1
  have hheld : s.held = s.aBeat.bytes := by
    rw [held, hh.off_eq hl]
    rfl
  have hfeed : s.absorb a = if (s.begun a).left = 0 then (s.begun a).body s.held
      else ((s.begun a).header (s.held.take (s.begun a).left)).body
        (s.held.drop (s.begun a).left) := if_pos hv
  rw [hfeed, if_neg (by rwa [hleft]), hleft, hheld]

/-- A beat inside the header. -/
theorem passed_partial (hc : Core s a) (hh : Held s) (r : Bool) (hp : s.phase = .stream)
    (hv : s.aValid = true) (hl : s.aBeat.nbytes.toNat < s.hdrLeftEff.toNat) :
    Passed s a r (s.control r (s.drained r)) ((s.begun a).header s.aBeat.bytes) := by
  have hne : s.hdrLeftEff.toNat ≠ 0 := Nat.ne_zero_of_lt hl
  have hok := hh.ok hv
  have hlen := hok.bytes_length
  have hleft := s.hdrLeftEff_sub_k
  obtain ⟨hbleft, hblen, hbhdr⟩ := hc.begun hv hne
  obtain ⟨htel, hdrop, hout⟩ := begun_stream hc hp
  obtain ⟨hctl, hconsume⟩ := control_partial r (s.drained r) hp hv hl
  have hready : s.inReady r = true := by rw [inReady, hconsume, Bool.or_true]
  have hheader : (s.begun a).header s.aBeat.bytes =
      { s.begun a with
        hdr := (s.begun a).hdr ++ s.aBeat.bytes
        left := (s.begun a).left - s.aBeat.bytes.length } :=
    if_neg (by dsimp only; omega)
  have htake : s.aBeat.bytes.take s.hdrLeftEff.toNat = s.aBeat.bytes :=
    List.take_of_length_le (by omega)
  have hhdr := hdrN_getElem hok hblen hbhdr
  rw [htake] at hhdr
  rw [hctl, hheader]
  constructor
  case core =>
    constructor
    case left => dsimp only; omega
    case left_le => dsimp only; omega
    case hdr_length =>
      intro _
      dsimp only
      rw [List.length_append]
      omega
    case hdr => exact fun _ => hhdr
    case stream => exact fun _ => Prod.ext htel hdrop
    case decide =>
      intro h
      rw [show s.phase = _ from h] at hp
      cases hp
    case out => exact (hc.drained r).out
  case out => exact fun pre h => out_of_outBytes_eq rfl pre (h.trans hout.symm)
  case valid => rfl
  case beat => rfl
  case free =>
    intro _
    rw [absorb_of_header hc hh hv hne, htake, hheader, List.drop_eq_nil_of_le (by omega)]
    exact ⟨hh.off_eq hne, (Decap.body_nil _).symm⟩
  case kept => exact fun h => absurd (hready.symm.trans h) (by decide)

/-- The beat that completes the header. -/
theorem passed_completing (hc : Core s a) (hh : Held s) (r : Bool) (hp : s.phase = .stream)
    (hv : s.aValid = true) (hne : s.hdrLeftEff.toNat ≠ 0)
    (hl : s.hdrLeftEff.toNat ≤ s.aBeat.nbytes.toNat) :
    Passed s a r (s.control r (s.drained r))
      ((s.begun a).header (s.aBeat.bytes.take s.hdrLeftEff.toNat)) := by
  have hok := hh.ok hv
  have hlen := hok.bytes_length
  have hleft := s.hdrLeftEff_sub_k
  obtain ⟨hbleft, hblen, hbhdr⟩ := hc.begun hv hne
  obtain ⟨htel, hdrop, hout⟩ := begun_stream hc hp
  have hsop := aSop_of_completing hok hv hl
  have htake : (s.aBeat.bytes.take s.hdrLeftEff.toNat).length = s.hdrLeftEff.toNat := by
    rw [List.length_take]
    omega
  set hdr' := (s.begun a).hdr ++ s.aBeat.bytes.take s.hdrLeftEff.toNat with hhdr'
  have hheader : (s.begun a).header (s.aBeat.bytes.take s.hdrLeftEff.toNat) =
      { s.begun a with
        hdr := hdr'
        left := (s.begun a).left - (s.aBeat.bytes.take s.hdrLeftEff.toNat).length
        tel := (Decap.judge (s.begun a).tel hdr').1
        drop := (Decap.judge (s.begun a).tel hdr').2 } := if_pos (by dsimp only; omega)
  have hfull : hdr'.length = 20 := by
    rw [hhdr', List.length_append]
    omega
  have hget (j : ℕ) (hj : j < 20) : hdr'[j]? = some s.hdrN[j] :=
    hdrN_getElem hok hblen hbhdr j hj (by rw [← hhdr', hfull]; exact hj)
  have hbyte (o j : ℕ) (hj : o + j < 20) : (hdr'.drop o).getD j 0 = s.hdrN[o + j] := by
    rw [List.getD_eq_getElem?_getD, List.getElem?_drop, hget _ hj, Option.getD_some]
  have hseq : be64 (hdr'.drop 10) =
      BigEndian.word64 s.hdrN[10] s.hdrN[11] s.hdrN[12] s.hdrN[13] s.hdrN[14] s.hdrN[15]
        s.hdrN[16] s.hdrN[17] := by
    rw [be64, hbyte 10 0 (by decide), hbyte 10 1 (by decide), hbyte 10 2 (by decide),
      hbyte 10 3 (by decide), hbyte 10 4 (by decide), hbyte 10 5 (by decide),
      hbyte 10 6 (by decide), hbyte 10 7 (by decide)]
  have hcnt : be16 (hdr'.drop 18) = BigEndian.word16 s.hdrN[18] s.hdrN[19] := by
    rw [be16, hbyte 18 0 (by decide), hbyte 18 1 (by decide)]
  obtain ⟨hctl, hconsume⟩ := control_completing r (s.drained r) hp hv hne hl
  have hready : s.inReady r = !s.hdrPay := by
    rw [inReady, hconsume, hv, Bool.not_true, Bool.false_or]
  rw [← hseq, ← hcnt] at hctl
  have hzero : s.hdrLeftEff - s.k = 0 := BitVec.eq_of_toNat_eq (by rw [hleft]; simp; omega)
  rw [hctl, hheader]
  constructor
  case core =>
    constructor
    case left => dsimp only; omega
    case left_le => dsimp only; omega
    case hdr_length => exact fun h => absurd (by dsimp only; omega) h
    case hdr => exact fun h => absurd (by dsimp only; omega) h
    case stream => exact fun h => by cases h
    case decide =>
      intro _
      refine ⟨?_, by dsimp only; omega⟩
      dsimp only
      rw [htel]
      rfl
    case out => exact (hc.drained r).out
  case out => exact fun pre h => out_of_outBytes_eq rfl pre (h.trans hout.symm)
  case valid => rfl
  case beat => rfl
  case free =>
    intro h
    rw [hready, Bool.not_eq_true'] at h
    have hle : s.aBeat.nbytes.toNat ≤ s.hdrLeftEff.toNat := by
      rw [hdrPay_eq] at h
      have := of_decide_eq_false h
      omega
    have hnil : s.aBeat.bytes.drop s.hdrLeftEff.toNat = [] := List.drop_eq_nil_of_le (by omega)
    rw [absorb_of_header hc hh hv hne, hnil, hheader, Decap.body_nil]
    refine ⟨?_, rfl⟩
    dsimp only
    rw [h]
    rfl
  case kept =>
    intro h
    rw [hready, Bool.not_eq_false'] at h
    have hlt : s.hdrLeftEff.toNat < s.aBeat.nbytes.toNat := by
      rw [hdrPay_eq] at h
      exact (of_decide_eq_true h).2
    have hk : s.k.toNat = s.hdrLeftEff.toNat := by rw [k_toNat, Nat.min_eq_left hlt.le]
    refine ⟨⟨hh.ok, fun _ => ⟨hv, hsop, hzero, ?_⟩⟩, ?_⟩
    · dsimp only
      rw [if_pos h, BitVec.lt_def, hk]
      exact hlt
    · have hoff : (if s.hdrPay then s.k else 0).toNat = s.hdrLeftEff.toNat := by rw [if_pos h, hk]
      refine (absorb_of_body ?_ ?_ ?_).trans ?_
      · exact hv
      · exact hsop
      · dsimp only
        omega
      · rw [absorb_of_header hc hh hv hne, hheader, held]
        dsimp only [StripperState.drained]
        rw [hoff]

/-- Payload. -/
theorem passed_payload (hc : Core s a) (hh : Held s) (r : Bool) (hp : s.phase = .stream)
    (hv : s.aValid = true) (hl : s.hdrLeftEff.toNat = 0) :
    ∃ a', Passed s a r (s.control r (s.drained r)) a' := by
  have hsop : s.aSop = false := by
    by_contra hne
    rw [Bool.not_eq_false] at hne
    rw [hdrLeftEff, hv, hne] at hl
    exact absurd (show hdrBytes.toNat = 0 from hl) (by decide)
  have hleft : a.left = 0 := by
    have := hc.hdrLeftEff_eq hv
    rwa [hl, hsop, eq_comm] at this
  have habsorb := absorb_of_body hv hsop hleft
  have hstream := Prod.mk.inj (hc.stream hp)
  have hoff : s.aOff < s.aBeat.nbytes := by
    rcases eq_or_ne s.aOff 0 with h0 | h0
    · rw [h0, BitVec.lt_def]
      exact (hh.ok hv).1
    · exact (hh.off h0).2.2.2
  obtain ⟨hctl, hconsume⟩ := control_payload r (s.drained r) hp hv hl
  have hready : s.inReady r = (s.drop || s.outFree r) := by
    rw [inReady, hconsume, hv, Bool.not_true, Bool.false_or]
  rw [hctl]
  cases hd : s.drop with
  | true =>
    rw [hd, Bool.true_or] at hready
    have hbody : a.body s.held = a := if_pos (hstream.2.trans hd)
    rw [if_pos rfl]
    refine ⟨a, { hc.drained r with }, out_of_outBytes_eq rfl, rfl, rfl, fun _ => ⟨rfl, ?_⟩,
      fun h => absurd (hready.symm.trans h) (by decide)⟩
    rw [habsorb, hbody]
  | false =>
    have hbody : a.body s.held = { a with out := a.out ++ s.held } :=
      if_neg (by rw [hstream.2, hd]; exact Bool.false_ne_true)
    rw [if_neg Bool.false_ne_true]
    rw [hd, Bool.false_or] at hready
    cases hfree : s.outFree r with
    | true =>
      rw [hfree] at hready
      -- whatever the output register held leaves in this cycle
      have hgone : (s.drained r).outValid = false := by
        cases ho : s.outValid <;> cases r <;> simp_all [outFree, drained]
      have hout : s.givenBytes r = s.outBytes := by
        have h := s.givenBytes_append r
        rwa [show (s.drained r).outBytes = [] from if_neg (by rw [hgone]; exact Bool.false_ne_true),
          List.append_nil] at h
      obtain ⟨hok, hbytes⟩ := payload_bytes (hh.ok hv) hoff
      rw [if_pos rfl]
      refine ⟨{ a with out := a.out ++ s.held }, { hc.drained r with out := fun _ => hok },
        fun pre hpre => ?_, rfl, rfl, fun _ => ⟨rfl, ?_⟩,
        fun h => absurd (hready.symm.trans h) (by decide)⟩
      · rw [hout, hpre, ← hbytes]
        rfl
      · rw [habsorb, hbody]
    | false =>
      rw [hfree] at hready
      rw [if_neg Bool.false_ne_true]
      exact ⟨a, hc.drained r, out_of_outBytes_eq rfl, rfl, rfl,
        fun h => absurd (hready.symm.trans h) (by decide), fun _ => ⟨⟨hh.ok, hh.off⟩, rfl⟩⟩

/-! ## One cycle and a run -/

theorem exists_passed (hc : Core s a) (hh : Held s) (r : Bool) :
    ∃ a', Passed s a r (s.control r (s.drained r)) a' := by
  cases hp : s.phase with
  | decide => exact ⟨a, passed_decide hc hh r hp⟩
  | stream =>
    cases hv : s.aValid with
    | false => exact ⟨a, passed_empty hc hh r hp hv⟩
    | true =>
      rcases Nat.eq_zero_or_pos s.hdrLeftEff.toNat with hl | hl
      · exact passed_payload hc hh r hp hv hl
      · rcases Nat.lt_or_ge s.aBeat.nbytes.toNat s.hdrLeftEff.toNat with hlt | hge
        · exact ⟨_, passed_partial hc hh r hp hv hlt⟩
        · exact ⟨_, passed_completing hc hh r hp hv hl.ne' hge⟩

theorem step_eq (s : StripperState) (i : StripperIn) :
    s.step i =
      let n := s.control i.outReady (s.drained i.outReady)
      if i.inValid && s.inReady i.outReady then
        { n with aBeat := i.inBeat, aSop := i.inSop, aValid := true }
      else if s.aConsume i.outReady then { n with aValid := false }
      else n := by
  have hdrain : (if s.outValid && i.outReady then { s with outValid := false } else s) =
      s.drained i.outReady := by
    cases hv : s.outValid <;> cases i.outReady <;> simp [drained, ← hv]
  rw [step, hdrain]

/-- Loading or clearing stage A does not touch what is behind it. -/
theorem Core.stageA (h : Core s a) (b : Beat) (sop v : Bool) :
    Core { s with aBeat := b, aSop := sop, aValid := v } a :=
  { h with }

/-- What was taken is what `a` and stage A make of it, and what was given, with what is still in the
output register, is what `a` has put out. -/
def Delivered (s : StripperState) (as : List (Bool × Beat)) (bs : List Beat) : Prop :=
  ∃ a, Core s a ∧ Held s ∧ s.absorb a = (as.map fun t => (t.1, t.2.bytes)).foldl Decap.feed {} ∧
    bs.flatMap Beat.bytes ++ s.outBytes = a.out

theorem delivered_reset (s : StripperState) : Delivered s.reset [] [] :=
  ⟨{}, ⟨rfl, by decide, fun h => absurd rfl h, fun h => absurd rfl h, fun _ => rfl,
    fun h => (by cases h), fun h => (by cases h)⟩,
    ⟨fun h => (by cases h), fun h => absurd rfl h⟩, rfl, rfl⟩

theorem given_flatMap (s : StripperState) (i : StripperIn) :
    (moldStripper.given s i).flatMap Beat.bytes = s.givenBytes i.outReady := by
  unfold moldStripper givenBytes
  dsimp only
  split
  · exact List.flatMap_singleton ..
  · rfl

/-- One cycle, whatever it takes and whether the output is ready. -/
theorem Delivered.step {as : List (Bool × Beat)} {bs : List Beat} {i : StripperIn}
    (hgood : ∀ t ∈ moldStripper.taken s i, t.2.Ok) (h : Delivered s as bs) :
    Delivered (s.step i) (as ++ moldStripper.taken s i) (bs ++ moldStripper.given s i) := by
  obtain ⟨a, hc, hh, habs, hout⟩ := h
  obtain ⟨a', hpass⟩ := exists_passed hc hh i.outReady
  set n := s.control i.outReady (s.drained i.outReady) with hn
  have hstep := s.step_eq i
  have hout' := hpass.out _ hout
  have htaken : moldStripper.taken s i =
      if i.inValid && s.inReady i.outReady then [(i.inSop, i.inBeat)] else [] := rfl
  rw [← given_flatMap, ← List.flatMap_append] at hout'
  rw [htaken] at hgood ⊢
  rw [hstep, ← hn]
  dsimp only
  cases hload : i.inValid && s.inReady i.outReady with
  | true =>
    obtain ⟨hoff, ha'⟩ := hpass.free (Bool.and_elim_right hload)
    rw [hload] at hgood
    have hok : i.inBeat.Ok := hgood _ List.mem_cons_self
    refine ⟨a', hpass.core.stageA _ _ _, ⟨fun _ => hok, fun hne => absurd hoff hne⟩, ?_, hout'⟩
    have habsorb : absorb { n with aBeat := i.inBeat, aSop := i.inSop, aValid := true } a' =
        a'.feed (i.inSop, i.inBeat.bytes.drop n.aOff.toNat) := rfl
    rw [if_pos rfl, if_pos rfl, habsorb, hoff, ha', habs, List.map_append, List.foldl_append]
    rfl
  | false =>
    rw [if_neg Bool.false_ne_true, if_neg Bool.false_ne_true, List.append_nil]
    cases hready : s.inReady i.outReady with
    | true =>
      -- the beat in stage A has passed, or there was none
      obtain ⟨hoff, ha'⟩ := hpass.free hready
      have hstepA : (if s.aConsume i.outReady then { n with aValid := false } else n) =
          { n with aValid := false } := by
        cases hcons : s.aConsume i.outReady with
        | true => rfl
        | false =>
          rw [inReady, hcons, Bool.or_false, Bool.not_eq_true'] at hready
          rw [if_neg Bool.false_ne_true, ← hready, ← hpass.valid]
      rw [hstepA]
      refine ⟨a', hpass.core.stageA _ _ _, ⟨fun h => (by cases h), fun hne => absurd hoff hne⟩,
        ?_, hout'⟩
      rw [← habs, ← ha']
      rfl
    | false =>
      obtain ⟨hheld, ha'⟩ := hpass.kept hready
      have hcons : s.aConsume i.outReady = false := (Bool.or_eq_false_iff.mp hready).2
      rw [hcons, if_neg Bool.false_ne_true]
      exact ⟨a', hpass.core, hheld, ha'.trans habs, hout'⟩

/-- Every run from reset. -/
theorem deliver_inv (s : StripperState) (is : List StripperIn)
    (hgood : ∀ t ∈ moldStripper.allTaken s.reset is, t.2.Ok) :
    Delivered (moldStripper.run s.reset is) (moldStripper.allTaken s.reset is)
      (moldStripper.allGiven s.reset is) := by
  have hstep (s : StripperState) (as : List (Bool × Beat)) (bs : List Beat) (i : StripperIn)
      (hg : ∀ t ∈ moldStripper.taken s i, t.2.Ok) (h : Delivered s as bs) :
      Delivered (moldStripper.step s i) (as ++ moldStripper.taken s i)
        (bs ++ moldStripper.given s i) := h.step hg
  have h := StreamMachine.run_inv hstep (delivered_reset s) is hgood
  rwa [List.nil_append, List.nil_append] at h

end StripperState

end ItchOrderbook.Rtl
