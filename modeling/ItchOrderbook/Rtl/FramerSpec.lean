import ItchOrderbook.Lib.Framing
import ItchOrderbook.Rtl.DecoderAgreement
import ItchOrderbook.Rtl.ItchFramer

/-!
# Framing and decoding

The stream that was taken is always some complete frames, a part of the current one and the window
(`Framed`). The messages that were given, with the one that waits in the decoder, are those of the
complete frames, so nothing is lost, repeated or reordered (`ingest_delivers`).
-/

namespace ItchOrderbook.Rtl

open BigEndian Framing

/-! ## What should come out -/

/-- The fields of a body: a buffer that holds it, decoded. -/
def fields (b : List UInt8) : Decoded := DecoderState.dC (Vector.ofFn fun j => b.getD j 0)

/-- The message of a frame: none unless its length is that of a supported type. -/
def frameMessage (b : List UInt8) : Option Decoded :=
  if bodyLen (b.getD 0 0) ≠ 0 ∧ b.length = bodyLen (b.getD 0 0) then some (fields b) else none

/-- The messages of a stream, split at its length prefixes. -/
def messages (bytes : List UInt8) : List Decoded := (split bytes).filterMap frameMessage

theorem holds_ofFn {b : List UInt8} (hb : b.length ≤ 48) :
    DecoderState.Holds (Vector.ofFn fun j => b.getD j 0) b b.length := by
  intro j hj _
  simp [DecoderState.byteAt, show j < 48 by omega]

/-- A supported body is short enough for the buffer. -/
theorem bodyLen_le (t : UInt8) : bodyLen t ≤ 46 := by
  unfold bodyLen
  repeat' split
  all_goals decide

/-- The rest of a buffer does not matter. -/
theorem dC_of_holds {body : Vector UInt8 48} {b : List UInt8}
    (h : DecoderState.Holds body b b.length) (hlen : b.length = bodyLen (b.getD 0 0))
    (hne : bodyLen (b.getD 0 0) ≠ 0) : DecoderState.dC body = fields b := by
  have hle := bodyLen_le (b.getD 0 0)
  have h' := holds_ofFn (b := b) (by omega)
  have hsim := (sim_decodeBody h hlen hne).symm.trans (sim_decodeBody h' hlen hne)
  have hts := (agree_dC h hlen hne).timestamp.trans (agree_dC h' hlen hne).timestamp.symm
  have href := Option.some_inj.mp hsim
  simp only [Decoded.toRefMsg, Sim.RefMsg.mk.injEq] at href
  rw [fields, Decoded.mk.injEq]
  exact ⟨href.1, href.2.1, href.2.2.1, href.2.2.2.1, href.2.2.2.2.1, href.2.2.2.2.2.1,
    href.2.2.2.2.2.2.1, href.2.2.2.2.2.2.2, hts⟩

/-- The message of a frame is what the software parser reads from it. -/
theorem frameMessage_agree {b : List UInt8} {d : Decoded} (h : frameMessage b = some d) :
    Agree d (decodeBody b b.length) := by
  unfold frameMessage at h
  split at h
  · rename_i hok
    have hle := bodyLen_le (b.getD 0 0)
    obtain rfl := Option.some_inj.mp h
    exact agree_dC (holds_ofFn (by omega)) hok.2 hok.1
  · cases h

/-! ## The window -/

namespace FramerState

variable {s : FramerState}

/-- The bytes in the window. -/
def window (s : FramerState) : List UInt8 := s.win.toList.take s.cnt.toNat

/-- How many body bytes one beat takes at most. -/
def beatSize (s : FramerState) : ℕ := min s.remain.toNat 16

theorem window_length (hcnt : s.cnt.toNat ≤ 32) : s.window.length = s.cnt.toNat := by
  rw [window, List.length_take, Vector.length_toList, Nat.min_eq_left hcnt]

/-- Body bytes are consumed a whole beat at a time. -/
theorem bodyConsume_toNat (s : FramerState) :
    s.bodyConsume.toNat = if s.beatSize ≤ s.cnt.toNat then s.beatSize else 0 := by
  unfold bodyConsume beatSize
  have h16 : s.remain ≤ 16 ↔ s.remain.toNat ≤ 16 := UInt16.le_iff_toNat_le
  have hcnt : 16 ≤ s.cnt ↔ 16 ≤ s.cnt.toNat := BitVec.le_def
  split
  · rename_i hle
    rw [Nat.min_eq_left (h16.mp hle)]
    split
    · have hlt : s.remain.toNat < 2 ^ 6 := Nat.lt_of_le_of_lt (h16.mp hle) (by decide)
      rw [BitVec.toNat_setWidth, UInt16.toNat_toBitVec, Nat.mod_eq_of_lt hlt]
    · rfl
  · rename_i hgt
    have hgt' : ¬ s.remain.toNat ≤ 16 := fun h => hgt (h16.mpr h)
    rw [Nat.min_eq_right (by omega)]
    split
    · rw [if_pos (hcnt.mp ‹_›)]
      rfl
    · rw [if_neg (fun h => absurd (hcnt.mpr h) ‹_›)]
      rfl

theorem consume_le (s : FramerState) : s.consume.toNat ≤ s.cnt.toNat := by
  have hbody : s.bodyConsume.toNat ≤ s.cnt.toNat := by
    rw [bodyConsume_toNat]
    split <;> omega
  have h2 : 2 ≤ s.cnt ↔ 2 ≤ s.cnt.toNat := BitVec.le_def
  unfold consume
  cases s.phase with
  | hdr =>
    dsimp only
    split
    · exact h2.mp ‹_›
    · exact Nat.zero_le _
  | body => exact hbody
  | drop => exact hbody
  | settle => exact Nat.zero_le _

theorem keep_toNat (s : FramerState) : s.keep.toNat = s.cnt.toNat - s.consume.toNat :=
  BitVec.toNat_sub_of_le (BitVec.le_def.mpr s.consume_le)

theorem inReady_iff (s : FramerState) : s.inReady = true ↔ s.keep.toNat ≤ 16 := by
  rw [inReady, decide_eq_true_iff, BitVec.le_def]
  rfl

/-- The state machine touches neither the window nor its occupancy. -/
theorem control_window (s : FramerState) (pending : Bool) (n : FramerState) :
    (s.control pending n).win = n.win ∧ (s.control pending n).cnt = n.cnt := by
  unfold control
  cases s.phase <;> dsimp only <;> (repeat' split) <;> exact ⟨rfl, rfl⟩

/-- What a cycle does to the window: the front is consumed, an accepted beat is appended. -/
theorem window_step (i : FramerIn) (hcnt : s.cnt.toNat ≤ 32)
    (hok : (i.inValid && s.inReady) = true → i.inBeat.Ok) :
    (s.step i).cnt.toNat ≤ 32 ∧
      (s.step i).window = s.window.drop s.consume.toNat ++
        if i.inValid && s.inReady then i.inBeat.bytes else [] := by
  have hcons := s.consume_le
  have hkeep := s.keep_toNat
  obtain ⟨hwin, hcnt'⟩ := control_window s i.decPending
    { s with
      win := s.winN (i.inValid && s.inReady) i.inBeat
      cnt := s.keep + if i.inValid && s.inReady then i.inBeat.nbytes.setWidth 6 else 0 }
  have hsurvive (j : ℕ) (hj : j < s.keep.toNat) :
      (s.winN (i.inValid && s.inReady) i.inBeat).toList[j]? =
        (s.window.drop s.consume.toNat)[j]? := by
    have h32 : j + s.consume.toNat < 32 := by omega
    rw [List.getElem?_drop, window, List.getElem?_take_of_lt (by omega)]
    simp [winN, hj, h32, show j < 32 by omega, Nat.add_comm s.consume.toNat j]
  have hlen : (s.window.drop s.consume.toNat).length = s.keep.toNat := by
    rw [List.length_drop, window_length hcnt, hkeep]
  rw [window, show (s.step i).win = _ from hwin, show (s.step i).cnt = _ from hcnt']
  dsimp only
  cases hacc : i.inValid && s.inReady with
  | false =>
    rw [if_neg Bool.false_ne_true, if_neg Bool.false_ne_true, List.append_nil,
      show s.keep + 0 = s.keep from BitVec.add_zero _]
    refine ⟨by omega, List.ext_getElem? fun j => ?_⟩
    rw [hacc] at hsurvive
    rcases Nat.lt_or_ge j s.keep.toNat with hj | hj
    · rw [List.getElem?_take_of_lt hj, hsurvive j hj]
    · rw [List.getElem?_eq_none (by rw [List.length_take]; omega),
        List.getElem?_eq_none (by rw [hlen]; exact hj)]
  | true =>
    have hb := hok hacc
    have hready := (inReady_iff s).mp (Bool.and_elim_right hacc)
    have hblen := hb.bytes_length
    have hsum : (s.keep + i.inBeat.nbytes.setWidth 6).toNat =
        s.keep.toNat + i.inBeat.nbytes.toNat := by
      have hb16 := hb.2
      rw [BitVec.toNat_add, BitVec.toNat_setWidth]
      omega
    rw [if_pos rfl, if_pos rfl, hsum]
    refine ⟨by have := hb.2; omega, List.ext_getElem? fun j => ?_⟩
    rw [hacc] at hsurvive
    rcases Nat.lt_or_ge j s.keep.toNat with hj | hj
    · rw [List.getElem?_take_of_lt (by omega), hsurvive j hj,
        List.getElem?_append_left (by rw [hlen]; exact hj)]
    · rw [List.getElem?_append_right (by rw [hlen]; exact hj), hlen]
      rcases Nat.lt_or_ge j (s.keep.toNat + i.inBeat.nbytes.toNat) with hj' | hj'
      · -- a byte of the new beat
        have hb16 := hb.2
        have h16 : j - s.keep.toNat < 16 := by omega
        rw [List.getElem?_take_of_lt hj', Beat.bytes, List.getElem?_take_of_lt (by omega)]
        simp [winN, Nat.not_lt.mpr hj, hj', h16, show j < 32 by omega]
      · rw [List.getElem?_eq_none (by rw [List.length_take]; omega),
          List.getElem?_eq_none (by omega)]

end FramerState

/-! ## The decoder in one cycle -/

namespace DecoderState

variable {s : DecoderState} {i : DecoderIn}

/-- The message that waits for the engine. -/
def pending (s : DecoderState) : List Decoded := if s.decValid then [s.dec] else []

theorem step_of_not_complete (h : i.msgComplete = false) :
    (s.step i).dec = s.dec ∧ (s.step i).decValid = (s.decValid && !i.decAccept) ∧
      (s.step i).body = if i.msgBeatValid then writeBeat s.body i else s.body := by
  unfold step
  rw [h]
  cases i.msgBeatValid <;> cases i.decAccept <;> simp

theorem step_of_complete (h : i.msgComplete = true) (hb : i.msgBeatValid = false) :
    (s.step i).body = s.body ∧
      (s.step i).pending =
        if bodyLen (byteAt s.body 0) ≠ 0 ∧ i.msgLen.toNat = bodyLen (byteAt s.body 0) then
          [dC s.body]
        else [] := by
  unfold step
  rw [h, hb, if_pos rfl]
  split
  · exact ⟨rfl, rfl⟩
  · exact ⟨rfl, rfl⟩

end DecoderState

/-! ## Position in the stream -/

/-- The bytes of the current frame that are consumed, as the registers have it: none, or the
length prefix and a part of the body, which is in the decoder's buffer unless the body is too
long for it. -/
def At (s : FramerState) (body : Vector UInt8 48) (c : List UInt8) : Prop :=
  match s.phase with
  | .hdr => c = []
  | .body => ∃ e, c = toBytes 2 s.len.toNat ++ e ∧ e.length + s.remain.toNat = s.len.toNat ∧
      e.length = 16 * s.widx.toNat ∧ s.len.toNat ≤ 48 ∧ 0 < s.remain.toNat ∧
      DecoderState.Holds body e e.length
  | .settle => ∃ e, c = toBytes 2 s.len.toNat ++ e ∧ e.length = s.len.toNat ∧
      0 < s.len.toNat ∧ s.len.toNat ≤ 48 ∧ DecoderState.Holds body e e.length
  | .drop => ∃ e, c = toBytes 2 s.len.toNat ++ e ∧ e.length + s.remain.toNat = s.len.toNat ∧
      48 < s.len.toNat ∧ 0 < s.remain.toNat

namespace IngestState

/-- What one cycle makes of the consumed bytes `c` of the current frame, where `x` is consumed now:
perhaps a frame is complete, and then its message is the only one that is new. -/
def Advances (s : IngestState) (i : IngestIn) (c x : List UInt8) : Prop :=
  ∃ (done : List (List UInt8)) (c' : List UInt8),
    c ++ x = done.flatMap frame ++ c' ∧ (∀ b ∈ done, b.length < 65536) ∧
      At (s.step i).framer (s.step i).decoder.body c' ∧
      ingest.given s i ++ (s.step i).decoder.pending =
        s.decoder.pending ++ done.filterMap frameMessage

variable {s : IngestState} {c : List UInt8}

theorem given_pending (i : IngestIn)
    (h : (s.framer.toDecoder s.decoder.decValid (s.decAccept i)).msgComplete = false) :
    ingest.given s i ++ (s.step i).decoder.pending = s.decoder.pending := by
  obtain ⟨hdec, hvalid, -⟩ := DecoderState.step_of_not_complete (s := s.decoder) h
  have hgiven : ingest.given s i = if s.decAccept i then [s.decoder.dec] else [] := rfl
  rw [hgiven, DecoderState.pending, DecoderState.pending, show (s.step i).decoder.dec = _ from hdec,
    show (s.step i).decoder.decValid = _ from hvalid]
  unfold FramerState.toDecoder decAccept
  dsimp only
  cases s.decoder.decValid <;> cases i.engineIdle <;> rfl

theorem complete_eq_false (h : s.framer.phase ≠ .settle) (p a : Bool) :
    (s.framer.toDecoder p a).msgComplete = false := by
  simp [FramerState.toDecoder, h]

/-- The part of a cycle that concerns the state machine of the framer. -/
theorem framer_phase (i : IngestIn) :
    let n := s.framer.control s.decoder.decValid s.framer
    (s.step i).framer.phase = n.phase ∧ (s.step i).framer.len = n.len ∧
      (s.step i).framer.remain = n.remain ∧ (s.step i).framer.widx = n.widx := by
  unfold step FramerState.step FramerState.control
  cases hp : s.framer.phase <;> dsimp only <;> (repeat' split) <;> simp [hp]

/-- The buffer in a cycle in which no message completes. -/
theorem decoder_body (i : IngestIn) (h : s.framer.phase ≠ .settle) :
    (s.step i).decoder.body =
      if s.framer.phase = .body ∧ s.framer.consume ≠ 0 then
        DecoderState.writeBeat s.decoder.body
          (s.framer.toDecoder s.decoder.decValid (s.decAccept i))
      else s.decoder.body := by
  have hbody := (DecoderState.step_of_not_complete (s := s.decoder)
    (complete_eq_false h s.decoder.decValid (s.decAccept i))).2.2
  rw [show (s.step i).decoder.body = _ from hbody]
  simp only [FramerState.toDecoder, decide_eq_true_eq]

/-- A cycle that consumes nothing and completes nothing. -/
theorem advances_nothing (i : IngestIn) (hat : At s.framer s.decoder.body c)
    (hctl : s.framer.control s.decoder.decValid s.framer = s.framer)
    (hcomp : (s.framer.toDecoder s.decoder.decValid (s.decAccept i)).msgComplete = false)
    (hcons : s.framer.consume = 0) : Advances s i c (s.framer.window.take 0) := by
  obtain ⟨hphase, hlen, hremain, hwidx⟩ := framer_phase (s := s) i
  have hbody : (s.step i).decoder.body = s.decoder.body := by
    have h := (DecoderState.step_of_not_complete (s := s.decoder) hcomp).2.2
    rw [show (s.step i).decoder.body = _ from h]
    simp [FramerState.toDecoder, hcons]
  refine ⟨[], c, by simp, fun b hb => absurd hb List.not_mem_nil, ?_, ?_⟩
  · rw [hctl] at hphase hlen hremain hwidx
    rw [hbody, At, hphase, hlen, hremain, hwidx]
    exact hat
  · rw [given_pending i hcomp]
    simp

theorem prefixLen_bytes {f : FramerState} (h : 2 ≤ f.cnt.toNat) :
    f.window.take 2 = toBytes 2 f.prefixLen.toNat := by
  have hwin : f.window.take 2 = [f.win[0], f.win[1]] := by
    apply List.ext_getElem?
    intro j
    rw [FramerState.window, List.take_take, Nat.min_eq_left h, List.getElem?_take]
    match j with
    | 0 => simp
    | 1 => simp
    | j + 2 => simp
  have hword : f.prefixLen.toNat = ofBytes [f.win[0], f.win[1]] := word16_toNat _ _
  have hback := toBytes_ofBytes [f.win[0], f.win[1]]
  rw [hwin, hword]
  exact hback.symm

/-- A length prefix. -/
theorem advances_hdr (i : IngestIn) (hp : s.framer.phase = .hdr)
    (hat : At s.framer s.decoder.body c) :
    Advances s i c (s.framer.window.take s.framer.consume.toNat) := by
  have hne : s.framer.phase ≠ .settle := by rw [hp]; decide
  have hcomp := complete_eq_false hne s.decoder.decValid (s.decAccept i)
  have h2 : 2 ≤ s.framer.cnt ↔ 2 ≤ s.framer.cnt.toNat := BitVec.le_def
  have hnil : c = [] := by
    rw [At, hp] at hat
    exact hat
  rcases Nat.lt_or_ge s.framer.cnt.toNat 2 with hlt | hge
  · have hnot : ¬ 2 ≤ s.framer.cnt := fun h => by have := h2.mp h; omega
    have hcons : s.framer.consume = 0 := by
      rw [FramerState.consume, hp]
      exact if_neg hnot
    have hctl : s.framer.control s.decoder.decValid s.framer = s.framer := by
      rw [FramerState.control, hp]
      exact if_neg hnot
    rw [hcons]
    exact advances_nothing i hat hctl hcomp hcons
  · have hle : 2 ≤ s.framer.cnt := h2.mpr hge
    have hcons : s.framer.consume = 2 := by
      rw [FramerState.consume, hp]
      exact if_pos hle
    obtain ⟨hphase, hlen, hremain, hwidx⟩ := framer_phase (s := s) i
    have hctl : s.framer.control s.decoder.decValid s.framer =
        { s.framer with
          len := s.framer.prefixLen, remain := s.framer.prefixLen, widx := 0
          phase :=
            if s.framer.prefixLen = 0 then .hdr
            else if s.framer.prefixLen.toNat > msgMaxBytes then .drop
            else .body } := by
      rw [FramerState.control, hp]
      exact if_pos hle
    rw [hctl] at hphase hlen hremain hwidx
    have hx := prefixLen_bytes hge
    rw [hcons, hnil, show (2 : BitVec 6).toNat = 2 from rfl, hx]
    rcases eq_or_ne s.framer.prefixLen 0 with h0 | h0
    · -- a frame without a body
      refine ⟨[[]], [], by rw [h0]; rfl, by simp, ?_, ?_⟩
      · rw [h0, if_pos rfl] at hphase
        rw [At, hphase]
      · rw [given_pending i hcomp]
        simp [frameMessage, show bodyLen 0 = 0 from rfl]
    · have hpos : 0 < s.framer.prefixLen.toNat := by
        refine Nat.pos_of_ne_zero fun h => h0 (UInt16.toNat_inj.mp h)
      rw [if_neg h0] at hphase
      refine ⟨[], toBytes 2 s.framer.prefixLen.toNat, by simp, by simp, ?_, ?_⟩
      · rcases Nat.lt_or_ge msgMaxBytes s.framer.prefixLen.toNat with hbig | hsmall
        · rw [if_pos hbig] at hphase
          rw [At, hphase, hlen, hremain]
          exact ⟨[], (List.append_nil _).symm, Nat.zero_add _, hbig, hpos⟩
        · rw [if_neg (Nat.not_lt.mpr hsmall)] at hphase
          rw [At, hphase, hlen, hremain, hwidx]
          exact ⟨[], (List.append_nil _).symm, Nat.zero_add _, rfl, hsmall, hpos,
            fun j hj => absurd hj (Nat.not_lt_zero j)⟩
      · rw [given_pending i hcomp]
        simp

theorem frame_eq {e : List UInt8} {n : ℕ} (h : e.length = n) : toBytes 2 n ++ e = frame e := by
  rw [frame, h]

/-- Without enough bytes for a beat nothing moves. -/
theorem bodyConsume_cases (f : FramerState) (hpos : 0 < f.remain.toNat) :
    f.bodyConsume = 0 ∨ (f.bodyConsume.toNat = f.beatSize ∧ f.bodyConsume ≠ 0 ∧
      f.beatSize ≤ f.cnt.toNat) := by
  have h := f.bodyConsume_toNat
  have hsize : 0 < f.beatSize := by
    unfold FramerState.beatSize
    omega
  split at h
  · refine Or.inr ⟨h, fun h0 => ?_, ‹_›⟩
    rw [h0] at h
    exact absurd h.symm hsize.ne'
  · exact Or.inl (BitVec.eq_of_toNat_eq h)

theorem remain_sub (f : FramerState) (h : f.bodyConsume.toNat = f.beatSize) :
    (f.remain - UInt16.ofNat f.bodyConsume.toNat).toNat = f.remain.toNat - f.beatSize := by
  have hle : f.beatSize ≤ f.remain.toNat := Nat.min_le_left _ _
  have hlt := f.remain.toNat_lt
  have hof : (UInt16.ofNat f.beatSize).toNat = f.beatSize :=
    UInt16.toNat_ofNat_of_lt (Nat.lt_of_le_of_lt hle hlt)
  rw [h, UInt16.toNat_sub_of_le _ _ (UInt16.le_iff_toNat_le.mpr (by rw [hof]; exact hle)), hof]

theorem remain_le_iff (f : FramerState) : f.remain ≤ 16 ↔ f.remain.toNat ≤ 16 :=
  UInt16.le_iff_toNat_le

/-- Body bytes that are not wanted. -/
theorem advances_drop (i : IngestIn) (hp : s.framer.phase = .drop)
    (hcnt : s.framer.cnt.toNat ≤ 32) (hat : At s.framer s.decoder.body c) :
    Advances s i c (s.framer.window.take s.framer.consume.toNat) := by
  have hne : s.framer.phase ≠ .settle := by rw [hp]; decide
  have hcomp := complete_eq_false hne s.decoder.decValid (s.decAccept i)
  have hcons : s.framer.consume = s.framer.bodyConsume := by rw [FramerState.consume, hp]
  have hat' := hat
  rw [At, hp] at hat'
  obtain ⟨e, hc, hlen, hbig, hpos⟩ := hat'
  rcases bodyConsume_cases s.framer hpos with h0 | ⟨hn, hn0, hle⟩
  · have hctl : s.framer.control s.decoder.decValid s.framer = s.framer := by
      rw [FramerState.control, hp]
      exact if_neg (by rw [hcons, h0]; simp)
    rw [hcons, h0]
    exact advances_nothing i hat hctl hcomp (hcons.trans h0)
  · obtain ⟨hphase, hlen', hremain, hwidx⟩ := framer_phase (s := s) i
    have hctl : s.framer.control s.decoder.decValid s.framer =
        { s.framer with
          remain := s.framer.remain - UInt16.ofNat s.framer.consume.toNat
          phase := if s.framer.remain ≤ 16 then .hdr else .drop } := by
      rw [FramerState.control, hp]
      dsimp only
      rw [if_pos (by rw [hcons]; exact hn0)]
      split <;> simp [← hp]
    rw [hctl] at hphase hlen' hremain hwidx
    dsimp only at hphase hlen' hremain hwidx
    have hrem := remain_sub s.framer hn
    rw [← hcons] at hrem hn
    have hsize : s.framer.beatSize = min s.framer.remain.toNat 16 := rfl
    have hxlen : (s.framer.window.take s.framer.beatSize).length = s.framer.beatSize := by
      rw [List.length_take, FramerState.window_length hcnt]
      omega
    have h16 := remain_le_iff s.framer
    rw [hn]
    by_cases hlast : s.framer.remain ≤ 16
    · -- the frame is over, its length is that of no supported type
      rw [if_pos hlast] at hphase
      have hrem16 := h16.mp hlast
      have hfull : (e ++ s.framer.window.take s.framer.beatSize).length =
          s.framer.len.toNat := by
        rw [List.length_append, hxlen]
        omega
      refine ⟨[e ++ s.framer.window.take s.framer.beatSize], [], ?_, ?_, ?_, ?_⟩
      · rw [hc, List.append_assoc, frame_eq hfull]
        simp
      · intro b hb
        obtain rfl := List.mem_singleton.mp hb
        rw [hfull]
        exact s.framer.len.toNat_lt
      · rw [At, hphase]
      · have hnone : frameMessage (e ++ s.framer.window.take s.framer.beatSize) = none := by
          apply if_neg
          rintro ⟨-, heq⟩
          have := bodyLen_le ((e ++ s.framer.window.take s.framer.beatSize).getD 0 0)
          omega
        rw [given_pending i hcomp, List.filterMap_cons_none hnone]
        simp
    · rw [if_neg hlast] at hphase
      have hrem16 : ¬ s.framer.remain.toNat ≤ 16 := fun h => hlast (h16.mpr h)
      refine ⟨[], c ++ s.framer.window.take s.framer.beatSize, by simp, by simp, ?_, ?_⟩
      · rw [At, hphase, hlen', hremain]
        refine ⟨e ++ s.framer.window.take s.framer.beatSize, by rw [hc, List.append_assoc], ?_, hbig,
          ?_⟩
        · rw [List.length_append, hxlen, hrem]
          omega
        · rw [hrem]
          omega
      · rw [given_pending i hcomp]
        simp

/-- The bytes of a body beat are the front of the window. -/
theorem beat?_toDecoder (f : FramerState) (p a : Bool) (hp : f.phase = .body)
    (hcons : f.consume ≠ 0) (h16 : f.consume.toNat ≤ 16) :
    (f.toDecoder p a).beat? = some (f.widx.toNat, f.window.take f.consume.toNat) := by
  have hvalid : (f.toDecoder p a).msgBeatValid = true := decide_eq_true ⟨hp, hcons⟩
  have hbytes : (f.toDecoder p a).msgNbytes.toNat = f.consume.toNat := by
    show (f.consume.setWidth 5).toNat = _
    rw [BitVec.toNat_setWidth]
    omega
  have hle := f.consume_le
  rw [DecoderIn.beat?, if_pos hvalid, hbytes]
  have hlanes : (f.toDecoder p a).msgData.toList.take f.consume.toNat =
      f.window.take f.consume.toNat := by
    apply List.ext_getElem?
    intro j
    rw [FramerState.window, List.take_take, Nat.min_eq_left hle]
    rcases Nat.lt_or_ge j f.consume.toNat with hj | hj
    · rw [List.getElem?_take_of_lt hj, List.getElem?_take_of_lt hj]
      simp [FramerState.toDecoder, show j < 16 by omega, show j < 32 by omega]
    · rw [List.getElem?_eq_none (by rw [List.length_take]; omega),
        List.getElem?_eq_none (by rw [List.length_take]; omega)]
  rw [hlanes]
  rfl

/-- Body bytes for the decoder. -/
theorem advances_body (i : IngestIn) (hp : s.framer.phase = .body)
    (hcnt : s.framer.cnt.toNat ≤ 32) (hat : At s.framer s.decoder.body c) :
    Advances s i c (s.framer.window.take s.framer.consume.toNat) := by
  have hne : s.framer.phase ≠ .settle := by rw [hp]; decide
  have hcomp := complete_eq_false hne s.decoder.decValid (s.decAccept i)
  have hcons : s.framer.consume = s.framer.bodyConsume := by rw [FramerState.consume, hp]
  have hat' := hat
  rw [At, hp] at hat'
  obtain ⟨e, hc, hlen, hwords, hsmall, hpos, hholds⟩ := hat'
  rcases bodyConsume_cases s.framer hpos with h0 | ⟨hn, hn0, hle⟩
  · have hctl : s.framer.control s.decoder.decValid s.framer = s.framer := by
      rw [FramerState.control, hp]
      exact if_neg (by rw [hcons, h0]; simp)
    rw [hcons, h0]
    exact advances_nothing i hat hctl hcomp (hcons.trans h0)
  · obtain ⟨hphase, hlen', hremain, hwidx⟩ := framer_phase (s := s) i
    have hctl : s.framer.control s.decoder.decValid s.framer =
        { s.framer with
          remain := s.framer.remain - UInt16.ofNat s.framer.consume.toNat
          phase := if s.framer.remain ≤ 16 then .settle else .body
          widx := if s.framer.remain ≤ 16 then s.framer.widx else s.framer.widx + 1 } := by
      rw [FramerState.control, hp]
      dsimp only
      rw [if_pos (by rw [hcons]; exact hn0)]
      split <;> simp [← hp]
    rw [hctl] at hphase hlen' hremain hwidx
    dsimp only at hphase hlen' hremain hwidx
    have hrem := remain_sub s.framer hn
    rw [← hcons] at hrem hn hn0
    have hsize : s.framer.beatSize = min s.framer.remain.toNat 16 := rfl
    have hxlen : (s.framer.window.take s.framer.beatSize).length = s.framer.beatSize := by
      rw [List.length_take, FramerState.window_length hcnt]
      omega
    have h16 := remain_le_iff s.framer
    -- the buffer takes the word that is new
    set e' := e ++ s.framer.window.take s.framer.beatSize with he'
    have he'len : e'.length = e.length + s.framer.beatSize := by
      rw [he', List.length_append, hxlen]
    have hbeat := beat?_toDecoder s.framer s.decoder.decValid (s.decAccept i) hp hn0 (by omega)
    have h16take : (s.framer.window.take s.framer.beatSize).take 16 =
        s.framer.window.take s.framer.beatSize := List.take_of_length_le (by rw [hxlen]; omega)
    have hword : (s.framer.widx.toNat, s.framer.window.take s.framer.consume.toNat) =
        word e' s.framer.widx.toNat := by
      rw [word, ← hwords, he', List.drop_left, hn, h16take]
    have hold : DecoderState.Holds s.decoder.body e' (16 * s.framer.widx.toNat) := by
      intro j hj _
      rw [hholds j (by omega) (by omega), he', List.getD_append _ _ _ _ (by omega)]
    have hnew : DecoderState.Holds (s.step i).decoder.body e' e'.length := by
      have h := hold.write (by omega) (hword ▸ hbeat)
      rw [decoder_body i hne, if_pos ⟨hp, hn0⟩]
      intro j hj hj'
      exact h j (by omega) hj'
    rw [hn]
    refine ⟨[], c ++ s.framer.window.take s.framer.beatSize, by simp, by simp, ?_, ?_⟩
    · have hce : c ++ s.framer.window.take s.framer.beatSize =
          toBytes 2 s.framer.len.toNat ++ e' := by rw [hc, he', List.append_assoc]
      by_cases hlast : s.framer.remain ≤ 16
      · have hrem16 := h16.mp hlast
        rw [if_pos hlast] at hphase
        rw [At, hphase, hlen']
        exact ⟨e', hce, by omega, by omega, hsmall, hnew⟩
      · have hrem16 : ¬ s.framer.remain.toNat ≤ 16 := fun h => hlast (h16.mpr h)
        have hw : (s.framer.widx + 1).toNat = s.framer.widx.toNat + 1 := by
          rw [BitVec.toNat_add]
          exact Nat.mod_eq_of_lt (by show s.framer.widx.toNat + 1 < 4; omega)
        rw [if_neg hlast] at hphase hwidx
        rw [At, hphase, hlen', hremain, hwidx, hw, hrem]
        exact ⟨e', hce, by omega, by omega, hsmall, by omega, hnew⟩
    · rw [given_pending i hcomp]
      simp

/-- A complete body waits until the decoder is free, then its message is latched. -/
theorem advances_settle (i : IngestIn) (hp : s.framer.phase = .settle)
    (hat : At s.framer s.decoder.body c) :
    Advances s i c (s.framer.window.take s.framer.consume.toNat) := by
  have hcons : s.framer.consume = 0 := by rw [FramerState.consume, hp]
  rw [hcons]
  cases hv : s.decoder.decValid with
  | true =>
    have hctl : s.framer.control s.decoder.decValid s.framer = s.framer := by
      rw [FramerState.control, hp, hv]
      rfl
    have hcomp : (s.framer.toDecoder s.decoder.decValid (s.decAccept i)).msgComplete = false := by
      rw [hv]
      exact Bool.and_false _
    exact advances_nothing i hat hctl hcomp hcons
  | false =>
    rw [At, hp] at hat
    obtain ⟨e, hc, hlen, hpos, hsmall, hholds⟩ := hat
    obtain ⟨hphase, -⟩ := framer_phase (s := s) i
    have hctl : s.framer.control s.decoder.decValid s.framer = { s.framer with phase := .hdr } := by
      rw [FramerState.control, hp, hv]
      rfl
    rw [hctl] at hphase
    have hcomp : (s.framer.toDecoder s.decoder.decValid (s.decAccept i)).msgComplete = true := by
      rw [hv]
      exact (Bool.and_true _).trans (decide_eq_true hp)
    have hbeat : (s.framer.toDecoder s.decoder.decValid (s.decAccept i)).msgBeatValid = false :=
      decide_eq_false fun h => h.2 hcons
    have hpending := (DecoderState.step_of_complete (s := s.decoder) hcomp hbeat).2
    have h0 : DecoderState.byteAt s.decoder.body 0 = e.getD 0 0 := hholds 0 (by omega) (by omega)
    have hmlen : (s.framer.toDecoder s.decoder.decValid (s.decAccept i)).msgLen.toNat = e.length :=
      hlen.symm
    have hgiven : ingest.given s i = [] := by
      show (if i.engineIdle && s.decoder.decValid then [s.decoder.dec] else []) = []
      rw [hv, Bool.and_false, if_neg Bool.false_ne_true]
    have hnone : s.decoder.pending = [] := if_neg (by rw [hv]; exact Bool.false_ne_true)
    refine ⟨[e], [], ?_, ?_, ?_, ?_⟩
    · rw [hc, frame_eq hlen]
      simp
    · intro b hb
      obtain rfl := List.mem_singleton.mp hb
      omega
    · rw [At, hphase]
    · rw [hgiven, hnone, show (s.step i).decoder.pending = _ from hpending, h0, hmlen,
        List.nil_append, List.nil_append, List.filterMap_cons, List.filterMap_nil, frameMessage]
      split
      · rename_i hok
        rw [dC_of_holds hholds hok.2 hok.1]
      · rfl

end IngestState

end ItchOrderbook.Rtl
