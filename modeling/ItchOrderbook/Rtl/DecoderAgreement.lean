import ItchOrderbook.Parser.ItchParserSpec
import ItchOrderbook.Rtl.ItchDecoder
import ItchOrderbook.Sim.ReferenceModel

/-!
# The three decoders agree

The software parser, the hardware decoder and the simulation's reference each mirror the wire
layout by hand. Whatever an earlier message left in the hardware's buffer, on a body of at most
48 bytes the hardware accepts what the parser accepts and all three extract the same fields
(`decoders_agree`).
-/

namespace ItchOrderbook.Rtl

open BigEndian

/-! ## Beats into the buffer -/

/-- The word index and the valid bytes of a beat. -/
def DecoderIn.beat? (i : DecoderIn) : Option (ℕ × List UInt8) :=
  if i.msgBeatValid then some (i.msgWidx.toNat, i.msgData.toList.take i.msgNbytes.toNat) else none

/-- Word `w` of a body. -/
def word (b : List UInt8) (w : ℕ) : ℕ × List UInt8 := (w, (b.drop (16 * w)).take 16)

/-- The cycles carry the words of a body, in order, none of them completing a message. -/
structure Carries (b : List UInt8) (ins : List DecoderIn) : Prop where
  beats : ins.filterMap DecoderIn.beat? = (List.range ((b.length + 15) / 16)).map (word b)
  quiet : ∀ i ∈ ins, i.msgComplete = false

namespace DecoderState

/-- The first `n` bytes of the buffer are those of the body. -/
def Holds (body : Vector UInt8 48) (b : List UInt8) (n : ℕ) : Prop :=
  ∀ j < n, j < b.length → byteAt body j = b.getD j 0

/-- A beat writes its bytes from its word's offset on. -/
theorem byteAt_writeBeat (body : Vector UInt8 48) {i : DecoderIn} {w : ℕ} {bytes : List UInt8}
    (h : i.beat? = some (w, bytes)) {j : ℕ} (hj : j < 48) :
    byteAt (writeBeat body i) j =
      (if 16 * w ≤ j then bytes[j - 16 * w]? else none).getD (byteAt body j) := by
  unfold DecoderIn.beat? at h
  split at h
  · obtain ⟨rfl, rfl⟩ := Prod.ext_iff.mp (Option.some_inj.mp h)
    have hbody : byteAt body j = body[j] := by simp [byteAt, hj]
    rw [hbody, byteAt, Vector.getElem?_eq_getElem hj, writeBeat, Vector.getElem_ofFn,
      Option.getD_some]
    simp only [wordBytes, Nat.mul_comm _ 16, List.getElem?_take]
    by_cases hw : 16 * i.msgWidx.toNat ≤ j
    · by_cases hl : j - 16 * i.msgWidx.toNat < i.msgNbytes.toNat
      · simp [hw, hl]
      · simp [hw, hl]
    · simp [hw]
  · cases h

/-- A cycle without a beat leaves the buffer. -/
theorem body_step_of_none (s : DecoderState) {i : DecoderIn} (h : i.beat? = none) :
    (s.step i).body = s.body := by
  have hv : i.msgBeatValid = false := by
    unfold DecoderIn.beat? at h
    split at h
    · cases h
    · rwa [Bool.not_eq_true] at *
  simp only [step, hv, Bool.false_eq_true, if_false]
  repeat' split
  all_goals rfl

theorem body_step_of_some (s : DecoderState) {i : DecoderIn} {p : ℕ × List UInt8}
    (h : i.beat? = some p) : (s.step i).body = writeBeat s.body i := by
  have hv : i.msgBeatValid = true := by
    unfold DecoderIn.beat? at h
    split at h
    · assumption
    · cases h
  simp only [step, hv, if_true]
  repeat' split
  all_goals rfl

/-- One more word in the buffer. -/
theorem Holds.write {body : Vector UInt8 48} {b : List UInt8} {w : ℕ} {i : DecoderIn}
    (hb : b.length ≤ 48) (h : Holds body b (16 * w)) (hi : i.beat? = some (word b w)) :
    Holds (writeBeat body i) b (16 * (w + 1)) := by
  intro j hj hjb
  rw [byteAt_writeBeat body hi (by omega)]
  split
  · -- inside the word: the byte comes from the beat
    rw [List.getElem?_take_of_lt (by omega), List.getElem?_drop, Nat.add_sub_cancel' ‹_›,
      List.getElem?_eq_getElem hjb, Option.getD_some, List.getD_eq_getElem _ _ hjb]
  · exact h j (by omega) hjb

/-- The words of a body, in order, fill the buffer. Induction on the cycles. -/
theorem Holds.run {b : List UInt8} {ins : List DecoderIn} (hb : b.length ≤ 48) {w n : ℕ}
    (s : DecoderState) (h : Holds s.body b (16 * w))
    (hbeats : ins.filterMap DecoderIn.beat? = (List.range' w n).map (word b)) :
    Holds (ins.foldl step s).body b (16 * (w + n)) := by
  induction ins generalizing s w n with
  | nil =>
    cases n with
    | zero => exact h
    | succ n => cases hbeats
  | cons i ins ih =>
    cases hi : i.beat? with
    | none =>
      rw [List.filterMap_cons_none hi] at hbeats
      exact ih (s.step i) (by rwa [body_step_of_none s hi]) hbeats
    | some p =>
      rw [List.filterMap_cons_some hi] at hbeats
      cases n with
      | zero => cases hbeats
      | succ n =>
        rw [List.range'_succ, List.map_cons] at hbeats
        obtain ⟨rfl, hrest⟩ := List.cons.inj hbeats
        have hstep := (h.write hb hi)
        rw [← body_step_of_some s hi] at hstep
        have := ih (s.step i) hstep hrest
        rwa [show w + 1 + n = w + (n + 1) by omega] at this

/-- The buffer holds a body that was carried into it, whatever it held before. -/
theorem holds_of_carries {b : List UInt8} {ins : List DecoderIn} (hb : b.length ≤ 48)
    (hc : Carries b ins) (s : DecoderState) : Holds (ins.foldl step s).body b b.length := by
  have hbeats := hc.beats
  rw [List.range_eq_range'] at hbeats
  have h := Holds.run hb (w := 0) s (fun j hj => absurd hj (Nat.not_lt_zero j)) hbeats
  intro j hj
  exact h j (by omega)

/-! ## Loads from the buffer -/

section
variable {body : Vector UInt8 48} {b : List UInt8} {k : ℕ}

theorem Holds.be16 (h : Holds body b b.length) (hk : k + 2 ≤ b.length) :
    be16 body k = ItchOrderbook.be16 (b.drop k) := by
  simp only [DecoderState.be16, ItchOrderbook.be16, getD_drop]
  rw [← h (k + 0) (by omega) (by omega), ← h (k + 1) (by omega) (by omega)]
  rfl

theorem Holds.be32 (h : Holds body b b.length) (hk : k + 4 ≤ b.length) :
    be32 body k = ItchOrderbook.be32 (b.drop k) := by
  simp only [DecoderState.be32, ItchOrderbook.be32, getD_drop]
  rw [← h (k + 0) (by omega) (by omega), ← h (k + 1) (by omega) (by omega),
    ← h (k + 2) (by omega) (by omega), ← h (k + 3) (by omega) (by omega)]
  rfl

theorem Holds.be64 (h : Holds body b b.length) (hk : k + 8 ≤ b.length) :
    be64 body k = ItchOrderbook.be64 (b.drop k) := by
  simp only [DecoderState.be64, ItchOrderbook.be64, getD_drop]
  rw [← h (k + 0) (by omega) (by omega), ← h (k + 1) (by omega) (by omega),
    ← h (k + 2) (by omega) (by omega), ← h (k + 3) (by omega) (by omega),
    ← h (k + 4) (by omega) (by omega), ← h (k + 5) (by omega) (by omega),
    ← h (k + 6) (by omega) (by omega), ← h (k + 7) (by omega) (by omega)]
  rfl

end

end DecoderState

/-! ## Loads of the simulation -/

section
variable {b : List UInt8} {k : ℕ}

theorem getElem?_of_lt (h : k < b.length) : b[k]? = some (b.getD k 0) := by
  rw [List.getElem?_eq_getElem h, List.getD_eq_getElem _ _ h]

theorem sim_be16 (hk : k + 2 ≤ b.length) : Sim.be16 b k = some (be16 (b.drop k)) := by
  simp only [Sim.be16, be16, getD_drop]
  rw [getElem?_of_lt (by omega), getElem?_of_lt (by omega)]
  rfl

theorem sim_be32 (hk : k + 4 ≤ b.length) : Sim.be32 b k = some (be32 (b.drop k)) := by
  simp only [Sim.be32, be32, getD_drop]
  rw [getElem?_of_lt (by omega), getElem?_of_lt (by omega), getElem?_of_lt (by omega),
    getElem?_of_lt (by omega)]
  rfl

/-- The loop of loads is the loop over the bytes it loads. -/
theorem foldlM_loads {is : List ℕ} (h : ∀ i ∈ is, k + i < b.length) (v : UInt64) :
    is.foldlM (fun v (i : ℕ) => do return v <<< 8 ||| (← b[k + i]?).toUInt64) v =
      some ((is.map fun i => b.getD (k + i) 0).foldl
        (fun (v : UInt64) x => v <<< 8 ||| x.toUInt64) v) := by
  induction is generalizing v with
  | nil => rfl
  | cons i is ih =>
    rw [List.foldlM_cons, getElem?_of_lt (h i List.mem_cons_self)]
    exact ih (fun j hj => h j (List.mem_cons_of_mem _ hj)) _

theorem sim_be64 (hk : k + 8 ≤ b.length) : Sim.be64 b k = some (be64 (b.drop k)) := by
  have hin : ∀ i ∈ List.range 8, k + i < b.length := by
    intro i hi
    have := List.mem_range.mp hi
    omega
  rw [Sim.be64, foldlM_loads hin, Option.some_inj, ← UInt64.toNat_inj, foldl_push64 (by simp)]
  simp only [be64, getD_drop]
  exact (word64_toNat ..).symm

end

/-! ## Types -/

/-- The two length tables agree on every type byte. -/
theorem bodyLen_eq (t : UInt8) : bodyLen t = msgBodyLen (MsgType.ofByte t) := by
  simp only [bodyLen, MsgType.ofByte, apply_ite msgBodyLen]
  rfl

theorem decodeFields_type (b : List UInt8) (m : DecodedMessage) :
    (decodeFields b m).type = m.type := by
  unfold decodeFields
  cases ht : m.type <;> simp

/-- When the parser knows a body: its type has a length and the body has that length. -/
theorem decodeBody_type_ne {b : List UInt8} (hb : b ≠ []) :
    (decodeBody b b.length).type ≠ .unknown ↔
      bodyLen (b.getD 0 0) ≠ 0 ∧ b.length = bodyLen (b.getD 0 0) := by
  have hlen : b.length ≠ 0 := by rwa [ne_eq, List.length_eq_zero_iff]
  have hzero (t : MsgType) : msgBodyLen t = 0 ↔ t = .unknown := by cases t <;> decide
  rw [decodeBody, if_neg hlen, bodyLen_eq]
  dsimp only [Hdr.type]
  split
  · rename_i h
    constructor
    · exact fun hne => absurd rfl hne
    · exact fun hok => (h.elim hok.1 (fun hne => hne hok.2)).elim
  · rename_i h
    rw [not_or, not_not] at h
    rw [decodeFields_type]
    exact ⟨fun _ => h, fun _ => fun ht => h.1 ((hzero _).mpr ht)⟩

/-! ## Agreement -/

/-- A hardware message and a software message agree field by field. -/
structure Agree (d : Decoded) (m : DecodedMessage) : Prop where
  type : MsgType.ofByte d.mtype = m.type
  locate : d.stockLocate = m.stockLocate
  timestamp : d.timestamp = m.timestamp
  orderRef : d.orderRef = m.orderRef
  newOrderRef : d.newOrderRef = m.newOrderRef
  shares : d.shares = m.shares
  price : d.price = m.price
  printable : d.printable = true ↔ m.printable = 1
  isBid : d.isBid = true ↔ m.side = ItchOrderbook.sideBuy

/-- A hardware message and a message of the simulation agree field by field. -/
structure AgreeSim (d : Decoded) (r : Sim.RefMsg) : Prop where
  type : d.mtype = r.type
  locate : d.stockLocate = r.locate
  orderRef : d.orderRef = r.orderRef
  newOrderRef : d.newOrderRef = r.newOrderRef
  shares : d.shares = r.shares
  price : d.price = r.price
  printable : d.printable = r.printable
  isBid : d.isBid = r.isBid

/-- The message of the simulation with the fields of a hardware message. -/
def Decoded.toRefMsg (d : Decoded) : Sim.RefMsg where
  type := d.mtype
  isBid := d.isBid
  printable := d.printable
  locate := d.stockLocate
  price := d.price
  shares := d.shares
  orderRef := d.orderRef
  newOrderRef := d.newOrderRef

theorem agreeSim_toRefMsg (d : Decoded) : AgreeSim d d.toRefMsg :=
  ⟨rfl, rfl, rfl, rfl, rfl, rfl, rfl, rfl⟩

/-- The supported type bytes. -/
theorem typeByte_cases {t : UInt8} (h : bodyLen t ≠ 0) :
    t = tAdd ∨ t = tAddMpid ∨ t = tExec ∨ t = tExecPr ∨ t = tCancel ∨ t = tDelete ∨ t = tReplace ∨
      t = tTrade ∨ t = tSystem := by
  unfold bodyLen at h
  repeat' split at h
  all_goals simp_all

open DecoderState in
/-- The buffer decodes as the parser does. -/
theorem agree_dC {body : Vector UInt8 48} {b : List UInt8} (h : Holds body b b.length)
    (hlen : b.length = bodyLen (b.getD 0 0)) (hne : bodyLen (b.getD 0 0) ≠ 0) :
    Agree (dC body) (decodeBody b b.length) := by
  have hpos : b.length ≠ 0 := hlen ▸ hne
  have h0 : byteAt body 0 = b.getD 0 0 := h 0 (Nat.pos_of_ne_zero hpos) (Nat.pos_of_ne_zero hpos)
  have hdec : decodeBody b b.length = decodeFields b
      { type := MsgType.ofByte (b.getD 0 0)
        stockLocate := ItchOrderbook.be16 (b.drop Hdr.stockLoc)
        stockIdx := ItchOrderbook.be16 (b.drop Hdr.stockLoc)
        timestamp := ItchOrderbook.be64 (b.drop Hdr.timestamp) } := by
    rw [decodeBody, if_neg hpos]
    exact if_neg (not_or.mpr ⟨bodyLen_eq _ ▸ hne, not_not.mpr (hlen.trans (bodyLen_eq _))⟩)
  have hhdr : 13 ≤ b.length := hlen.trans (bodyLen_eq _) ▸ msgBodyLen_ge_header (bodyLen_eq _ ▸ hne)
  have hloc := h.be16 (show 1 + 2 ≤ b.length by omega)
  have hts := h.be64 (show 5 + 8 ≤ b.length by omega)
  -- the loads of the type, at the offsets both sides name
  have l64 (k : ℕ) (hk : k + 8 ≤ bodyLen (b.getD 0 0)) := h.be64 (hlen ▸ hk)
  have l32 (k : ℕ) (hk : k + 4 ≤ bodyLen (b.getD 0 0)) := h.be32 (hlen ▸ hk)
  have l8 (k : ℕ) (hk : k < bodyLen (b.getD 0 0)) := h k (hlen ▸ hk) (hlen ▸ hk)
  have noFlag : (false = true) ↔ (0 : UInt8) = 1 := by decide
  have noSide : (false = true) ↔ (0 : UInt8) = ItchOrderbook.sideBuy := by decide
  rw [hdec]
  unfold dC
  rw [h0]
  rcases typeByte_cases hne with ht | ht | ht | ht | ht | ht | ht | ht | ht <;>
    rw [ht] at l64 l32 l8 ⊢
  -- add and add with MPID
  iterate 2
    exact
      { type := rfl, locate := hloc, timestamp := hts, newOrderRef := rfl, printable := noFlag
        orderRef := l64 13 (by decide), shares := l32 22 (by decide), price := l32 34 (by decide)
        isBid := beq_iff_eq.trans (l8 21 (by decide) ▸ Iff.rfl) }
  -- execution
  · exact
      { type := rfl, locate := hloc, timestamp := hts, newOrderRef := rfl, printable := noFlag
        isBid := noSide, price := rfl
        orderRef := l64 13 (by decide), shares := l32 21 (by decide) }
  -- execution with price
  · have hflag : (byteAt body 33 == 'Y'.toUInt8) = true ↔
        (if b.getD 33 0 = 'Y'.toUInt8 then 1 else 0 : UInt8) = 1 := by
      rw [l8 33 (by decide), beq_iff_eq]
      split <;> simp_all
    exact
      { type := rfl, locate := hloc, timestamp := hts, newOrderRef := rfl, printable := hflag
        isBid := noSide
        orderRef := l64 13 (by decide), shares := l32 21 (by decide), price := l32 34 (by decide) }
  -- cancel
  · exact
      { type := rfl, locate := hloc, timestamp := hts, newOrderRef := rfl, printable := noFlag
        isBid := noSide, price := rfl
        orderRef := l64 13 (by decide), shares := l32 21 (by decide) }
  -- delete
  · exact
      { type := rfl, locate := hloc, timestamp := hts, newOrderRef := rfl, printable := noFlag
        isBid := noSide, price := rfl, shares := rfl, orderRef := l64 13 (by decide) }
  -- replace
  · exact
      { type := rfl, locate := hloc, timestamp := hts, printable := noFlag, isBid := noSide
        orderRef := l64 13 (by decide), newOrderRef := l64 21 (by decide)
        shares := l32 29 (by decide), price := l32 33 (by decide) }
  -- trade
  · exact
      { type := rfl, locate := hloc, timestamp := hts, newOrderRef := rfl, printable := noFlag
        orderRef := l64 13 (by decide), shares := l32 22 (by decide), price := l32 34 (by decide)
        isBid := beq_iff_eq.trans (l8 21 (by decide) ▸ Iff.rfl) }
  -- system event
  · exact
      { type := rfl, locate := hloc, timestamp := hts, newOrderRef := rfl, printable := noFlag
        isBid := noSide, price := rfl, shares := rfl, orderRef := rfl }

open DecoderState in
/-- The buffer decodes as the simulation's reference does. -/
theorem sim_decodeBody {body : Vector UInt8 48} {b : List UInt8} (h : Holds body b b.length)
    (hlen : b.length = bodyLen (b.getD 0 0)) (hne : bodyLen (b.getD 0 0) ≠ 0) :
    Sim.decodeBody b = some (dC body).toRefMsg := by
  have hpos : b.length ≠ 0 := hlen ▸ hne
  have h0 : byteAt body 0 = b.getD 0 0 := h 0 (Nat.pos_of_ne_zero hpos) (Nat.pos_of_ne_zero hpos)
  have hhdr : 13 ≤ b.length := hlen.trans (bodyLen_eq _) ▸ msgBodyLen_ge_header (bodyLen_eq _ ▸ hne)
  -- each load of the simulation is the load of the hardware at the same offset
  have l16 (k : ℕ) (hk : k + 2 ≤ 13) :
      Sim.be16 b k = some (DecoderState.be16 body k) := by
    rw [sim_be16 (by omega), h.be16 (by omega)]
  have l64 (k : ℕ) (hk : k + 8 ≤ bodyLen (b.getD 0 0)) :
      Sim.be64 b k = some (DecoderState.be64 body k) := by
    rw [sim_be64 (hlen ▸ hk), h.be64 (hlen ▸ hk)]
  have l32 (k : ℕ) (hk : k + 4 ≤ bodyLen (b.getD 0 0)) :
      Sim.be32 b k = some (DecoderState.be32 body k) := by
    rw [sim_be32 (hlen ▸ hk), h.be32 (hlen ▸ hk)]
  have l8 (k : ℕ) (hk : k < bodyLen (b.getD 0 0)) : b[k]? = some (byteAt body k) := by
    rw [getElem?_of_lt (hlen ▸ hk), h k (hlen ▸ hk) (hlen ▸ hk)]
  match b, hpos with
  | t :: rest, _ =>
    change bodyLen t ≠ 0 at hne
    change byteAt body 0 = t at h0
    rw [List.getD_cons_zero] at l64 l32 l8
    unfold dC Sim.decodeBody
    rw [h0, l16 1 (by decide)]
    rcases typeByte_cases hne with rfl | rfl | rfl | rfl | rfl | rfl | rfl | rfl | rfl
    · rw [l64 13 (by decide), l8 21 (by decide), l32 22 (by decide), l32 34 (by decide)]
      rfl
    · rw [l64 13 (by decide), l8 21 (by decide), l32 22 (by decide), l32 34 (by decide)]
      rfl
    · rw [l64 13 (by decide), l32 21 (by decide)]
      rfl
    · rw [l64 13 (by decide), l32 21 (by decide), l8 33 (by decide), l32 34 (by decide)]
      rfl
    · rw [l64 13 (by decide), l32 21 (by decide)]
      rfl
    · rw [l64 13 (by decide)]
      rfl
    · rw [l64 13 (by decide), l64 21 (by decide), l32 29 (by decide), l32 33 (by decide)]
      rfl
    · rw [l64 13 (by decide), l8 21 (by decide), l32 22 (by decide), l32 34 (by decide)]
      rfl
    · rfl

/-- The three decoders agree. Carry any body of 1 to 48 bytes into the hardware decoder, beat by
beat and with any idle cycles between, over any buffer an earlier message left, and complete it:
the hardware marks it valid exactly when the parser gives it a type, and then the message
register agrees field by field with the parser's message and with the one of the simulation. -/
theorem decoders_agree (s : DecoderState) {b : List UInt8} (h1 : 1 ≤ b.length)
    (h48 : b.length ≤ 48) {ins : List DecoderIn} (hc : Carries b ins) {last : DecoderIn}
    (hlast : last.msgComplete = true) (hlen : last.msgLen.toNat = b.length) :
    let s' := (ins.foldl DecoderState.step s).step last
    let m := decodeBody b b.length
    (s'.decValid = true ↔ m.type ≠ .unknown) ∧
      (m.type ≠ .unknown →
        Agree s'.dec m ∧ ∃ r, Sim.decodeBody b = some r ∧ AgreeSim s'.dec r) := by
  intro s' m
  have hholds := DecoderState.holds_of_carries h48 hc s
  have h0 := hholds 0 h1 h1
  have htype := decodeBody_type_ne (b := b) (List.ne_nil_of_length_pos h1)
  have hstep : s' = if bodyLen (b.getD 0 0) ≠ 0 ∧ b.length = bodyLen (b.getD 0 0)
      then { s' with dec := DecoderState.dC (ins.foldl DecoderState.step s).body, decValid := true }
      else { s' with dec := {}, decValid := false } := by
    simp only [s', DecoderState.step, hlast, if_true, h0, hlen]
    split <;> rfl
  by_cases hok : bodyLen (b.getD 0 0) ≠ 0 ∧ b.length = bodyLen (b.getD 0 0)
  · rw [if_pos hok] at hstep
    have hdec : s'.dec = DecoderState.dC (ins.foldl DecoderState.step s).body := by rw [hstep]
    have hvalid : s'.decValid = true := by rw [hstep]
    refine ⟨iff_of_true hvalid (htype.mpr hok), fun _ => ?_⟩
    rw [hdec]
    exact ⟨agree_dC hholds hok.2 hok.1, _, sim_decodeBody hholds hok.2 hok.1, agreeSim_toRefMsg _⟩
  · rw [if_neg hok] at hstep
    have hvalid : s'.decValid = false := by rw [hstep]
    refine ⟨iff_of_false (by rw [hvalid]; exact Bool.false_ne_true) (fun h => hok (htype.mp h)),
      fun h => absurd (htype.mp h) hok⟩

/-- A delete of order 7, in two beats, over a buffer full of `0xFF`. -/
theorem decoders_agree_delete :
    let b : List UInt8 := 'D'.toUInt8 :: (List.replicate 19 0 ++ [7])
    let beat (w : BitVec 2) (n : BitVec 5) : DecoderIn :=
      { msgData := Vector.ofFn fun i => b.getD (16 * w.toNat + i) 0xEE, msgNbytes := n
        msgBeatValid := true, msgWidx := w, msgComplete := false, msgLen := 21, decAccept := false }
    let last : DecoderIn :=
      { msgData := Vector.replicate 16 0, msgNbytes := 0, msgBeatValid := false, msgWidx := 0
        msgComplete := true, msgLen := 21, decAccept := false }
    let s : DecoderState := { body := Vector.replicate 48 0xFF }
    let s' := ([beat 0 16, beat 1 5].foldl DecoderState.step s).step last
    s'.decValid = true ∧ Agree s'.dec (decodeBody b 21) := by
  intro b beat last s s'
  have hc : Carries b [beat 0 16, beat 1 5] := ⟨by decide, by decide⟩
  have hlast : last.msgComplete = true := rfl
  obtain ⟨hvalid, hfields⟩ := decoders_agree s (by decide) (by decide) hc hlast rfl
  have hne : (decodeBody b b.length).type ≠ .unknown := by decide
  exact ⟨hvalid.mpr hne, (hfields hne).1⟩

end ItchOrderbook.Rtl
