import ItchOrderbook.Gui.ItchWriter
import ItchOrderbook.Parser.ItchParserSpec
import Mathlib.Data.List.TakeWhile

/-!
# What the writer builds, the parser reads back

`Message` is a call of one of the nine builders with arguments in range: integers of the width of
their field, one ASCII character where the field is one byte, an ASCII string no longer than a
text field. Its `body` is the byte layout; `build_eq` says the builder returns it framed and
`decoded_body` that the parser reads the arguments back.
-/

namespace ItchOrderbook.ItchWriter

open BigEndian

/-! ## Calls with arguments in range -/

/-- An ASCII string of at most `n` characters. -/
structure AsciiStr (n : ℕ) where
  chars : List Char
  ascii : ∀ c ∈ chars, c.toNat < 128
  short : chars.length ≤ n

/-- One ASCII character. -/
structure AsciiChar where
  char : Char
  ascii : char.toNat < 128

/-- The arguments of the common header. -/
structure HeaderArgs where
  locate : UInt16
  tracking : UInt16
  timestampNs : UInt64

/-- A call of a builder. -/
inductive Message where
  | systemEvent (h : HeaderArgs) (eventCode : AsciiChar)
  | addOrder (h : HeaderArgs) (orderRef : UInt64) (side : AsciiChar) (shares : UInt32)
      (stock : AsciiStr 8) (price : UInt32)
  | addOrderMpid (h : HeaderArgs) (orderRef : UInt64) (side : AsciiChar) (shares : UInt32)
      (stock : AsciiStr 8) (price : UInt32) (mpid : AsciiStr 4)
  | orderExecuted (h : HeaderArgs) (orderRef : UInt64) (execShares : UInt32) (matchNumber : UInt64)
  | orderExecutedPrice (h : HeaderArgs) (orderRef : UInt64) (execShares : UInt32)
      (matchNumber : UInt64) (printable : Bool) (price : UInt32)
  | orderCancel (h : HeaderArgs) (orderRef : UInt64) (cancelledShares : UInt32)
  | orderDelete (h : HeaderArgs) (orderRef : UInt64)
  | orderReplace (h : HeaderArgs) (origRef newRef : UInt64) (shares price : UInt32)
  | trade (h : HeaderArgs) (orderRef : UInt64) (side : AsciiChar) (shares : UInt32)
      (stock : AsciiStr 8) (price : UInt32) (matchNumber : UInt64)

/-- What the call returns. -/
def Message.build : Message → Except PyError (List UInt8)
  | .systemEvent h ev =>
    ItchWriter.systemEvent h.locate.toNat h.tracking.toNat h.timestampNs.toNat [ev.char]
  | .addOrder h ref side sh st px =>
    ItchWriter.addOrder h.locate.toNat h.tracking.toNat h.timestampNs.toNat ref.toNat [side.char]
      sh.toNat st.chars px.toNat
  | .addOrderMpid h ref side sh st px mp =>
    ItchWriter.addOrderMpid h.locate.toNat h.tracking.toNat h.timestampNs.toNat ref.toNat
      [side.char] sh.toNat st.chars px.toNat mp.chars
  | .orderExecuted h ref sh mn =>
    ItchWriter.orderExecuted h.locate.toNat h.tracking.toNat h.timestampNs.toNat ref.toNat sh.toNat
      mn.toNat
  | .orderExecutedPrice h ref sh mn pr px =>
    ItchWriter.orderExecutedPrice h.locate.toNat h.tracking.toNat h.timestampNs.toNat ref.toNat
      sh.toNat mn.toNat pr px.toNat
  | .orderCancel h ref sh =>
    ItchWriter.orderCancel h.locate.toNat h.tracking.toNat h.timestampNs.toNat ref.toNat sh.toNat
  | .orderDelete h ref =>
    ItchWriter.orderDelete h.locate.toNat h.tracking.toNat h.timestampNs.toNat ref.toNat
  | .orderReplace h oref nref sh px =>
    ItchWriter.orderReplace h.locate.toNat h.tracking.toNat h.timestampNs.toNat oref.toNat
      nref.toNat sh.toNat px.toNat
  | .trade h ref side sh st px mn =>
    ItchWriter.trade h.locate.toNat h.tracking.toNat h.timestampNs.toNat ref.toNat [side.char]
      sh.toNat st.chars px.toNat mn.toNat

/-- A text field as it stands on the wire. -/
def AsciiStr.field {n : ℕ} (s : AsciiStr n) : List UInt8 :=
  s.chars.map Char.toUInt8 ++ List.replicate (n - s.chars.length) ' '.toUInt8

@[simp] theorem AsciiStr.field_length {n : ℕ} (s : AsciiStr n) : s.field.length = n := by
  have := s.short
  simp [AsciiStr.field]
  omega

/-- The message the call stands for: its arguments, in the fields of their names. -/
def Message.toDecoded : Message → DecodedMessage
  | .systemEvent h ev =>
    { type := .systemEvent, stockLocate := h.locate, stockIdx := h.locate,
      timestamp := h.timestampNs, eventCode := ev.char.toUInt8 }
  | .addOrder h ref side sh st px =>
    { type := .addOrder, stockLocate := h.locate, stockIdx := h.locate,
      timestamp := h.timestampNs, orderRef := ref, side := side.char.toUInt8, shares := sh,
      stock := ⟨st.field.toArray, st.field_length⟩, price := px }
  | .addOrderMpid h ref side sh st px mp =>
    { type := .addOrderMPID, stockLocate := h.locate, stockIdx := h.locate,
      timestamp := h.timestampNs, orderRef := ref, side := side.char.toUInt8, shares := sh,
      stock := ⟨st.field.toArray, st.field_length⟩, price := px,
      mpid := ⟨mp.field.toArray, mp.field_length⟩ }
  | .orderExecuted h ref sh mn =>
    { type := .orderExecuted, stockLocate := h.locate, stockIdx := h.locate,
      timestamp := h.timestampNs, orderRef := ref, shares := sh, matchNumber := mn }
  | .orderExecutedPrice h ref sh mn pr px =>
    { type := .orderExecutedPrice, stockLocate := h.locate, stockIdx := h.locate,
      timestamp := h.timestampNs, orderRef := ref, shares := sh, matchNumber := mn,
      printable := if pr then 1 else 0, price := px }
  | .orderCancel h ref sh =>
    { type := .orderCancel, stockLocate := h.locate, stockIdx := h.locate,
      timestamp := h.timestampNs, orderRef := ref, shares := sh }
  | .orderDelete h ref =>
    { type := .orderDelete, stockLocate := h.locate, stockIdx := h.locate,
      timestamp := h.timestampNs, orderRef := ref }
  | .orderReplace h oref nref sh px =>
    { type := .orderReplace, stockLocate := h.locate, stockIdx := h.locate,
      timestamp := h.timestampNs, orderRef := oref, newOrderRef := nref, shares := sh, price := px }
  | .trade h ref side sh st px mn =>
    { type := .trade, stockLocate := h.locate, stockIdx := h.locate,
      timestamp := h.timestampNs, orderRef := ref, side := side.char.toUInt8, shares := sh,
      stock := ⟨st.field.toArray, st.field_length⟩, price := px, matchNumber := mn }

/-! ## The layout -/

/-- The 13 header bytes. -/
def HeaderArgs.bytes (typeByte : UInt8) (h : HeaderArgs) : List UInt8 :=
  typeByte :: (toBytes 2 h.locate.toNat ++ (toBytes 2 h.tracking.toNat ++
    toBytes 8 h.timestampNs.toNat))

/-- The bytes of a message behind its header. -/
def Message.payload : Message → List UInt8
  | .systemEvent _ ev => [ev.char.toUInt8]
  | .addOrder _ ref side sh st px =>
    toBytes 8 ref.toNat ++ (side.char.toUInt8 :: (toBytes 4 sh.toNat ++ (st.field ++
      toBytes 4 px.toNat)))
  | .addOrderMpid _ ref side sh st px mp =>
    toBytes 8 ref.toNat ++ (side.char.toUInt8 :: (toBytes 4 sh.toNat ++ (st.field ++
      (toBytes 4 px.toNat ++ mp.field))))
  | .orderExecuted _ ref sh mn => toBytes 8 ref.toNat ++ (toBytes 4 sh.toNat ++ toBytes 8 mn.toNat)
  | .orderExecutedPrice _ ref sh mn pr px =>
    toBytes 8 ref.toNat ++ (toBytes 4 sh.toNat ++ (toBytes 8 mn.toNat ++
      ((if pr then 'Y'.toUInt8 else 'N'.toUInt8) :: toBytes 4 px.toNat)))
  | .orderCancel _ ref sh => toBytes 8 ref.toNat ++ toBytes 4 sh.toNat
  | .orderDelete _ ref => toBytes 8 ref.toNat
  | .orderReplace _ oref nref sh px =>
    toBytes 8 oref.toNat ++ (toBytes 8 nref.toNat ++ (toBytes 4 sh.toNat ++ toBytes 4 px.toNat))
  | .trade _ ref side sh st px mn =>
    toBytes 8 ref.toNat ++ (side.char.toUInt8 :: (toBytes 4 sh.toNat ++ (st.field ++
      (toBytes 4 px.toNat ++ toBytes 8 mn.toNat))))

/-- The type byte and the header arguments of a call. -/
def Message.header : Message → UInt8 × HeaderArgs
  | .systemEvent h _ => ('S'.toUInt8, h)
  | .addOrder h .. => ('A'.toUInt8, h)
  | .addOrderMpid h .. => ('F'.toUInt8, h)
  | .orderExecuted h .. => ('E'.toUInt8, h)
  | .orderExecutedPrice h .. => ('C'.toUInt8, h)
  | .orderCancel h .. => ('X'.toUInt8, h)
  | .orderDelete h _ => ('D'.toUInt8, h)
  | .orderReplace h .. => ('U'.toUInt8, h)
  | .trade h .. => ('P'.toUInt8, h)

/-- The body of a message. -/
def Message.body (m : Message) : List UInt8 := m.header.2.bytes m.header.1 ++ m.payload

/-! ## The builder returns the layout -/

theorem u16be_toNat (v : UInt16) : u16be (v.toNat : ℤ) = toBytes 2 v.toNat := by
  have := v.toNat_lt
  rw [u16be]
  congr 1
  omega

theorem u32be_toNat (v : UInt32) : u32be (v.toNat : ℤ) = toBytes 4 v.toNat := by
  have := v.toNat_lt
  rw [u32be]
  congr 1
  omega

theorem u64be_toNat (v : UInt64) : u64be (v.toNat : ℤ) = toBytes 8 v.toNat := by
  have := v.toNat_lt
  rw [u64be]
  congr 1
  omega

theorem encodeAscii_char (c : AsciiChar) : encodeAscii [c.char] = .ok [c.char.toUInt8] := by
  simp [encodeAscii, c.ascii]

theorem padded_chars {n : ℕ} (s : AsciiStr n) : padded n s.chars = .ok s.field := by
  have hall : (s.chars.all fun c => c.toNat < 128) = true := by
    simpa using s.ascii
  have htake : (s.chars.map Char.toUInt8).take n = s.chars.map Char.toUInt8 :=
    List.take_of_length_le (by simpa using s.short)
  rw [padded, encodeAscii, if_pos hall]
  show Except.ok _ = _
  rw [htake, AsciiStr.field, List.length_map]

theorem header_args (c : AsciiChar) (h : HeaderArgs) :
    header c.char h.locate.toNat h.tracking.toNat h.timestampNs.toNat =
      .ok (h.bytes c.char.toUInt8) := by
  rw [header, encodeAscii_char]
  show Except.ok _ = _
  rw [u16be_toNat, u16be_toNat, u64be_toNat, HeaderArgs.bytes]
  simp

@[simp] theorem HeaderArgs.bytes_length (b : UInt8) (h : HeaderArgs) : (h.bytes b).length = 13 := by
  simp [HeaderArgs.bytes]

/-- The layout has the length its type announces. -/
theorem body_length (m : Message) :
    m.body.length = msgBodyLen (MsgType.ofByte m.header.1) := by
  cases m <;> simp [Message.body, Message.header, Message.payload] <;> decide

theorem msgBodyLen_lt (t : MsgType) : msgBodyLen t < 0x10000 := by cases t <;> decide

theorem ok_bind {α β : Type} (a : α) (f : α → Except PyError β) :
    (Except.ok a >>= f) = f a := rfl

/-- A body of the asserted length is framed. -/
theorem frameOfLen_eq {m : Message} {n : ℕ} {body : List UInt8} (hbody : body = m.body)
    (hn : msgBodyLen (MsgType.ofByte m.header.1) = n) :
    frameOfLen n body = .ok (Framing.frame m.body) := by
  have hlt : m.body.length < 0x10000 := body_length m ▸ msgBodyLen_lt _
  rw [hbody, frameOfLen, if_pos ((body_length m).trans hn), frame, if_pos hlt]
  rfl

/-- A call with arguments in range does not raise. -/
theorem build_eq (m : Message) : m.build = .ok (Framing.frame m.body) := by
  cases m with
  | systemEvent h ev =>
    rw [Message.build, ItchWriter.systemEvent, header_args ⟨'S', by decide⟩ h, encodeAscii_char]
    simp only [ok_bind]
    exact frameOfLen_eq rfl rfl
  | addOrder h ref side sh st px =>
    rw [Message.build, ItchWriter.addOrder, header_args ⟨'A', by decide⟩ h, encodeAscii_char,
      stockField, padded_chars, u64be_toNat, u32be_toNat, u32be_toNat]
    simp only [ok_bind]
    exact frameOfLen_eq (by simp [Message.body, Message.header, Message.payload]) rfl
  | addOrderMpid h ref side sh st px mp =>
    rw [Message.build, ItchWriter.addOrderMpid, header_args ⟨'F', by decide⟩ h, encodeAscii_char,
      stockField, padded_chars, padded_chars, u64be_toNat, u32be_toNat, u32be_toNat]
    simp only [ok_bind]
    exact frameOfLen_eq (by simp [Message.body, Message.header, Message.payload]) rfl
  | orderExecuted h ref sh mn =>
    rw [Message.build, ItchWriter.orderExecuted, header_args ⟨'E', by decide⟩ h, u64be_toNat,
      u64be_toNat, u32be_toNat]
    simp only [ok_bind]
    exact frameOfLen_eq (by simp [Message.body, Message.header, Message.payload]) rfl
  | orderExecutedPrice h ref sh mn pr px =>
    rw [Message.build, ItchWriter.orderExecutedPrice, header_args ⟨'C', by decide⟩ h, u64be_toNat,
      u64be_toNat, u32be_toNat, u32be_toNat]
    simp only [ok_bind]
    exact frameOfLen_eq (by cases pr <;> simp [Message.body, Message.header, Message.payload]) rfl
  | orderCancel h ref sh =>
    rw [Message.build, ItchWriter.orderCancel, header_args ⟨'X', by decide⟩ h, u64be_toNat,
      u32be_toNat]
    simp only [ok_bind]
    exact frameOfLen_eq (by simp [Message.body, Message.header, Message.payload]) rfl
  | orderDelete h ref =>
    rw [Message.build, ItchWriter.orderDelete, header_args ⟨'D', by decide⟩ h, u64be_toNat]
    simp only [ok_bind]
    exact frameOfLen_eq rfl rfl
  | orderReplace h oref nref sh px =>
    rw [Message.build, ItchWriter.orderReplace, header_args ⟨'U', by decide⟩ h, u64be_toNat,
      u64be_toNat, u32be_toNat, u32be_toNat]
    simp only [ok_bind]
    exact frameOfLen_eq (by simp [Message.body, Message.header, Message.payload]) rfl
  | trade h ref side sh st px mn =>
    rw [Message.build, ItchWriter.trade, header_args ⟨'P', by decide⟩ h, encodeAscii_char,
      stockField, padded_chars, u64be_toNat, u64be_toNat, u32be_toNat, u32be_toNat]
    simp only [ok_bind]
    exact frameOfLen_eq (by simp [Message.body, Message.header, Message.payload]) rfl

/-! ## The parser reads it back -/

theorem be16_toBytes (v : UInt16) (tail : List UInt8) :
    be16 (toBytes 2 v.toNat ++ tail) = v := by
  rw [be16_append (toBytes_length _ _), ofBytes_toBytes_of_lt v.toNat_lt, UInt16.ofNat_toNat]

theorem be32_toBytes (v : UInt32) (tail : List UInt8) :
    be32 (toBytes 4 v.toNat ++ tail) = v := by
  rw [be32_append (toBytes_length _ _), ofBytes_toBytes_of_lt v.toNat_lt, UInt32.ofNat_toNat]

theorem be64_toBytes (v : UInt64) (tail : List UInt8) :
    be64 (toBytes 8 v.toNat ++ tail) = v := by
  rw [be64_append (toBytes_length _ _), ofBytes_toBytes_of_lt v.toNat_lt, UInt64.ofNat_toNat]

section
variable (m : Message) (pre : List UInt8) {k : ℕ}

/-- A field behind `pre` in the payload is what an offset behind the header points at. -/
theorem drop_body {field : List UInt8} (hp : pre ++ field <+: m.payload)
    (hk : 13 + pre.length = k) : ∃ tail, m.body.drop k = field ++ tail := by
  obtain ⟨tail, htail⟩ := hp
  refine ⟨tail, ?_⟩
  rw [Message.body, ← htail, ← hk, List.append_assoc, ← List.append_assoc]
  exact List.drop_left' (by simp)

theorem be32_field {v : UInt32} (hp : pre ++ toBytes 4 v.toNat <+: m.payload)
    (hk : 13 + pre.length = k) : be32 (m.body.drop k) = v := by
  obtain ⟨tail, htail⟩ := drop_body m pre hp hk
  rw [htail, be32_toBytes]

theorem be64_field {v : UInt64} (hp : pre ++ toBytes 8 v.toNat <+: m.payload)
    (hk : 13 + pre.length = k) : be64 (m.body.drop k) = v := by
  obtain ⟨tail, htail⟩ := drop_body m pre hp hk
  rw [htail, be64_toBytes]

theorem char_field {c : UInt8} (hp : pre ++ [c] <+: m.payload) (hk : 13 + pre.length = k) :
    m.body.getD k 0 = c := by
  obtain ⟨tail, htail⟩ := drop_body m pre hp hk
  rw [← Nat.add_zero k, ← getD_drop, htail]
  rfl

theorem text_field {n : ℕ} {s : AsciiStr n} (hp : pre ++ s.field <+: m.payload)
    (hk : 13 + pre.length = k) :
    copyChars n (m.body.drop k) = ⟨s.field.toArray, s.field_length⟩ := by
  obtain ⟨tail, htail⟩ := drop_body m pre hp hk
  rw [htail, copyChars_append s.field_length]

end

/-- The fields of the header. -/
theorem decoded_header (m : Message) :
    decoded m.body = decodeFields m.body
      { type := MsgType.ofByte m.header.1
        stockLocate := m.header.2.locate
        stockIdx := m.header.2.locate
        timestamp := m.header.2.timestampNs } := by
  have htype : m.body.getD Hdr.type 0 = m.header.1 := rfl
  have hloc : be16 (m.body.drop Hdr.stockLoc) = m.header.2.locate := by
    show be16 ((toBytes 2 _ ++ _) ++ m.payload) = _
    rw [List.append_assoc, be16_toBytes]
  have hts : be64 (m.body.drop Hdr.timestamp) = m.header.2.timestampNs := by
    show be64 ((toBytes 8 _) ++ m.payload) = _
    rw [be64_toBytes]
  have hne : msgBodyLen (MsgType.ofByte m.header.1) ≠ 0 := by
    cases m <;> exact Nat.ne_of_beq_eq_false rfl
  rw [decoded, decodeBody, if_neg (body_length m ▸ hne), htype, hloc, hts]
  exact if_neg (not_or.mpr ⟨hne, not_not.mpr (body_length m)⟩)

/-- The parser reads the arguments of the call back. -/
theorem decoded_body (m : Message) : decoded m.body = m.toDecoded := by
  rw [decoded_header]
  -- each field of the switch is looked up in the payload, behind the fields in front of it
  cases m with
  | systemEvent h ev => rfl
  | orderDelete h ref =>
    set m := Message.orderDelete h ref with hm
    have href' : be64 (m.body.drop Off.deleteRef) = ref :=
      be64_field m [] (by simp [hm, Message.payload]) rfl
    rw [show MsgType.ofByte m.header.1 = .orderDelete from rfl]
    simp only [decodeFields, href']
    rfl
  | orderCancel h ref sh =>
    set m := Message.orderCancel h ref sh with hm
    have href' : be64 (m.body.drop Off.cancelRef) = ref :=
      be64_field m [] (by simp [hm, Message.payload]) rfl
    have hsh' : be32 (m.body.drop Off.cancelShares) = sh :=
      be32_field m (toBytes 8 ref.toNat) (by simp [hm, Message.payload]) rfl
    rw [show MsgType.ofByte m.header.1 = .orderCancel from rfl]
    simp only [decodeFields, href', hsh']
    rfl
  | orderExecuted h ref sh mn =>
    set m := Message.orderExecuted h ref sh mn with hm
    have href' : be64 (m.body.drop Off.execRef) = ref :=
      be64_field m [] (by simp [hm, Message.payload]) rfl
    have hsh' : be32 (m.body.drop Off.execShares) = sh :=
      be32_field m (toBytes 8 ref.toNat) (by simp [hm, Message.payload]) rfl
    have hmn' : be64 (m.body.drop Off.execMatch) = mn :=
      be64_field m (toBytes 8 ref.toNat ++ toBytes 4 sh.toNat) (by simp [hm, Message.payload]) rfl
    rw [show MsgType.ofByte m.header.1 = .orderExecuted from rfl]
    simp only [decodeFields, href', hsh', hmn']
    rfl
  | orderReplace h oref nref sh px =>
    set m := Message.orderReplace h oref nref sh px with hm
    have horef' : be64 (m.body.drop Off.replOrigRef) = oref :=
      be64_field m [] (by simp [hm, Message.payload]) rfl
    have hnref' : be64 (m.body.drop Off.replNewRef) = nref :=
      be64_field m (toBytes 8 oref.toNat) (by simp [hm, Message.payload]) rfl
    have hsh' : be32 (m.body.drop Off.replShares) = sh :=
      be32_field m (toBytes 8 oref.toNat ++ toBytes 8 nref.toNat)
        (by simp [hm, Message.payload]) rfl
    have hpx' : be32 (m.body.drop Off.replPrice) = px :=
      be32_field m (toBytes 8 oref.toNat ++ toBytes 8 nref.toNat ++ toBytes 4 sh.toNat)
        (by simp [hm, Message.payload]) rfl
    rw [show MsgType.ofByte m.header.1 = .orderReplace from rfl]
    simp only [decodeFields, horef', hnref', hsh', hpx']
    rfl
  | orderExecutedPrice h ref sh mn pr px =>
    set m := Message.orderExecutedPrice h ref sh mn pr px with hm
    have href' : be64 (m.body.drop Off.execpRef) = ref :=
      be64_field m [] (by simp [hm, Message.payload]) rfl
    have hsh' : be32 (m.body.drop Off.execpShares) = sh :=
      be32_field m (toBytes 8 ref.toNat) (by simp [hm, Message.payload]) rfl
    have hmn' : be64 (m.body.drop Off.execpMatch) = mn :=
      be64_field m (toBytes 8 ref.toNat ++ toBytes 4 sh.toNat) (by simp [hm, Message.payload]) rfl
    have hpr' : m.body.getD Off.execpPrintable 0 = (if pr then 'Y'.toUInt8 else 'N'.toUInt8) :=
      char_field m (toBytes 8 ref.toNat ++ toBytes 4 sh.toNat ++ toBytes 8 mn.toNat)
        (by simp [hm, Message.payload]) rfl
    have hpx' : be32 (m.body.drop Off.execpPrice) = px :=
      be32_field m (toBytes 8 ref.toNat ++ toBytes 4 sh.toNat ++ toBytes 8 mn.toNat ++
        [if pr then 'Y'.toUInt8 else 'N'.toUInt8]) (by simp [hm, Message.payload]) rfl
    rw [show MsgType.ofByte m.header.1 = .orderExecutedPrice from rfl]
    simp only [decodeFields, href', hsh', hmn', hpr', hpx']
    cases pr <;> rfl
  | addOrder h ref side sh st px =>
    set m := Message.addOrder h ref side sh st px with hm
    have href' : be64 (m.body.drop Off.addRef) = ref :=
      be64_field m [] (by simp [hm, Message.payload]) rfl
    have hside' : m.body.getD Off.addSide 0 = side.char.toUInt8 :=
      char_field m (toBytes 8 ref.toNat) (by simp [hm, Message.payload]) rfl
    have hsh' : be32 (m.body.drop Off.addShares) = sh :=
      be32_field m (toBytes 8 ref.toNat ++ [side.char.toUInt8]) (by simp [hm, Message.payload]) rfl
    have hst' : copyChars 8 (m.body.drop Off.addStock) = ⟨st.field.toArray, st.field_length⟩ :=
      text_field m (toBytes 8 ref.toNat ++ [side.char.toUInt8] ++ toBytes 4 sh.toNat)
        (by simp [hm, Message.payload]) rfl
    have hpx' : be32 (m.body.drop Off.addPrice) = px :=
      be32_field m (toBytes 8 ref.toNat ++ [side.char.toUInt8] ++ toBytes 4 sh.toNat ++ st.field)
        (by simp [hm, Message.payload]) (by simp [Off.addPrice])
    rw [show MsgType.ofByte m.header.1 = .addOrder from rfl]
    simp only [decodeFields, href', hside', hsh', hst', hpx']
    exact if_neg (by decide)
  | addOrderMpid h ref side sh st px mp =>
    set m := Message.addOrderMpid h ref side sh st px mp with hm
    have href' : be64 (m.body.drop Off.addRef) = ref :=
      be64_field m [] (by simp [hm, Message.payload]) rfl
    have hside' : m.body.getD Off.addSide 0 = side.char.toUInt8 :=
      char_field m (toBytes 8 ref.toNat) (by simp [hm, Message.payload]) rfl
    have hsh' : be32 (m.body.drop Off.addShares) = sh :=
      be32_field m (toBytes 8 ref.toNat ++ [side.char.toUInt8]) (by simp [hm, Message.payload]) rfl
    have hst' : copyChars 8 (m.body.drop Off.addStock) = ⟨st.field.toArray, st.field_length⟩ :=
      text_field m (toBytes 8 ref.toNat ++ [side.char.toUInt8] ++ toBytes 4 sh.toNat)
        (by simp [hm, Message.payload]) rfl
    have hpx' : be32 (m.body.drop Off.addPrice) = px :=
      be32_field m (toBytes 8 ref.toNat ++ [side.char.toUInt8] ++ toBytes 4 sh.toNat ++ st.field)
        (by simp [hm, Message.payload]) (by simp [Off.addPrice])
    have hmp' : copyChars 4 (m.body.drop Off.addMpid) = ⟨mp.field.toArray, mp.field_length⟩ :=
      text_field m (toBytes 8 ref.toNat ++ [side.char.toUInt8] ++ toBytes 4 sh.toNat ++ st.field ++
        toBytes 4 px.toNat) (by simp [hm, Message.payload]) (by simp [Off.addMpid])
    rw [show MsgType.ofByte m.header.1 = .addOrderMPID from rfl]
    simp only [decodeFields, href', hside', hsh', hst', hpx', hmp']
    exact if_pos trivial
  | trade h ref side sh st px mn =>
    set m := Message.trade h ref side sh st px mn with hm
    have href' : be64 (m.body.drop Off.tradeRef) = ref :=
      be64_field m [] (by simp [hm, Message.payload]) rfl
    have hside' : m.body.getD Off.tradeSide 0 = side.char.toUInt8 :=
      char_field m (toBytes 8 ref.toNat) (by simp [hm, Message.payload]) rfl
    have hsh' : be32 (m.body.drop Off.tradeShares) = sh :=
      be32_field m (toBytes 8 ref.toNat ++ [side.char.toUInt8]) (by simp [hm, Message.payload]) rfl
    have hst' : copyChars 8 (m.body.drop Off.tradeStock) = ⟨st.field.toArray, st.field_length⟩ :=
      text_field m (toBytes 8 ref.toNat ++ [side.char.toUInt8] ++ toBytes 4 sh.toNat)
        (by simp [hm, Message.payload]) rfl
    have hpx' : be32 (m.body.drop Off.tradePrice) = px :=
      be32_field m (toBytes 8 ref.toNat ++ [side.char.toUInt8] ++ toBytes 4 sh.toNat ++ st.field)
        (by simp [hm, Message.payload]) (by simp [Off.tradePrice])
    have hmn' : be64 (m.body.drop Off.tradeMatch) = mn :=
      be64_field m (toBytes 8 ref.toNat ++ [side.char.toUInt8] ++ toBytes 4 sh.toNat ++ st.field ++
        toBytes 4 px.toNat) (by simp [hm, Message.payload]) (by simp [Off.tradeMatch])
    rw [show MsgType.ofByte m.header.1 = .trade from rfl]
    simp only [decodeFields, href', hside', hsh', hst', hpx', hmn']
    rfl

/-! ## The stream -/

theorem mapM_build (ms : List Message) :
    ms.mapM Message.build = .ok (ms.map fun m => Framing.frame m.body) := by
  induction ms with
  | nil => rfl
  | cons m ms ih =>
    rw [List.mapM_cons, build_eq, ok_bind, ih, ok_bind]
    rfl

theorem body_short {ms : List Message} : ∀ b ∈ ms.map Message.body, b.length < 65536 := by
  intro b hb
  obtain ⟨m, -, rfl⟩ := List.mem_map.mp hb
  exact body_length m ▸ msgBodyLen_lt _

/-- Bodies of the writer are never empty, so the walk stops at none of them. -/
theorem takeWhile_body (ms : List Message) :
    (ms.map Message.body).takeWhile (· ≠ []) = ms.map Message.body := by
  apply List.takeWhile_eq_self_iff.mpr
  intro b hb
  obtain ⟨m, -, rfl⟩ := List.mem_map.mp hb
  exact decide_eq_true (List.cons_ne_nil _ _)

theorem map_decoded_body (ms : List Message) :
    (ms.map Message.body).map decoded = ms.map Message.toDecoded := by
  rw [List.map_map]
  exact List.map_congr_left fun m _ => decoded_body m

/-- The parser reads the messages from their frames. -/
theorem parsedMessages_flatMap (ms : List Message) :
    parsedMessages (ms.flatMap fun m => Framing.frame m.body) = ms.map Message.toDecoded := by
  have hflat : (ms.flatMap fun m => Framing.frame m.body) =
      (ms.map Message.body).flatMap Framing.frame := (List.flatMap_map _ _ ms).symm
  rw [hflat, parsedMessages_eq, streamBodies, Framing.split_flatMap body_short, takeWhile_body,
    map_decoded_body]

theorem toDecoded_type_ne (m : Message) : m.toDecoded.type ≠ .unknown := by
  cases m <;> exact MsgType.noConfusion

/-- The wire format round trip: the parser reads from the concatenated messages the list of
messages itself, with no unknown one and no byte left over, and from any truncation exactly the
`k` messages that lie completely in front of the cut. -/
theorem parse_writer_stream (ms : List Message) :
    ∃ chunks, ms.mapM Message.build = .ok chunks ∧
      parseStream (fun acc m => acc ++ [m]) chunks.flatten [] =
        ({ messages := UInt64.ofNat ms.length
           bytes := UInt64.ofNat chunks.flatten.length
           unknown := 0 }, ms.map Message.toDecoded) ∧
      ∀ n, ∃ k ≤ ms.length, (chunks.take k).flatten.length ≤ n ∧
        (k < ms.length → n < (chunks.take (k + 1)).flatten.length) ∧
        parsedMessages (chunks.flatten.take n) = (ms.take k).map Message.toDecoded := by
  refine ⟨_, mapM_build ms, ?_, fun n => ?_⟩
  all_goals
    have hflat (l : List Message) : (l.map fun m => Framing.frame m.body).flatten =
        (l.map Message.body).flatMap Framing.frame := by
      rw [← List.flatMap_def, List.flatMap_map]
  · have hbodies : streamBodies ((ms.map Message.body).flatMap Framing.frame) =
        ms.map Message.body := by
      rw [streamBodies, Framing.split_flatMap body_short, takeWhile_body]
    have hmsgs := parsedMessages_eq ((ms.map Message.body).flatMap Framing.frame)
    rw [hbodies, map_decoded_body] at hmsgs
    have hunknown : (ms.map Message.body).countP (fun b => (decoded b).type = .unknown) = 0 := by
      apply List.countP_eq_zero.mpr
      intro b hb
      obtain ⟨m, -, rfl⟩ := List.mem_map.mp hb
      rw [decoded_body, decide_eq_true_iff]
      exact toDecoded_type_ne m
    have hstats := foldl_add (ms.map Message.body) {}
    rw [hunknown, List.length_map] at hstats
    rw [hflat]
    refine Prod.ext ?_ hmsgs
    rw [parseStream_eq, hbodies, hstats]
    simp
  · obtain ⟨k, hk, hle, hlt⟩ := Framing.exists_cut (ms.map Message.body) n
    rw [List.length_map] at hk hlt
    refine ⟨k, hk, ?_, ?_, ?_⟩
    · rwa [← List.map_take, hflat, List.map_take]
    · rwa [← List.map_take, hflat, List.map_take]
    · rw [hflat, parsedMessages_eq, streamBodies,
        Framing.split_take body_short (by rwa [List.length_map]) hle (by rwa [List.length_map]),
        ← List.map_take, takeWhile_body, map_decoded_body]

end ItchOrderbook.ItchWriter
