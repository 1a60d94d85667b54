import ItchOrderbook.Gui.NasdaqItch
import ItchOrderbook.Gui.WireRoundTrip
import ItchOrderbook.Lib.Padding

/-!
# What the conversion of native messages preserves

`Native` is a native ITCH 5.0 message of one of the nine types: its `bytes` are the native layout,
its `expected` the decoded message that a conversion is to give. `_convert` reads every field from
where the layout has it and calls the builder (`convert_eq`), but it strips white space of every
kind from a stock, so the field stays the same only if its name has none at its ends
(`conversion_preserves_iff`).
-/

namespace ItchOrderbook.NasdaqItch

open BigEndian ItchWriter

/-! ## Native messages -/

/-- The common header, with its 48-bit timestamp. -/
structure NativeHeader where
  locate : UInt16
  tracking : UInt16
  ts48 : ℕ
  ts48_lt : ts48 < 2 ^ 48

/-- A stock: an ASCII name, left-justified and padded with spaces. -/
structure Stock extends AsciiStr 8 where
  left : ∀ c ∈ chars.head?, c ≠ ' '
  right : ∀ c ∈ chars.getLast?, c ≠ ' '

/-- A native message. The printable byte of a `C` message is any byte. -/
inductive Native where
  | add (h : NativeHeader) (ref : UInt64) (side : AsciiChar) (shares : UInt32) (stock : Stock)
      (price : UInt32)
  | addMpid (h : NativeHeader) (ref : UInt64) (side : AsciiChar) (shares : UInt32) (stock : Stock)
      (price : UInt32) (mpid : AsciiStr 4)
  | executed (h : NativeHeader) (ref : UInt64) (shares : UInt32) (matchNumber : UInt64)
  | executedPrice (h : NativeHeader) (ref : UInt64) (shares : UInt32) (matchNumber : UInt64)
      (printable : UInt8) (price : UInt32)
  | cancel (h : NativeHeader) (ref : UInt64) (shares : UInt32)
  | delete (h : NativeHeader) (ref : UInt64)
  | replace (h : NativeHeader) (orig new : UInt64) (shares price : UInt32)
  | trade (h : NativeHeader) (ref : UInt64) (side : AsciiChar) (shares : UInt32) (stock : Stock)
      (price : UInt32) (matchNumber : UInt64)
  | system (h : NativeHeader) (eventCode : AsciiChar)

namespace Native

/-- The type byte and the header. -/
def header : Native → UInt8 × NativeHeader
  | .add h .. => ('A'.toUInt8, h)
  | .addMpid h .. => ('F'.toUInt8, h)
  | .executed h .. => ('E'.toUInt8, h)
  | .executedPrice h .. => ('C'.toUInt8, h)
  | .cancel h .. => ('X'.toUInt8, h)
  | .delete h _ => ('D'.toUInt8, h)
  | .replace h .. => ('U'.toUInt8, h)
  | .trade h .. => ('P'.toUInt8, h)
  | .system h _ => ('S'.toUInt8, h)

/-- The bytes behind the header. -/
def payload : Native → List UInt8
  | .add _ ref side sh st px =>
    toBytes 8 ref.toNat ++ (side.char.toUInt8 :: (toBytes 4 sh.toNat ++ (st.field ++
      toBytes 4 px.toNat)))
  | .addMpid _ ref side sh st px mp =>
    toBytes 8 ref.toNat ++ (side.char.toUInt8 :: (toBytes 4 sh.toNat ++ (st.field ++
      (toBytes 4 px.toNat ++ mp.field))))
  | .executed _ ref sh mn => toBytes 8 ref.toNat ++ (toBytes 4 sh.toNat ++ toBytes 8 mn.toNat)
  | .executedPrice _ ref sh mn pr px =>
    toBytes 8 ref.toNat ++ (toBytes 4 sh.toNat ++ (toBytes 8 mn.toNat ++
      (pr :: toBytes 4 px.toNat)))
  | .cancel _ ref sh => toBytes 8 ref.toNat ++ toBytes 4 sh.toNat
  | .delete _ ref => toBytes 8 ref.toNat
  | .replace _ orig new sh px =>
    toBytes 8 orig.toNat ++ (toBytes 8 new.toNat ++ (toBytes 4 sh.toNat ++ toBytes 4 px.toNat))
  | .trade _ ref side sh st px mn =>
    toBytes 8 ref.toNat ++ (side.char.toUInt8 :: (toBytes 4 sh.toNat ++ (st.field ++
      (toBytes 4 px.toNat ++ toBytes 8 mn.toNat))))
  | .system _ ev => [ev.char.toUInt8]

/-- The native body. -/
def bytes (m : Native) : List UInt8 :=
  m.header.1 :: (toBytes 2 m.header.2.locate.toNat ++ (toBytes 2 m.header.2.tracking.toNat ++
    (toBytes 6 m.header.2.ts48 ++ m.payload)))

/-- A price on the new grid. -/
def onGrid (tickScale : ℤ) (price : UInt32) : UInt32 :=
  UInt32.ofNat (price.toNat / (max 1 tickScale).toNat)

theorem mpid_length (mp : AsciiStr 4) : mp.field.toArray.size = 4 := mp.field_length

/-- What the parser is to read from the converted message: the native fields, the prices divided. -/
def expected (tickScale : ℤ) (m : Native) : DecodedMessage :=
  let common : DecodedMessage :=
    { stockLocate := m.header.2.locate
      stockIdx := m.header.2.locate
      timestamp := UInt64.ofNat m.header.2.ts48 }
  match m with
  | .add _ ref side sh st px =>
    { common with
      type := .addOrder, orderRef := ref, side := side.char.toUInt8, shares := sh
      stock := ⟨st.field.toArray, st.field_length⟩, price := onGrid tickScale px }
  | .addMpid _ ref side sh st px mp =>
    { common with
      type := .addOrderMPID, orderRef := ref, side := side.char.toUInt8, shares := sh
      stock := ⟨st.field.toArray, st.field_length⟩, price := onGrid tickScale px
      mpid := ⟨mp.field.toArray, mpid_length mp⟩ }
  | .executed _ ref sh mn =>
    { common with type := .orderExecuted, orderRef := ref, shares := sh, matchNumber := mn }
  | .executedPrice _ ref sh mn pr px =>
    { common with
      type := .orderExecutedPrice, orderRef := ref, shares := sh, matchNumber := mn
      printable := if pr = 'Y'.toUInt8 then 1 else 0, price := onGrid tickScale px }
  | .cancel _ ref sh => { common with type := .orderCancel, orderRef := ref, shares := sh }
  | .delete _ ref => { common with type := .orderDelete, orderRef := ref }
  | .replace _ orig new sh px =>
    { common with
      type := .orderReplace, orderRef := orig, newOrderRef := new, shares := sh
      price := onGrid tickScale px }
  | .trade _ ref side sh st px mn =>
    { common with
      type := .trade, orderRef := ref, side := side.char.toUInt8, shares := sh
      stock := ⟨st.field.toArray, st.field_length⟩, price := onGrid tickScale px
      matchNumber := mn }
  | .system _ ev => { common with type := .systemEvent, eventCode := ev.char.toUInt8 }

/-- The stock of a message that carries one. -/
def stock? : Native → Option Stock
  | .add _ _ _ _ st _ | .addMpid _ _ _ _ st _ _ | .trade _ _ _ _ st _ _ => some st
  | _ => none

/-- The name of the stock neither begins nor ends with white space. -/
def StockKept (m : Native) : Prop := ∀ st ∈ m.stock?, Padding.Trimmed isSpace st.chars

end Native

/-! ## Text -/

theorem chr_toUInt8 {c : Char} (h : c.toNat < 128) : chr c.toUInt8 = c := by
  have hto : c.toUInt8.toNat = c.toNat := Nat.mod_eq_of_lt (Nat.lt_trans h (by decide))
  rw [chr, hto, Char.ofNat_toNat]

theorem decodeAscii_map {s : List Char} (h : ∀ c ∈ s, c.toNat < 128) :
    decodeAscii (s.map Char.toUInt8) = s := by
  rw [decodeAscii, List.map_map]
  refine (List.map_congr_left fun c hc => ?_).trans (List.map_id s)
  have hlt : c.toUInt8.toNat < 128 := by
    rw [show c.toUInt8.toNat = c.toNat from Nat.mod_eq_of_lt (Nat.lt_trans (h c hc) (by decide))]
    exact h c hc
  show (if c.toUInt8.toNat < 128 then chr c.toUInt8 else _) = c
  rw [if_pos hlt, chr_toUInt8 (h c hc)]

/-- A text with its pad. -/
def padded {n : ℕ} (s : AsciiStr n) : List Char :=
  s.chars ++ List.replicate (n - s.chars.length) ' '

theorem padded_ascii {n : ℕ} (s : AsciiStr n) : ∀ c ∈ padded s, c.toNat < 128 := by
  intro c hc
  rcases List.mem_append.1 hc with h | h
  · exact s.ascii c h
  · rw [List.eq_of_mem_replicate h]
    decide

theorem length_padded {n : ℕ} (s : AsciiStr n) : (padded s).length = n := by
  have := s.short
  rw [padded, List.length_append, List.length_replicate]
  omega

theorem decodeAscii_field {n : ℕ} (s : AsciiStr n) : decodeAscii s.field = padded s := by
  rw [← decodeAscii_map (padded_ascii s), AsciiStr.field, padded, List.map_append,
    List.map_replicate]

theorem strip_sublist (s : List Char) : (strip s).Sublist s :=
  (List.rdropWhile_prefix isSpace _).sublist.trans (List.dropWhile_suffix isSpace).sublist

/-! ## The call that is made -/

/-- What the reader leaves of a stock. -/
def stripped (st : Stock) : AsciiStr 8 where
  chars := strip (padded st.toAsciiStr)
  ascii := fun c hc => padded_ascii _ c ((strip_sublist _).subset hc)
  short := by
    have hle := (strip_sublist (padded st.toAsciiStr)).length_le
    rwa [length_padded] at hle

/-- A text field read with its pad. -/
def full (s : AsciiStr 4) : AsciiStr 4 where
  chars := padded s
  ascii := padded_ascii s
  short := (length_padded s).le

/-- The arguments of the project's header. -/
def NativeHeader.args (h : NativeHeader) : HeaderArgs where
  locate := h.locate
  tracking := h.tracking
  timestampNs := UInt64.ofNat h.ts48

/-- The call of a builder that a native message becomes. -/
def Native.toMessage (tickScale : ℤ) : Native → Message
  | .add h ref side sh st px =>
    .addOrder h.args ref side sh (stripped st) (onGrid tickScale px)
  | .addMpid h ref side sh st px mp =>
    .addOrderMpid h.args ref side sh (stripped st) (onGrid tickScale px) (full mp)
  | .executed h ref sh mn => .orderExecuted h.args ref sh mn
  | .executedPrice h ref sh mn pr px =>
    .orderExecutedPrice h.args ref sh mn (decide (chr pr = 'Y')) (onGrid tickScale px)
  | .cancel h ref sh => .orderCancel h.args ref sh
  | .delete h ref => .orderDelete h.args ref
  | .replace h orig new sh px => .orderReplace h.args orig new sh (onGrid tickScale px)
  | .trade h ref side sh st px mn =>
    .trade h.args ref side sh (stripped st) (onGrid tickScale px) mn
  | .system h ev => .systemEvent h.args ev

/-! ## The readers find the fields -/

section

variable (m : Native) (pre : List UInt8) {k : ℕ}

theorem drop_bytes {field : List UInt8} (hp : pre ++ field <+: m.payload)
    (hk : 11 + pre.length = k) : ∃ tail, m.bytes.drop k = field ++ tail := by
  obtain ⟨tail, htail⟩ := hp
  refine ⟨tail, ?_⟩
  have hbytes : m.bytes = (m.header.1 :: (toBytes 2 m.header.2.locate.toNat ++
      (toBytes 2 m.header.2.tracking.toNat ++ toBytes 6 m.header.2.ts48))) ++ pre ++
      (field ++ tail) := by
    rw [Native.bytes, ← htail]
    simp only [List.cons_append, List.append_assoc]
  rw [hbytes, ← hk]
  exact List.drop_left' (by simp; omega)

theorem unpack_field {w v : ℕ} (hp : pre ++ toBytes w v <+: m.payload) (hv : v < 256 ^ w)
    (hk : 11 + pre.length = k) : unpackFrom w m.bytes k = some v := by
  obtain ⟨tail, htail⟩ := drop_bytes m pre hp hk
  have hlen : k + w ≤ m.bytes.length := by
    have hdrop := congrArg List.length htail
    have hpos := hp.length_le
    rw [List.length_append, toBytes_length] at hpos
    rw [List.length_drop, List.length_append, toBytes_length] at hdrop
    have hbody : m.bytes.length = 11 + m.payload.length := by
      simp [Native.bytes]
      omega
    omega
  rw [unpackFrom, if_pos hlen, htail, List.take_left' (toBytes_length w v),
    ofBytes_toBytes_of_lt hv]

theorem char_field {c : UInt8} (hp : pre ++ [c] <+: m.payload) (hk : 11 + pre.length = k) :
    readChar m.bytes k = some (chr c) := by
  obtain ⟨tail, htail⟩ := drop_bytes m pre hp hk
  have hget : m.bytes[k]? = some c := by
    rw [← Nat.add_zero k, ← List.getElem?_drop, htail]
    rfl
  rw [readChar, hget]
  rfl

theorem text_field {n : ℕ} {s : AsciiStr n} (hp : pre ++ s.field <+: m.payload)
    (hk : 11 + pre.length = k) : decodeAscii ((m.bytes.drop k).take n) = padded s := by
  obtain ⟨tail, htail⟩ := drop_bytes m pre hp hk
  rw [htail, List.take_left' s.field_length, decodeAscii_field]

theorem stock_field {st : Stock} (hp : pre ++ st.field <+: m.payload) (hk : 11 + pre.length = k) :
    readStock m.bytes k = (stripped st).chars :=
  congrArg strip (text_field m pre hp hk)

end

/-- The quotient that is read is a price. -/
theorem onGrid_toNat (tickScale : ℤ) (price : UInt32) :
    ((Native.onGrid tickScale price).toNat : ℤ) = (price.toNat : ℤ) / max 1 tickScale := by
  have hlt : price.toNat / (max 1 tickScale).toNat < 2 ^ 32 :=
    (Nat.div_le_self _ _).trans_lt price.toNat_lt
  have hscale : ((max 1 tickScale).toNat : ℤ) = max 1 tickScale :=
    Int.toNat_of_nonneg (le_trans (by decide) (le_max_left 1 tickScale))
  rw [Native.onGrid, UInt32.toNat_ofNat_of_lt' hlt, Int.natCast_ediv, hscale]

theorem args_timestamp (h : NativeHeader) : (h.args.timestampNs.toNat : ℤ) = h.ts48 := by
  have hlt : h.ts48 < 2 ^ 64 := h.ts48_lt.trans (by decide)
  rw [NativeHeader.args, UInt64.toNat_ofNat_of_lt' hlt]

/-- The conversion makes the call: each reader finds its field behind the fields in front of it. -/
theorem convert_eq (tickScale : ℤ) (m : Native) :
    convert m.bytes m.header.2.ts48 m.header.2.locate.toNat m.header.2.tracking.toNat tickScale =
      attempt (some (m.toMessage tickScale).build) := by
  have hhead : m.bytes.head? = some m.header.1 := rfl
  rw [convert, hhead]
  dsimp only
  cases m with
  | add h ref side sh st px =>
    set m := Native.add h ref side sh st px with hm
    have htype : chr m.header.1 = 'A' := @chr_toUInt8 'A' (by decide)
    have href : readU64 m.bytes 11 = some ref.toNat :=
      unpack_field m []
        (by simp [hm, Native.payload]) ref.toNat_lt rfl
    have hside : readChar m.bytes 19 = some (chr side.char.toUInt8) :=
      char_field m (toBytes 8 ref.toNat)
        (by simp [hm, Native.payload]) rfl
    have hsh : readU32 m.bytes 20 = some sh.toNat :=
      unpack_field m (toBytes 8 ref.toNat ++ [side.char.toUInt8])
        (by simp [hm, Native.payload]) sh.toNat_lt rfl
    have hst : readStock m.bytes 24 = (stripped st).chars :=
      stock_field m (toBytes 8 ref.toNat ++ [side.char.toUInt8] ++ toBytes 4 sh.toNat)
        (by simp [hm, Native.payload]) rfl
    have hpx : readU32 m.bytes 32 = some px.toNat :=
      unpack_field m (toBytes 8 ref.toNat ++ [side.char.toUInt8] ++ toBytes 4 sh.toNat ++ st.field)
        (by simp [hm, Native.payload]) px.toNat_lt (by simp)
    rw [htype, if_pos rfl]
    simp only [href, hside, hsh, hst, hpx, Option.bind_eq_bind, Option.bind_some,
      Option.pure_def, chr_toUInt8 side.ascii, ← onGrid_toNat]
    rw [hm, Native.toMessage, Message.build, args_timestamp]
    rfl
  | addMpid h ref side sh st px mp =>
    set m := Native.addMpid h ref side sh st px mp with hm
    have htype : chr m.header.1 = 'F' := @chr_toUInt8 'F' (by decide)
    have href : readU64 m.bytes 11 = some ref.toNat :=
      unpack_field m []
        (by simp [hm, Native.payload]) ref.toNat_lt rfl
    have hside : readChar m.bytes 19 = some (chr side.char.toUInt8) :=
      char_field m (toBytes 8 ref.toNat)
        (by simp [hm, Native.payload]) rfl
    have hsh : readU32 m.bytes 20 = some sh.toNat :=
      unpack_field m (toBytes 8 ref.toNat ++ [side.char.toUInt8])
        (by simp [hm, Native.payload]) sh.toNat_lt rfl
    have hst : readStock m.bytes 24 = (stripped st).chars :=
      stock_field m (toBytes 8 ref.toNat ++ [side.char.toUInt8] ++ toBytes 4 sh.toNat)
        (by simp [hm, Native.payload]) rfl
    have hpx : readU32 m.bytes 32 = some px.toNat :=
      unpack_field m (toBytes 8 ref.toNat ++ [side.char.toUInt8] ++ toBytes 4 sh.toNat ++ st.field)
        (by simp [hm, Native.payload]) px.toNat_lt (by simp)
    have hmp : decodeAscii ((m.bytes.drop 36).take 4) = (full mp).chars :=
      text_field m (toBytes 8 ref.toNat ++ [side.char.toUInt8] ++ toBytes 4 sh.toNat ++ st.field ++
        toBytes 4 px.toNat)
        (by simp [hm, Native.payload]) (by simp)
    rw [htype, if_neg (by decide), if_pos rfl]
    simp only [href, hside, hsh, hst, hpx, hmp, Option.bind_eq_bind, Option.bind_some,
      Option.pure_def, chr_toUInt8 side.ascii, ← onGrid_toNat]
    rw [hm, Native.toMessage, Message.build, args_timestamp]
    rfl
  | executed h ref sh mn =>
    set m := Native.executed h ref sh mn with hm
    have htype : chr m.header.1 = 'E' := @chr_toUInt8 'E' (by decide)
    have href : readU64 m.bytes 11 = some ref.toNat :=
      unpack_field m []
        (by simp [hm, Native.payload]) ref.toNat_lt rfl
    have hsh : readU32 m.bytes 19 = some sh.toNat :=
      unpack_field m (toBytes 8 ref.toNat)
        (by simp [hm, Native.payload]) sh.toNat_lt rfl
    have hmn : readU64 m.bytes 23 = some mn.toNat :=
      unpack_field m (toBytes 8 ref.toNat ++ toBytes 4 sh.toNat)
        (by simp [hm, Native.payload]) mn.toNat_lt rfl
    rw [htype, if_neg (by decide), if_neg (by decide), if_pos rfl]
    simp only [href, hsh, hmn, Option.bind_eq_bind, Option.bind_some, Option.pure_def]
    rw [hm, Native.toMessage, Message.build, args_timestamp]
    rfl
  | executedPrice h ref sh mn pr px =>
    set m := Native.executedPrice h ref sh mn pr px with hm
    have htype : chr m.header.1 = 'C' := @chr_toUInt8 'C' (by decide)
    have href : readU64 m.bytes 11 = some ref.toNat :=
      unpack_field m []
        (by simp [hm, Native.payload]) ref.toNat_lt rfl
    have hsh : readU32 m.bytes 19 = some sh.toNat :=
      unpack_field m (toBytes 8 ref.toNat)
        (by simp [hm, Native.payload]) sh.toNat_lt rfl
    have hmn : readU64 m.bytes 23 = some mn.toNat :=
      unpack_field m (toBytes 8 ref.toNat ++ toBytes 4 sh.toNat)
        (by simp [hm, Native.payload]) mn.toNat_lt rfl
    have hpr : readChar m.bytes 31 = some (chr pr) :=
      char_field m (toBytes 8 ref.toNat ++ toBytes 4 sh.toNat ++ toBytes 8 mn.toNat)
        (by simp [hm, Native.payload]) rfl
    have hpx : readU32 m.bytes 32 = some px.toNat :=
      unpack_field m (toBytes 8 ref.toNat ++ toBytes 4 sh.toNat ++ toBytes 8 mn.toNat ++ [pr])
        (by simp [hm, Native.payload]) px.toNat_lt rfl
    rw [htype, if_neg (by decide), if_neg (by decide), if_neg (by decide), if_pos rfl]
    simp only [href, hsh, hmn, hpr, hpx, Option.bind_eq_bind, Option.bind_some, Option.pure_def,
      ← onGrid_toNat]
    rw [hm, Native.toMessage, Message.build, args_timestamp]
    rfl
  | cancel h ref sh =>
    set m := Native.cancel h ref sh with hm
    have htype : chr m.header.1 = 'X' := @chr_toUInt8 'X' (by decide)
    have href : readU64 m.bytes 11 = some ref.toNat :=
      unpack_field m []
        (by simp [hm, Native.payload]) ref.toNat_lt rfl
    have hsh : readU32 m.bytes 19 = some sh.toNat :=
      unpack_field m (toBytes 8 ref.toNat)
        (by simp [hm, Native.payload]) sh.toNat_lt rfl
    rw [htype, if_neg (by decide), if_neg (by decide), if_neg (by decide), if_neg (by decide),
      if_pos rfl]
    simp only [href, hsh, Option.bind_eq_bind, Option.bind_some, Option.pure_def]
    rw [hm, Native.toMessage, Message.build, args_timestamp]
    rfl
  | delete h ref =>
    set m := Native.delete h ref with hm
    have htype : chr m.header.1 = 'D' := @chr_toUInt8 'D' (by decide)
    have href : readU64 m.bytes 11 = some ref.toNat :=
      unpack_field m []
        (by simp [hm, Native.payload]) ref.toNat_lt rfl
    rw [htype, if_neg (by decide), if_neg (by decide), if_neg (by decide), if_neg (by decide),
      if_neg (by decide), if_pos rfl]
    simp only [href, Option.bind_eq_bind, Option.bind_some, Option.pure_def]
    rw [hm, Native.toMessage, Message.build, args_timestamp]
    rfl
  | replace h orig new sh px =>
    set m := Native.replace h orig new sh px with hm
    have htype : chr m.header.1 = 'U' := @chr_toUInt8 'U' (by decide)
    have horig : readU64 m.bytes 11 = some orig.toNat :=
      unpack_field m []
        (by simp [hm, Native.payload]) orig.toNat_lt rfl
    have hnew : readU64 m.bytes 19 = some new.toNat :=
      unpack_field m (toBytes 8 orig.toNat)
        (by simp [hm, Native.payload]) new.toNat_lt rfl
    have hsh : readU32 m.bytes 27 = some sh.toNat :=
      unpack_field m (toBytes 8 orig.toNat ++ toBytes 8 new.toNat)
        (by simp [hm, Native.payload]) sh.toNat_lt rfl
    have hpx : readU32 m.bytes 31 = some px.toNat :=
      unpack_field m (toBytes 8 orig.toNat ++ toBytes 8 new.toNat ++ toBytes 4 sh.toNat)
        (by simp [hm, Native.payload]) px.toNat_lt rfl
    rw [htype, if_neg (by decide), if_neg (by decide), if_neg (by decide), if_neg (by decide),
      if_neg (by decide), if_neg (by decide), if_pos rfl]
    simp only [horig, hnew, hsh, hpx, Option.bind_eq_bind, Option.bind_some, Option.pure_def,
      ← onGrid_toNat]
    rw [hm, Native.toMessage, Message.build, args_timestamp]
    rfl
  | trade h ref side sh st px mn =>
    set m := Native.trade h ref side sh st px mn with hm
    have htype : chr m.header.1 = 'P' := @chr_toUInt8 'P' (by decide)
    have href : readU64 m.bytes 11 = some ref.toNat :=
      unpack_field m []
        (by simp [hm, Native.payload]) ref.toNat_lt rfl
    have hside : readChar m.bytes 19 = some (chr side.char.toUInt8) :=
      char_field m (toBytes 8 ref.toNat)
        (by simp [hm, Native.payload]) rfl
    have hsh : readU32 m.bytes 20 = some sh.toNat :=
      unpack_field m (toBytes 8 ref.toNat ++ [side.char.toUInt8])
        (by simp [hm, Native.payload]) sh.toNat_lt rfl
    have hst : readStock m.bytes 24 = (stripped st).chars :=
      stock_field m (toBytes 8 ref.toNat ++ [side.char.toUInt8] ++ toBytes 4 sh.toNat)
        (by simp [hm, Native.payload]) rfl
    have hpx : readU32 m.bytes 32 = some px.toNat :=
      unpack_field m (toBytes 8 ref.toNat ++ [side.char.toUInt8] ++ toBytes 4 sh.toNat ++ st.field)
        (by simp [hm, Native.payload]) px.toNat_lt (by simp)
    have hmn : readU64 m.bytes 36 = some mn.toNat :=
      unpack_field m (toBytes 8 ref.toNat ++ [side.char.toUInt8] ++ toBytes 4 sh.toNat ++ st.field ++
        toBytes 4 px.toNat)
        (by simp [hm, Native.payload]) mn.toNat_lt (by simp)
    rw [htype, if_neg (by decide), if_neg (by decide), if_neg (by decide), if_neg (by decide),
      if_neg (by decide), if_neg (by decide), if_neg (by decide), if_pos rfl]
    simp only [href, hside, hsh, hst, hpx, hmn, Option.bind_eq_bind, Option.bind_some,
      Option.pure_def, chr_toUInt8 side.ascii, ← onGrid_toNat]
    rw [hm, Native.toMessage, Message.build, args_timestamp]
    rfl
  | system h ev =>
    set m := Native.system h ev with hm
    have htype : chr m.header.1 = 'S' := @chr_toUInt8 'S' (by decide)
    have hev : readChar m.bytes 11 = some (chr ev.char.toUInt8) :=
      char_field m []
        (by simp [hm, Native.payload]) rfl
    rw [htype, if_neg (by decide), if_neg (by decide), if_neg (by decide), if_neg (by decide),
      if_neg (by decide), if_neg (by decide), if_neg (by decide), if_neg (by decide), if_pos rfl]
    simp only [hev, Option.bind_eq_bind, Option.bind_some, Option.pure_def, chr_toUInt8 ev.ascii]
    rw [hm, Native.toMessage, Message.build, args_timestamp]
    rfl

/-! ## What the parser reads -/

theorem chr_eq_Y_iff {b : UInt8} : chr b = 'Y' ↔ b = 'Y'.toUInt8 := by
  constructor
  · intro h
    have hvalid : b.toNat.isValidChar := .inl (b.toNat_lt.trans (by decide))
    have hto : (chr b).toNat = b.toNat := by
      rw [chr, Char.ofNat, dif_pos hvalid]
      rfl
    rw [h] at hto
    exact UInt8.toNat_inj.1 hto.symm
  · rintro rfl
    decide

theorem full_field (s : AsciiStr 4) : (full s).field = s.field := by
  have hlen : (full s).chars.length = 4 := length_padded s
  rw [AsciiStr.field, hlen, Nat.sub_self, List.replicate_zero, List.append_nil]
  show (padded s).map Char.toUInt8 = _
  rw [padded, List.map_append, List.map_replicate, AsciiStr.field]

/-- A stock keeps its field exactly if its name is trimmed. -/
theorem stripped_field_iff (st : Stock) :
    (stripped st).field = st.field ↔ Padding.Trimmed isSpace st.chars := by
  have hspace : isSpace ' ' = true := by decide
  have htrim : Padding.Trimmed isSpace (stripped st).chars := Padding.trimmed_strip _
  constructor
  · intro h
    have hpad : padded (stripped st) = padded st.toAsciiStr := by
      rw [← decodeAscii_field, ← decodeAscii_field, h]
    have hchars : (stripped st).chars = st.chars :=
      Padding.pad_inj hpad (fun c hc heq => by
        have hlast := htrim.last c hc
        rw [heq, hspace] at hlast
        cases hlast) st.right
    exact hchars ▸ htrim
  · intro h
    have hchars : (stripped st).chars = st.chars := Padding.strip_pad h hspace _
    rw [AsciiStr.field, AsciiStr.field, hchars]

/-- Two messages that differ in the stock alone. -/
theorem stock_eq_iff (st : Stock) {d : Vector UInt8 8 → DecodedMessage}
    (hd : Function.Injective d) :
    d ⟨(stripped st).field.toArray, (stripped st).field_length⟩ =
        d ⟨st.field.toArray, st.field_length⟩ ↔
      ∀ s ∈ some st, Padding.Trimmed isSpace s.chars := by
  have hvector : (⟨(stripped st).field.toArray, (stripped st).field_length⟩ : Vector UInt8 8) =
      ⟨st.field.toArray, st.field_length⟩ ↔ (stripped st).field = st.field :=
    ⟨fun h => congrArg Vector.toList h, fun h => Vector.toArray_inj.1 (congrArg List.toArray h)⟩
  rw [hd.eq_iff, hvector, stripped_field_iff]
  exact ⟨fun h s hs => Option.some.inj hs ▸ h, fun h => h st rfl⟩

/-- The message that is written decodes to the one expected, but for the stock. -/
theorem toDecoded_iff (tickScale : ℤ) (m : Native) :
    (m.toMessage tickScale).toDecoded = m.expected tickScale ↔ m.StockKept := by
  have hnone {d : DecodedMessage} {st : Option Stock} (hst : st = none) :
      d = d ↔ ∀ s ∈ st, Padding.Trimmed isSpace s.chars :=
    iff_of_true rfl fun s hs => by rw [hst] at hs; cases hs
  cases m with
  | add h ref side sh st px =>
    exact @stock_eq_iff st (fun v =>
      { type := .addOrder, stockLocate := h.locate, stockIdx := h.locate
        timestamp := UInt64.ofNat h.ts48, orderRef := ref, side := side.char.toUInt8, shares := sh
        stock := v, price := Native.onGrid tickScale px })
      fun v w hvw => congrArg DecodedMessage.stock hvw
  | addMpid h ref side sh st px mp =>
    have hmpid : (⟨(full mp).field.toArray, (full mp).field_length⟩ : Vector UInt8 4) =
        ⟨mp.field.toArray, mp.field_length⟩ :=
      Vector.toArray_inj.1 (congrArg List.toArray (full_field mp))
    rw [Native.toMessage, Message.toDecoded, hmpid]
    exact @stock_eq_iff st (fun v =>
      { type := .addOrderMPID, stockLocate := h.locate, stockIdx := h.locate
        timestamp := UInt64.ofNat h.ts48, orderRef := ref, side := side.char.toUInt8, shares := sh
        stock := v, price := Native.onGrid tickScale px
        mpid := ⟨mp.field.toArray, mp.field_length⟩ })
      fun v w hvw => congrArg DecodedMessage.stock hvw
  | trade h ref side sh st px mn =>
    exact @stock_eq_iff st (fun v =>
      { type := .trade, stockLocate := h.locate, stockIdx := h.locate
        timestamp := UInt64.ofNat h.ts48, orderRef := ref, side := side.char.toUInt8, shares := sh
        stock := v, price := Native.onGrid tickScale px, matchNumber := mn })
      fun v w hvw => congrArg DecodedMessage.stock hvw
  | executedPrice h ref sh mn pr px =>
    have hprintable : (if decide (chr pr = 'Y') then 1 else 0 : UInt8) =
        if pr = 'Y'.toUInt8 then 1 else 0 :=
      if_congr (decide_eq_true_iff.trans chr_eq_Y_iff) rfl rfl
    rw [Native.toMessage, Message.toDecoded, hprintable]
    exact hnone rfl
  | executed | cancel | delete | replace | system => exact hnone rfl

/-! ## One message -/

/-- The conversion returns a frame that the parser reads as the native message. -/
def Native.Preserved (tickScale : ℤ) (m : Native) : Prop :=
  ∃ body, convert m.bytes m.header.2.ts48 m.header.2.locate.toNat m.header.2.tracking.toNat
      tickScale = .ok (some (Framing.frame body)) ∧ decoded body = m.expected tickScale

/-- A native message is converted to the frame of its call. -/
theorem convert_frame (tickScale : ℤ) (m : Native) :
    convert m.bytes m.header.2.ts48 m.header.2.locate.toNat m.header.2.tracking.toNat tickScale =
      .ok (some (Framing.frame (m.toMessage tickScale).body)) := by
  rw [convert_eq, build_eq]
  rfl

theorem preserved_iff (tickScale : ℤ) (m : Native) : m.Preserved tickScale ↔ m.StockKept := by
  rw [← toDecoded_iff tickScale, ← decoded_body]
  constructor
  · rintro ⟨body, hconvert, hdecoded⟩
    rw [convert_frame] at hconvert
    have hframe := Option.some.inj (Except.ok.inj hconvert)
    have hbody : (m.toMessage tickScale).body = body := by
      have hdrop := congrArg (List.drop 2) hframe
      rwa [Framing.frame, Framing.frame, List.drop_left' (toBytes_length _ _),
        List.drop_left' (toBytes_length _ _)] at hdrop
    rw [hbody]
    exact hdecoded
  · exact fun h => ⟨_, convert_frame tickScale m, h⟩

/-! ## A file -/

theorem unpackFrom_append {pre bs tail : List UInt8} {off w : ℕ} (hpre : pre.length = off)
    (hbs : bs.length = w) : unpackFrom w (pre ++ (bs ++ tail)) off = some (ofBytes bs) := by
  have hle : off + w ≤ (pre ++ (bs ++ tail)).length := by
    rw [List.length_append, List.length_append]
    omega
  rw [unpackFrom, if_pos hle, List.drop_left' hpre, List.take_left' hbs]

/-- The reader puts the timestamp together again. -/
theorem readTs48_append {pre tail : List UInt8} {off ts : ℕ} (hpre : pre.length = off)
    (hts : ts < 2 ^ 48) : readTs48 (pre ++ (toBytes 6 ts ++ tail)) off = some ts := by
  set hi := (toBytes 6 ts).take 2 with hhi
  set lo := (toBytes 6 ts).drop 2 with hlo
  have hsplit : toBytes 6 ts = hi ++ lo := (List.take_append_drop 2 _).symm
  have hhilen : hi.length = 2 := by rw [hhi, List.length_take, toBytes_length]; rfl
  have hlolen : lo.length = 4 := by rw [hlo, List.length_drop, toBytes_length]
  have hlolt : ofBytes lo < 2 ^ 32 := by
    have hlt := ofBytes_lt lo
    rw [hlolen] at hlt
    exact hlt
  have hfirst : unpackFrom 2 (pre ++ (toBytes 6 ts ++ tail)) off = some (ofBytes hi) := by
    rw [hsplit, List.append_assoc]
    exact unpackFrom_append hpre hhilen
  have hsecond : unpackFrom 4 (pre ++ (toBytes 6 ts ++ tail)) (off + 2) = some (ofBytes lo) := by
    rw [hsplit, List.append_assoc, ← List.append_assoc]
    exact unpackFrom_append (by rw [List.length_append, hpre, hhilen]) hlolen
  have hvalue : ofBytes hi <<< 32 ||| ofBytes lo = ts := by
    rw [← Nat.shiftLeft_add_eq_or_of_lt hlolt, Nat.shiftLeft_eq]
    calc ofBytes hi * 2 ^ 32 + ofBytes lo = ofBytes (hi ++ lo) := by
          rw [ofBytes_append, hlolen]
          rfl
      _ = ts := by rw [← hsplit, ofBytes_toBytes_of_lt hts]
  rw [readTs48, hfirst, hsecond]
  exact congrArg some hvalue

/-- A native message of a file is converted, as no filter is set. -/
theorem convertBody_native (tickScale : ℤ) (m : Native) :
    convertBody { tickScale } m.bytes =
      .ok (some (Framing.frame (m.toMessage tickScale).body)) := by
  have hlen : ¬ m.bytes.length < hdrLen := by
    simp [Native.bytes, hdrLen]
    omega
  have hlocate : readU16 m.bytes 1 = some m.header.2.locate.toNat := by
    have hread := @unpackFrom_append [m.header.1] (toBytes 2 m.header.2.locate.toNat)
      (toBytes 2 m.header.2.tracking.toNat ++ (toBytes 6 m.header.2.ts48 ++ m.payload)) 1 2 rfl rfl
    rwa [ofBytes_toBytes_of_lt m.header.2.locate.toNat_lt] at hread
  have htracking : readU16 m.bytes 3 = some m.header.2.tracking.toNat := by
    have hread := @unpackFrom_append (m.header.1 :: toBytes 2 m.header.2.locate.toNat)
      (toBytes 2 m.header.2.tracking.toNat) (toBytes 6 m.header.2.ts48 ++ m.payload) 3 2 rfl rfl
    rwa [ofBytes_toBytes_of_lt m.header.2.tracking.toNat_lt] at hread
  have hts : readTs48 m.bytes 5 = some m.header.2.ts48 :=
    @readTs48_append (m.header.1 :: (toBytes 2 m.header.2.locate.toNat ++
      toBytes 2 m.header.2.tracking.toNat)) m.payload 5 m.header.2.ts48 rfl m.header.2.ts48_lt
  rw [convertBody, if_neg hlen, hlocate, htracking, hts]
  exact convert_frame tickScale m

/-- The loop converts the native messages in front one by one. Induction on the messages. -/
theorem convertFrom_native (tickScale : ℤ) (ms : List Native) (st : ConvertStats)
    (out : List UInt8) :
    convertFrom { tickScale } (ms.flatMap fun m => Framing.frame m.bytes) st out =
      .ok ({ st with inputMsgs := st.inputMsgs + ms.length
                     outputMsgs := st.outputMsgs + ms.length },
        out ++ ms.flatMap fun m => Framing.frame (m.toMessage tickScale).body) := by
  induction ms generalizing st out with
  | nil =>
    rw [List.flatMap_nil, convertFrom, if_pos (by decide), List.flatMap_nil, List.append_nil]
    rfl
  | cons m ms ih =>
    have hshort : m.bytes.length < 65536 := by
      cases m <;> simp [Native.bytes, Native.payload]
    have hpos : m.bytes.length ≠ 0 := by
      rw [Native.bytes, List.length_cons]
      exact Nat.succ_ne_zero _
    have hlen : (Framing.frame m.bytes ++ ms.flatMap fun m => Framing.frame m.bytes).length =
        m.bytes.length + 2 + (ms.flatMap fun m => Framing.frame m.bytes).length := by
      rw [List.length_append, Framing.frame_length]
    have hannounced := Framing.announced_frame hshort (ms.flatMap fun m => Framing.frame m.bytes)
    have hbody : ((Framing.frame m.bytes ++ ms.flatMap fun m => Framing.frame m.bytes).drop 2).take
        m.bytes.length = m.bytes := by
      rw [Framing.frame, List.append_assoc, List.drop_left' (toBytes_length _ _),
        List.take_left' rfl]
    have hrest : (Framing.frame m.bytes ++ ms.flatMap fun m => Framing.frame m.bytes).drop
        (2 + m.bytes.length) = ms.flatMap fun m => Framing.frame m.bytes :=
      List.drop_left' (by rw [Framing.frame_length, Nat.add_comm])
    rw [Framing.announced] at hannounced
    rw [List.flatMap_cons, convertFrom, if_neg (by omega)]
    dsimp only
    rw [hannounced, if_neg (by omega), hbody, convertBody_native, hrest]
    dsimp only
    rw [if_neg (fun h => h.1 rfl), ih, List.flatMap_cons, List.append_assoc, List.length_cons]
    simp only [Except.ok.injEq, Prod.mk.injEq, ConvertStats.mk.injEq, and_true]
    omega

/-- A conversion keeps a native message exactly if its stock has no white space at the ends of its
name, and of a file it keeps the messages, in order and without loss, exactly if it keeps each. -/
theorem conversion_preserves_iff (tickScale : ℤ) :
    (∀ m : Native, m.Preserved tickScale ↔ m.StockKept) ∧
    ∀ ms : List Native, ∃ out,
      convertFile { tickScale } (ms.flatMap fun m => Framing.frame m.bytes) =
        .ok ({ inputMsgs := ms.length, outputMsgs := ms.length, skipped := 0
               bytesOut := out.length }, out) ∧
      (parsedMessages out).length = ms.length ∧
      (parsedMessages out = ms.map (Native.expected tickScale) ↔ ∀ m ∈ ms, m.StockKept) := by
  refine ⟨preserved_iff tickScale, fun ms => ?_⟩
  have hparsed : parsedMessages (ms.flatMap fun m => Framing.frame (m.toMessage tickScale).body) =
      ms.map fun m => (m.toMessage tickScale).toDecoded := by
    have hstream := parsedMessages_flatMap (ms.map (Native.toMessage tickScale))
    rwa [List.map_map, List.flatMap_map] at hstream
  refine ⟨ms.flatMap fun m => Framing.frame (m.toMessage tickScale).body, ?_, ?_, ?_⟩
  · rw [convertFile, convertFrom_native, List.nil_append]
    simp only [Nat.zero_add]
    rfl
  · rw [hparsed, List.length_map]
  · rw [hparsed, List.map_inj_left]
    exact forall₂_congr fun m _ => toDecoded_iff tickScale m

/-- An order for a stock whose name ends with a tab. -/
def tabbed : Native :=
  .add ⟨1, 0, 0, by decide⟩ 7 ⟨'B', by decide⟩ 100
    ⟨⟨['A', 'B', '\t'], by simp, by simp⟩, by simp, by simp⟩ 5000

/-- The tab is stripped with the pad. -/
theorem tab_not_preserved :
    ¬ tabbed.Preserved 1 ∧
      (convert tabbed.bytes 0 1 0 1).map (Option.map fun out => (out.drop 28).take 8) =
        .ok (some [0x41, 0x42, 0x20, 0x20, 0x20, 0x20, 0x20, 0x20]) ∧
      (tabbed.bytes.drop 24).take 8 = [0x41, 0x42, 0x09, 0x20, 0x20, 0x20, 0x20, 0x20] := by
  refine ⟨fun h => ?_, by decide +kernel, by decide +kernel⟩
  have hlast := ((preserved_iff 1 tabbed).1 h _ rfl).last '\t' rfl
  exact absurd hlast (by decide)

end ItchOrderbook.NasdaqItch
