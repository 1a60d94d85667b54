import ItchOrderbook.Gui.NasdaqItch
import ItchOrderbook.Gui.WireRoundTrip
import ItchOrderbook.Lib.Padding
import ItchOrderbook.Parser.ItchParserSpec

/-!
# Damaged native records

`_convert` reads a record field by field and gives up where a read goes behind the end. Two things
get through: text that is not ASCII, which the builders refuse with an exception that is not caught,
and a cut in the last field of an `F` record, which is a slice and not a read
(`convert_handles_iff`).
-/

namespace ItchOrderbook.NasdaqItch

open BigEndian ItchWriter

/-! ## What is expected -/

/-- The native and the project length of a supported type. -/
def bodyLengths : Char → Option (ℕ × ℕ)
  | 'A' => some (36, 38)
  | 'F' => some (40, 42)
  | 'E' => some (31, 33)
  | 'C' => some (36, 38)
  | 'X' => some (23, 25)
  | 'D' => some (19, 21)
  | 'U' => some (35, 37)
  | 'P' => some (44, 46)
  | 'S' => some (12, 14)
  | _ => none

/-- The offsets of the text that a record of the type passes on. -/
def textOffsets : Char → List ℕ
  | 'A' | 'P' => 19 :: List.range' 24 8
  | 'F' => 19 :: (List.range' 24 8 ++ List.range' 36 4)
  | 'S' => [11]
  | _ => []

/-- The type of a body. -/
def bodyType (body : List UInt8) : Char := chr (body.getD 0 0)

/-- A record is converted to a frame of its type's length, or skipped when it is not supported or
too short. -/
def Handles (body : List UInt8) (result : Except PyError (Option (List UInt8))) : Prop :=
  match bodyLengths (bodyType body) with
  | none => result = .ok none
  | some (native, project) =>
    if body.length < native then result = .ok none
    else ∃ out : List UInt8, out.length = project ∧ result = .ok (some (Framing.frame out))

/-- The text of a record that is long enough is ASCII, and an `F` record is not cut inside its
market participant. -/
def Convertible (body : List UInt8) : Prop :=
  (∀ lengths ∈ bodyLengths (bodyType body), lengths.1 ≤ body.length →
    ∀ off ∈ textOffsets (bodyType body), (body.getD off 0).toNat < 128)
  ∧ (bodyType body = 'F' → ¬(36 ≤ body.length ∧ body.length < 40))

/-! ## Text -/

/-- Text that can be encoded. -/
def Ascii (s : List Char) : Prop := ∀ c ∈ s, c.toNat < 128

theorem encodeAscii_ok {s : List Char} (h : Ascii s) :
    encodeAscii s = .ok (s.map Char.toUInt8) := by
  have hall : (s.all fun c => c.toNat < 128) = true := by simpa [Ascii] using h
  rw [encodeAscii, if_pos hall]

theorem encodeAscii_error {s : List Char} (h : ¬Ascii s) :
    encodeAscii s = .error .unicodeEncodeError := by
  have hall : ¬(s.all fun c => c.toNat < 128) = true := by simpa [Ascii] using h
  rw [encodeAscii, if_neg hall]

theorem padded_ok {s : List Char} (n : ℕ) (h : Ascii s) :
    ∃ out, out.length = n ∧ ItchWriter.padded n s = .ok out := by
  refine ⟨_, ?_, by rw [ItchWriter.padded, encodeAscii_ok h]; rfl⟩
  rw [List.length_append, List.length_replicate]
  have hle := List.length_take_le n (s.map Char.toUInt8)
  omega

theorem padded_error {s : List Char} (n : ℕ) (h : ¬Ascii s) :
    ItchWriter.padded n s = .error .unicodeEncodeError := by
  rw [ItchWriter.padded, encodeAscii_error h]
  rfl

theorem chr_toNat (b : UInt8) : (chr b).toNat = b.toNat := by
  have hlt := b.toNat_lt
  have hvalid : b.toNat.isValidChar := .inl (by omega)
  rw [chr, Char.ofNat, dif_pos hvalid]
  rfl

theorem ascii_chr (b : UInt8) : Ascii [chr b] ↔ b.toNat < 128 := by
  simp [Ascii, chr_toNat]

/-- The replacement character stays, so text is encoded again only if it was ASCII. -/
theorem ascii_decodeAscii (bs : List UInt8) :
    Ascii (decodeAscii bs) ↔ ∀ b ∈ bs, b.toNat < 128 := by
  have hone (b : UInt8) :
      (if b.toNat < 128 then chr b else '\uFFFD').toNat < 128 ↔ b.toNat < 128 := by
    split
    · rw [chr_toNat]
    · rename_i hb
      exact ⟨fun h => absurd h (by decide), fun h => absurd h hb⟩
  simp only [Ascii, decodeAscii, List.forall_mem_map, hone]

/-- What `strip` takes off is ASCII. -/
theorem ascii_strip (s : List Char) : Ascii (strip s) ↔ Ascii s := by
  constructor
  · intro h c hc
    rcases Padding.mem_strip_or (p := isSpace) hc with hmem | hspace
    · exact h c hmem
    · have := of_decide_eq_true hspace
      omega
  · intro h c hc
    have hsub : (strip s).Sublist s :=
      (List.rdropWhile_prefix isSpace _).sublist.trans (List.dropWhile_suffix isSpace).sublist
    exact h c (hsub.subset hc)

/-- A slice that fits, by the offsets of its bytes. -/
theorem slice_forall {b : List UInt8} {off n : ℕ} (h : off + n ≤ b.length) :
    (∀ x ∈ (b.drop off).take n, x.toNat < 128)
      ↔ ∀ k ∈ List.range' off n, (b.getD k 0).toNat < 128 := by
  constructor
  · intro hall k hk
    rw [List.mem_range'_1] at hk
    have hlt : k < b.length := by omega
    rw [List.getD_eq_getElem _ _ hlt]
    apply hall
    rw [List.mem_iff_getElem]
    refine ⟨k - off, by rw [List.length_take, List.length_drop]; omega, ?_⟩
    rw [List.getElem_take, List.getElem_drop]
    congr 1
    omega
  · intro hall x hx
    obtain ⟨k, hk, rfl⟩ := List.mem_iff_getElem.mp hx
    rw [List.length_take, List.length_drop] at hk
    have hget := hall (off + k) (by rw [List.mem_range'_1]; omega)
    rw [List.getD_eq_getElem _ _ (by omega)] at hget
    rw [List.getElem_take, List.getElem_drop]
    exact hget

/-! ## Builders -/

/-- A builder frames a body of `n` bytes, unless some text is not ASCII. -/
structure Builds (ascii : Prop) (n : ℕ) (result : Except PyError (List UInt8)) : Prop where
  ok : ascii → ∃ out : List UInt8, out.length = n ∧ result = .ok (Framing.frame out)
  raises : ¬ascii → result = .error .unicodeEncodeError

theorem frameOfLen_ok {n : ℕ} {body : List UInt8} (h : body.length = n) (hn : n < 0x10000) :
    frameOfLen n body = .ok (Framing.frame body) := by
  rw [frameOfLen, if_pos h, frame, if_pos (by omega)]
  rfl

theorem Builds.congr {p q : Prop} {n : ℕ} {result : Except PyError (List UInt8)} (h : p ↔ q)
    (hb : Builds p n result) : Builds q n result :=
  ⟨fun hq => hb.ok (h.mpr hq), fun hq => hb.raises (mt h.mp hq)⟩

theorem error_bind {α β : Type} (e : PyError) (f : α → Except PyError β) :
    (Except.error e >>= f) = .error e := rfl

section

variable (locate tracking ts ref : ℤ)

theorem header_ok {c : Char} (hc : c.toNat < 128) :
    ∃ out, out.length = 13 ∧ header c locate tracking ts = .ok out := by
  have hascii : Ascii [c] := by simpa [Ascii] using hc
  refine ⟨_, ?_, by rw [header, encodeAscii_ok hascii]; rfl⟩
  simp [u16be, u64be, toBytes_length]

theorem systemEvent_builds (b : UInt8) :
    Builds (b.toNat < 128) 14 (systemEvent locate tracking ts [chr b]) := by
  obtain ⟨hdr, hlen, hhdr⟩ := header_ok locate tracking ts (c := 'S') (by decide)
  rw [systemEvent, hhdr]
  constructor
  · intro hb
    rw [encodeAscii_ok ((ascii_chr b).mpr hb)]
    exact ⟨_, by simp [hlen], frameOfLen_ok (by simp [hlen]) (by decide)⟩
  · intro hb
    rw [encodeAscii_error (mt (ascii_chr b).mp hb)]
    rfl

theorem addOrder_builds (b : UInt8) (shares : ℤ) (stock : List Char) (price : ℤ) :
    Builds (b.toNat < 128 ∧ Ascii stock) 38
      (addOrder locate tracking ts ref [chr b] shares stock price) := by
  obtain ⟨hdr, hlen, hhdr⟩ := header_ok locate tracking ts (c := 'A') (by decide)
  rw [addOrder, hhdr, ok_bind]
  constructor
  · rintro ⟨hb, hstock⟩
    obtain ⟨field, hfield, hpad⟩ := padded_ok 8 hstock
    have hlength : (hdr ++ u64be ref ++ [(chr b).toUInt8] ++ u32be shares ++ field
        ++ u32be price).length = 38 := by
      simp [hlen, hfield, u64be, u32be, toBytes_length]
    rw [encodeAscii_ok ((ascii_chr b).mpr hb), ok_bind, stockField, hpad, ok_bind]
    exact ⟨_, hlength, frameOfLen_ok hlength (by decide)⟩
  · intro htext
    rcases Decidable.em (b.toNat < 128) with hb | hb
    · rw [encodeAscii_ok ((ascii_chr b).mpr hb), ok_bind, stockField,
        padded_error 8 fun h => htext ⟨hb, h⟩, error_bind]
    · rw [encodeAscii_error (mt (ascii_chr b).mp hb), error_bind]

theorem addOrderMpid_builds (b : UInt8) (shares : ℤ) (stock : List Char) (price : ℤ)
    (mpid : List Char) :
    Builds (b.toNat < 128 ∧ Ascii stock ∧ Ascii mpid) 42
      (addOrderMpid locate tracking ts ref [chr b] shares stock price mpid) := by
  obtain ⟨hdr, hlen, hhdr⟩ := header_ok locate tracking ts (c := 'F') (by decide)
  rw [addOrderMpid]
  constructor
  · rintro ⟨hb, hstock, hmpid⟩
    obtain ⟨field, hfield, hpad⟩ := padded_ok 8 hstock
    obtain ⟨last, hlast, hpad'⟩ := padded_ok 4 hmpid
    have hlength : (hdr ++ u64be ref ++ [(chr b).toUInt8] ++ u32be shares ++ field
        ++ u32be price ++ last).length = 42 := by
      simp [hlen, hfield, hlast, u64be, u32be, toBytes_length]
    rw [hpad', ok_bind, hhdr, ok_bind, encodeAscii_ok ((ascii_chr b).mpr hb), ok_bind, stockField,
      hpad, ok_bind]
    exact ⟨_, hlength, frameOfLen_ok hlength (by decide)⟩
  · intro htext
    rcases Classical.em (Ascii mpid) with hmpid | hmpid
    · obtain ⟨last, -, hpad'⟩ := padded_ok 4 hmpid
      rw [hpad', ok_bind, hhdr, ok_bind]
      rcases Decidable.em (b.toNat < 128) with hb | hb
      · rw [encodeAscii_ok ((ascii_chr b).mpr hb), ok_bind, stockField,
          padded_error 8 fun h => htext ⟨hb, h, hmpid⟩, error_bind]
      · rw [encodeAscii_error (mt (ascii_chr b).mp hb), error_bind]
    · rw [padded_error 4 hmpid, error_bind]

theorem trade_builds (b : UInt8) (shares : ℤ) (stock : List Char) (price matchNumber : ℤ) :
    Builds (b.toNat < 128 ∧ Ascii stock) 46
      (trade locate tracking ts ref [chr b] shares stock price matchNumber) := by
  obtain ⟨hdr, hlen, hhdr⟩ := header_ok locate tracking ts (c := 'P') (by decide)
  rw [trade, hhdr, ok_bind]
  constructor
  · rintro ⟨hb, hstock⟩
    obtain ⟨field, hfield, hpad⟩ := padded_ok 8 hstock
    have hlength : (hdr ++ u64be ref ++ [(chr b).toUInt8] ++ u32be shares ++ field
        ++ u32be price ++ u64be matchNumber).length = 46 := by
      simp [hlen, hfield, u64be, u32be, toBytes_length]
    rw [encodeAscii_ok ((ascii_chr b).mpr hb), ok_bind, stockField, hpad, ok_bind]
    exact ⟨_, hlength, frameOfLen_ok hlength (by decide)⟩
  · intro htext
    rcases Decidable.em (b.toNat < 128) with hb | hb
    · rw [encodeAscii_ok ((ascii_chr b).mpr hb), ok_bind, stockField,
        padded_error 8 fun h => htext ⟨hb, h⟩, error_bind]
    · rw [encodeAscii_error (mt (ascii_chr b).mp hb), error_bind]

/-- A message without text is always built: its body is a header and numbers. -/
theorem builds_numbers {c : Char} (hc : c.toNat < 128) {n : ℕ} (hn : n < 0x10000)
    {fields : List UInt8 → List UInt8} (hlength : ∀ hdr, hdr.length = 13 → (fields hdr).length = n) :
    Builds True n (header c locate tracking ts >>= fun hdr => frameOfLen n (fields hdr)) := by
  obtain ⟨hdr, hlen, hhdr⟩ := header_ok locate tracking ts hc
  rw [hhdr, ok_bind]
  exact ⟨fun _ => ⟨_, hlength hdr hlen, frameOfLen_ok (hlength hdr hlen) hn⟩,
    fun h => absurd trivial h⟩

theorem orderExecuted_builds (shares matchNumber : ℤ) :
    Builds True 33 (orderExecuted locate tracking ts ref shares matchNumber) :=
  builds_numbers locate tracking ts (by decide) (by decide) fun hdr h => by
    simp [h, u64be, u32be, toBytes_length]

theorem orderExecutedPrice_builds (shares matchNumber : ℤ) (printable : Bool) (price : ℤ) :
    Builds True 38
      (orderExecutedPrice locate tracking ts ref shares matchNumber printable price) :=
  builds_numbers locate tracking ts (by decide) (by decide) fun hdr h => by
    cases printable <;> simp [h, u64be, u32be, toBytes_length]

theorem orderCancel_builds (shares : ℤ) :
    Builds True 25 (orderCancel locate tracking ts ref shares) :=
  builds_numbers locate tracking ts (by decide) (by decide) fun hdr h => by
    simp [h, u64be, u32be, toBytes_length]

theorem orderDelete_builds : Builds True 21 (orderDelete locate tracking ts ref) :=
  builds_numbers locate tracking ts (by decide) (by decide) fun hdr h => by
    simp [h, u64be, toBytes_length]

theorem orderReplace_builds (newRef shares price : ℤ) :
    Builds True 37 (orderReplace locate tracking ts ref newRef shares price) :=
  builds_numbers locate tracking ts (by decide) (by decide) fun hdr h => by
    simp [h, u64be, u32be, toBytes_length]

end

/-! ## Readers -/

section

variable {b : List UInt8} {w off : ℕ}

theorem unpackFrom_some (h : off + w ≤ b.length) :
    unpackFrom w b off = some (ofBytes ((b.drop off).take w)) := if_pos h

theorem unpackFrom_none (h : b.length < off + w) : unpackFrom w b off = none :=
  if_neg (Nat.not_le_of_lt h)

theorem readChar_some (h : off < b.length) : readChar b off = some (chr (b.getD off 0)) := by
  rw [readChar, List.getElem?_eq_getElem h, List.getD_eq_getElem _ _ h]
  rfl

theorem readChar_none (h : b.length ≤ off) : readChar b off = none := by
  rw [readChar, List.getElem?_eq_none h]
  rfl

theorem ascii_readStock (h : off + 8 ≤ b.length) :
    Ascii (readStock b off) ↔ ∀ k ∈ List.range' off 8, (b.getD k 0).toNat < 128 := by
  rw [readStock, ascii_strip, ascii_decodeAscii, slice_forall h]

end

/-! ## One record -/

/-- A record with enough bytes for its reads goes to a builder, and a shorter one is skipped. -/
structure Converts (body : List UInt8) (need : ℕ) (ascii : Prop) (project : ℕ)
    (result : Except PyError (Option (List UInt8))) : Prop where
  short : body.length < need → result = .ok none
  full : need ≤ body.length → ∃ r, Builds ascii project r ∧ result = attempt (some r)

theorem Converts.congr {body : List UInt8} {need project : ℕ} {p q : Prop}
    {result : Except PyError (Option (List UInt8))} (h : p ↔ q)
    (hc : Converts body need p project result) : Converts body need q project result where
  short := hc.short
  full hle := by
    obtain ⟨r, hbuilds, hresult⟩ := hc.full hle
    exact ⟨r, hbuilds.congr h, hresult⟩

section

variable {body : List UInt8} (ts48 locate tracking tickScale : ℤ)

/-- The type decides which branch is taken. -/
theorem convert_add (ht : body.head?.map chr = some 'A') :
    Converts body 36 ((body.getD 19 0).toNat < 128
      ∧ ∀ k ∈ List.range' 24 8, (body.getD k 0).toNat < 128) 38
      (convert body ts48 locate tracking tickScale) := by
  obtain ⟨byte, hhead, hchr⟩ := Option.map_eq_some_iff.mp ht
  rw [convert, hhead]
  dsimp only
  rw [hchr, if_pos rfl]
  constructor
  · intro hlt
    have hprice : readU32 body 32 = none := unpackFrom_none hlt
    simp [hprice, attempt]
  · intro hle
    have href : readU64 body 11 = _ := unpackFrom_some (by omega)
    have hside := readChar_some (b := body) (show 19 < body.length by omega)
    have hshares : readU32 body 20 = _ := unpackFrom_some (by omega)
    have hprice : readU32 body 32 = _ := unpackFrom_some hle
    simp only [href, hside, hshares, hprice, Option.bind_eq_bind, Option.bind_some,
      Option.pure_def]
    exact ⟨_, (addOrder_builds ..).congr (and_congr_right' (ascii_readStock (by omega))), rfl⟩

theorem convert_addMpid (ht : body.head?.map chr = some 'F') :
    Converts body 36 ((body.getD 19 0).toNat < 128
      ∧ (∀ k ∈ List.range' 24 8, (body.getD k 0).toNat < 128)
      ∧ Ascii (decodeAscii ((body.drop 36).take 4))) 42
      (convert body ts48 locate tracking tickScale) := by
  obtain ⟨byte, hhead, hchr⟩ := Option.map_eq_some_iff.mp ht
  rw [convert, hhead]
  dsimp only
  rw [hchr, if_neg (by decide), if_pos rfl]
  constructor
  · intro hlt
    have hprice : readU32 body 32 = none := unpackFrom_none hlt
    simp [hprice, attempt]
  · intro hle
    have href : readU64 body 11 = _ := unpackFrom_some (by omega)
    have hside := readChar_some (b := body) (show 19 < body.length by omega)
    have hshares : readU32 body 20 = _ := unpackFrom_some (by omega)
    have hprice : readU32 body 32 = _ := unpackFrom_some hle
    simp only [href, hside, hshares, hprice, Option.bind_eq_bind, Option.bind_some,
      Option.pure_def]
    exact ⟨_, (addOrderMpid_builds ..).congr
      (and_congr_right' (and_congr_left' (ascii_readStock (by omega)))), rfl⟩

theorem convert_executed (ht : body.head?.map chr = some 'E') :
    Converts body 31 True 33 (convert body ts48 locate tracking tickScale) := by
  obtain ⟨byte, hhead, hchr⟩ := Option.map_eq_some_iff.mp ht
  rw [convert, hhead]
  dsimp only
  rw [hchr, if_neg (by decide), if_neg (by decide), if_pos rfl]
  constructor
  · intro hlt
    have hmatch : readU64 body 23 = none := unpackFrom_none hlt
    simp [hmatch, attempt]
  · intro hle
    have href : readU64 body 11 = _ := unpackFrom_some (by omega)
    have hshares : readU32 body 19 = _ := unpackFrom_some (by omega)
    have hmatch : readU64 body 23 = _ := unpackFrom_some hle
    simp only [href, hshares, hmatch, Option.bind_eq_bind, Option.bind_some, Option.pure_def]
    exact ⟨_, orderExecuted_builds .., rfl⟩

theorem convert_executedPrice (ht : body.head?.map chr = some 'C') :
    Converts body 36 True 38 (convert body ts48 locate tracking tickScale) := by
  obtain ⟨byte, hhead, hchr⟩ := Option.map_eq_some_iff.mp ht
  rw [convert, hhead]
  dsimp only
  rw [hchr, if_neg (by decide), if_neg (by decide), if_neg (by decide), if_pos rfl]
  constructor
  · intro hlt
    have hprice : readU32 body 32 = none := unpackFrom_none hlt
    simp [hprice, attempt]
  · intro hle
    have href : readU64 body 11 = _ := unpackFrom_some (by omega)
    have hshares : readU32 body 19 = _ := unpackFrom_some (by omega)
    have hmatch : readU64 body 23 = _ := unpackFrom_some (by omega)
    have hprintable := readChar_some (b := body) (show 31 < body.length by omega)
    have hprice : readU32 body 32 = _ := unpackFrom_some hle
    simp only [href, hshares, hmatch, hprintable, hprice, Option.bind_eq_bind, Option.bind_some,
      Option.pure_def]
    exact ⟨_, orderExecutedPrice_builds .., rfl⟩

theorem convert_cancel (ht : body.head?.map chr = some 'X') :
    Converts body 23 True 25 (convert body ts48 locate tracking tickScale) := by
  obtain ⟨byte, hhead, hchr⟩ := Option.map_eq_some_iff.mp ht
  rw [convert, hhead]
  dsimp only
  rw [hchr, if_neg (by decide), if_neg (by decide), if_neg (by decide), if_neg (by decide),
    if_pos rfl]
  constructor
  · intro hlt
    have hshares : readU32 body 19 = none := unpackFrom_none hlt
    simp [hshares, attempt]
  · intro hle
    have href : readU64 body 11 = _ := unpackFrom_some (by omega)
    have hshares : readU32 body 19 = _ := unpackFrom_some hle
    simp only [href, hshares, Option.bind_eq_bind, Option.bind_some, Option.pure_def]
    exact ⟨_, orderCancel_builds .., rfl⟩

theorem convert_delete (ht : body.head?.map chr = some 'D') :
    Converts body 19 True 21 (convert body ts48 locate tracking tickScale) := by
  obtain ⟨byte, hhead, hchr⟩ := Option.map_eq_some_iff.mp ht
  rw [convert, hhead]
  dsimp only
  rw [hchr, if_neg (by decide), if_neg (by decide), if_neg (by decide), if_neg (by decide),
    if_neg (by decide), if_pos rfl]
  constructor
  · intro hlt
    have href : readU64 body 11 = none := unpackFrom_none hlt
    simp [href, attempt]
  · intro hle
    have href : readU64 body 11 = _ := unpackFrom_some hle
    simp only [href, Option.bind_eq_bind, Option.bind_some, Option.pure_def]
    exact ⟨_, orderDelete_builds .., rfl⟩

theorem convert_replace (ht : body.head?.map chr = some 'U') :
    Converts body 35 True 37 (convert body ts48 locate tracking tickScale) := by
  obtain ⟨byte, hhead, hchr⟩ := Option.map_eq_some_iff.mp ht
  rw [convert, hhead]
  dsimp only
  rw [hchr, if_neg (by decide), if_neg (by decide), if_neg (by decide), if_neg (by decide),
    if_neg (by decide), if_neg (by decide), if_pos rfl]
  constructor
  · intro hlt
    have hprice : readU32 body 31 = none := unpackFrom_none hlt
    simp [hprice, attempt]
  · intro hle
    have horig : readU64 body 11 = _ := unpackFrom_some (by omega)
    have hnew : readU64 body 19 = _ := unpackFrom_some (by omega)
    have hshares : readU32 body 27 = _ := unpackFrom_some (by omega)
    have hprice : readU32 body 31 = _ := unpackFrom_some hle
    simp only [horig, hnew, hshares, hprice, Option.bind_eq_bind, Option.bind_some,
      Option.pure_def]
    exact ⟨_, orderReplace_builds .., rfl⟩

theorem convert_trade (ht : body.head?.map chr = some 'P') :
    Converts body 44 ((body.getD 19 0).toNat < 128
      ∧ ∀ k ∈ List.range' 24 8, (body.getD k 0).toNat < 128) 46
      (convert body ts48 locate tracking tickScale) := by
  obtain ⟨byte, hhead, hchr⟩ := Option.map_eq_some_iff.mp ht
  rw [convert, hhead]
  dsimp only
  rw [hchr, if_neg (by decide), if_neg (by decide), if_neg (by decide), if_neg (by decide),
    if_neg (by decide), if_neg (by decide), if_neg (by decide), if_pos rfl]
  constructor
  · intro hlt
    have hmatch : readU64 body 36 = none := unpackFrom_none hlt
    simp [hmatch, attempt]
  · intro hle
    have href : readU64 body 11 = _ := unpackFrom_some (by omega)
    have hside := readChar_some (b := body) (show 19 < body.length by omega)
    have hshares : readU32 body 20 = _ := unpackFrom_some (by omega)
    have hprice : readU32 body 32 = _ := unpackFrom_some (by omega)
    have hmatch : readU64 body 36 = _ := unpackFrom_some hle
    simp only [href, hside, hshares, hprice, hmatch, Option.bind_eq_bind, Option.bind_some,
      Option.pure_def]
    exact ⟨_, (trade_builds ..).congr (and_congr_right' (ascii_readStock (by omega))), rfl⟩

theorem convert_system (ht : body.head?.map chr = some 'S') :
    Converts body 12 ((body.getD 11 0).toNat < 128) 14
      (convert body ts48 locate tracking tickScale) := by
  obtain ⟨byte, hhead, hchr⟩ := Option.map_eq_some_iff.mp ht
  rw [convert, hhead]
  dsimp only
  rw [hchr, if_neg (by decide), if_neg (by decide), if_neg (by decide), if_neg (by decide),
    if_neg (by decide), if_neg (by decide), if_neg (by decide), if_neg (by decide), if_pos rfl]
  constructor
  · intro hlt
    have hevent := readChar_none (b := body) (Nat.le_of_lt_succ hlt)
    simp [hevent, attempt]
  · intro hle
    have hevent := readChar_some (b := body) hle
    simp only [hevent, Option.bind_eq_bind, Option.bind_some, Option.pure_def]
    exact ⟨_, systemEvent_builds .., rfl⟩

/-- The nine types. -/
def supportedTypes : List Char := ['A', 'F', 'E', 'C', 'X', 'D', 'U', 'P', 'S']

theorem bodyLengths_none {t : Char} (h : t ∉ supportedTypes) : bodyLengths t = none := by
  unfold bodyLengths
  split <;> first | rfl | exact absurd (by decide) h

theorem convert_unsupported {t : Char} (ht : body.head?.map chr = some t)
    (hnone : t ∉ supportedTypes) :
    convert body ts48 locate tracking tickScale = .ok none := by
  obtain ⟨byte, hhead, hchr⟩ := Option.map_eq_some_iff.mp ht
  have hne {c : Char} (hc : c ∈ supportedTypes) : ¬t = c := fun h => hnone (h ▸ hc)
  rw [convert, hhead]
  dsimp only
  rw [hchr, if_neg (hne (by decide)), if_neg (hne (by decide)), if_neg (hne (by decide)),
    if_neg (hne (by decide)), if_neg (hne (by decide)), if_neg (hne (by decide)),
    if_neg (hne (by decide)), if_neg (hne (by decide)), if_neg (hne (by decide))]

end

/-- The exception of the encoder goes through. -/
theorem attempt_raises {r : Except PyError (List UInt8)} (h : r = .error .unicodeEncodeError)
    {out : Option (List UInt8)} : attempt (some r) ≠ .ok out := by
  rw [h]
  exact nofun

/-- Where the reads need all bytes of a record, only text is in the way. -/
theorem Converts.handles_iff {body : List UInt8} {native project : ℕ} {ascii : Prop}
    {result : Except PyError (Option (List UInt8))} (h : Converts body native ascii project result)
    (hlengths : bodyLengths (bodyType body) = some (native, project)) :
    Handles body result ↔ (native ≤ body.length → ascii) := by
  rw [Handles, hlengths]
  dsimp only
  split
  · rename_i hlt
    exact ⟨fun _ hle => absurd hlt (Nat.not_lt_of_le hle), fun _ => h.short hlt⟩
  · rename_i hge
    have hle := Nat.le_of_not_lt hge
    obtain ⟨r, hbuilds, hresult⟩ := h.full hle
    constructor
    · rintro ⟨out, -, hout⟩ -
      by_contra htext
      exact attempt_raises (hbuilds.raises htext) (hresult.symm.trans hout)
    · intro htext
      obtain ⟨out, hlen, hok⟩ := hbuilds.ok (htext hle)
      exact ⟨out, hlen, by rw [hresult, hok]; rfl⟩

/-- A record is skipped only if it is too short for its reads. -/
theorem Converts.not_skipped {body : List UInt8} {need project : ℕ} {ascii : Prop}
    {result : Except PyError (Option (List UInt8))} (h : Converts body need ascii project result)
    (hle : need ≤ body.length) : result ≠ .ok none := by
  obtain ⟨r, hbuilds, rfl⟩ := h.full hle
  rcases Classical.em ascii with htext | htext
  · obtain ⟨out, -, rfl⟩ := hbuilds.ok htext
    exact nofun
  · exact attempt_raises (hbuilds.raises htext)

theorem convertible_iff {body : List UInt8} {t : Char} {native project : ℕ}
    (ht : bodyType body = t) (hlengths : bodyLengths t = some (native, project))
    (hcut : t = 'F' → ¬(36 ≤ body.length ∧ body.length < 40)) :
    Convertible body ↔
      (native ≤ body.length → ∀ off ∈ textOffsets t, (body.getD off 0).toNat < 128) := by
  rw [Convertible, ht, hlengths]
  exact ⟨fun h hle => h.1 _ rfl hle, fun h => ⟨fun lengths hl hle => by
    obtain rfl := Option.some.inj hl
    exact h hle, hcut⟩⟩

/-- An `F` record needs only 36 of its 40 bytes, and one that is cut behind them is not skipped. -/
theorem addMpid_handles_iff {body : List UInt8} {result : Except PyError (Option (List UInt8))}
    (ht : bodyType body = 'F')
    (h : Converts body 36 ((body.getD 19 0).toNat < 128
      ∧ (∀ k ∈ List.range' 24 8, (body.getD k 0).toNat < 128)
      ∧ Ascii (decodeAscii ((body.drop 36).take 4))) 42 result) :
    Handles body result ↔ Convertible body := by
  rcases Classical.em (36 ≤ body.length ∧ body.length < 40) with hcut | hcut
  · have hskip : ¬Handles body result := by
      rw [Handles, ht]
      exact fun hskipped => h.not_skipped hcut.1 ((if_pos hcut.2).mp hskipped)
    exact ⟨fun hh => absurd hh hskip, fun hc => absurd hcut (hc.2 ht)⟩
  · -- the reads and the slice need all 40 bytes
    have hfull : Converts body 40 (∀ off ∈ textOffsets 'F', (body.getD off 0).toNat < 128) 42
        result := by
      refine ⟨fun hlt => h.short (by omega), fun hle => ?_⟩
      obtain ⟨r, hbuilds, hresult⟩ := h.full (by omega)
      refine ⟨r, hbuilds.congr ?_, hresult⟩
      rw [ascii_decodeAscii, slice_forall hle]
      simp only [textOffsets, List.forall_mem_cons, List.forall_mem_append]
    rw [hfull.handles_iff (by rw [ht]; rfl), convertible_iff ht rfl fun _ => hcut]

variable {body : List UInt8} (ts48 locate tracking tickScale : ℤ)

/-- One record: case by case over the types. -/
theorem handles_iff_convertible (h : hdrLen ≤ body.length) :
    Handles body (convert body ts48 locate tracking tickScale) ↔ Convertible body := by
  have hlen : 11 ≤ body.length := h
  obtain ⟨byte, tail, rfl⟩ := List.exists_cons_of_length_pos (Nat.lt_of_lt_of_le (by decide) hlen)
  have hhead {t : Char} (ht : bodyType (byte :: tail) = t) :
      (byte :: tail).head?.map chr = some t := congrArg some ht
  -- a type whose reads need the whole record
  have hwhole {t : Char} {native project : ℕ} (ht : bodyType (byte :: tail) = t) (hF : t ≠ 'F')
      (hlengths : bodyLengths t = some (native, project))
      (hconverts : Converts (byte :: tail) native
        (∀ off ∈ textOffsets t, ((byte :: tail).getD off 0).toNat < 128) project
        (convert (byte :: tail) ts48 locate tracking tickScale)) :
      Handles (byte :: tail) (convert (byte :: tail) ts48 locate tracking tickScale) ↔
        Convertible (byte :: tail) := by
    rw [hconverts.handles_iff (by rw [ht, hlengths]),
      convertible_iff ht hlengths fun h => absurd h hF]
  have hnumbers {P : ℕ → Prop} : True ↔ ∀ off ∈ ([] : List ℕ), P off := by simp
  rcases Classical.em (bodyType (byte :: tail) ∈ supportedTypes) with ht | ht
  · simp only [supportedTypes, List.mem_cons, List.not_mem_nil, or_false] at ht
    rcases ht with ht | ht | ht | ht | ht | ht | ht | ht | ht
    · exact hwhole ht (by decide) rfl
        ((convert_add _ _ _ _ (hhead ht)).congr List.forall_mem_cons.symm)
    · exact addMpid_handles_iff ht (convert_addMpid _ _ _ _ (hhead ht))
    · exact hwhole ht (by decide) rfl ((convert_executed _ _ _ _ (hhead ht)).congr hnumbers)
    · exact hwhole ht (by decide) rfl ((convert_executedPrice _ _ _ _ (hhead ht)).congr hnumbers)
    · exact hwhole ht (by decide) rfl ((convert_cancel _ _ _ _ (hhead ht)).congr hnumbers)
    · exact hwhole ht (by decide) rfl ((convert_delete _ _ _ _ (hhead ht)).congr hnumbers)
    · exact hwhole ht (by decide) rfl ((convert_replace _ _ _ _ (hhead ht)).congr hnumbers)
    · exact hwhole ht (by decide) rfl
        ((convert_trade _ _ _ _ (hhead ht)).congr List.forall_mem_cons.symm)
    · exact hwhole ht (by decide) rfl
        ((convert_system _ _ _ _ (hhead ht)).congr List.forall_mem_singleton.symm)
  · -- no other type is converted, whatever it holds
    have hnone := bodyLengths_none ht
    have hskipped : Handles (byte :: tail)
        (convert (byte :: tail) ts48 locate tracking tickScale) := by
      rw [Handles, hnone]
      exact convert_unsupported _ _ _ _ (hhead rfl) ht
    have hconvertible : Convertible (byte :: tail) := by
      refine ⟨fun lengths hl => ?_, fun hF => absurd (by rw [hF]; decide) ht⟩
      rw [hnone] at hl
      exact absurd hl (Option.not_mem_none _)
    exact iff_of_true hskipped hconvertible

/-! ## A file -/

/-- The records of a file that are converted, in order. -/
def converted (opt : ConvertOptions) (body : List UInt8) : Option (List UInt8) :=
  match convertBody opt body with
  | .ok result => result
  | .error _ => none

/-- No more than `max_msgs` of them are written, but at least one. -/
def limited (opt : ConvertOptions) (written : ℕ) (outs : List (List UInt8)) : List (List UInt8) :=
  if opt.maxMsgs = 0 then outs else outs.take (max 1 (opt.maxMsgs - written)).toNat

theorem limited_nil (opt : ConvertOptions) (written : ℕ) : limited opt written [] = [] := by
  simp [limited]

/-- The last record that is written. -/
theorem limited_last {opt : ConvertOptions} {written : ℕ} (proj : List UInt8)
    (outs : List (List UInt8)) (h : opt.maxMsgs ≠ 0 ∧ opt.maxMsgs ≤ (written + 1 : ℕ)) :
    limited opt written (proj :: outs) = [proj] := by
  have hone : (max 1 (opt.maxMsgs - written)).toNat = 1 := by
    have := h.2
    omega
  rw [limited, if_neg h.1, hone, List.take_succ_cons, List.take_zero]

/-- A record with others behind it. -/
theorem limited_cons {opt : ConvertOptions} {written : ℕ} (proj : List UInt8)
    (outs : List (List UInt8)) (h : ¬(opt.maxMsgs ≠ 0 ∧ opt.maxMsgs ≤ (written + 1 : ℕ))) :
    limited opt written (proj :: outs) = proj :: limited opt (written + 1) outs := by
  rcases Decidable.em (opt.maxMsgs = 0) with hmax | hmax
  · rw [limited, limited, if_pos hmax, if_pos hmax]
  · have hgt : (written + 1 : ℕ) < opt.maxMsgs := Int.not_le.mp fun hle => h ⟨hmax, hle⟩
    have hmore : (max 1 (opt.maxMsgs - written)).toNat =
        (max 1 (opt.maxMsgs - (written + 1 : ℕ))).toNat + 1 := by
      omega
    rw [limited, limited, if_neg hmax, if_neg hmax, hmore, List.take_succ_cons]

theorem Handles.ok {body : List UInt8} {result : Except PyError (Option (List UInt8))}
    (h : Handles body result) : ∃ out, result = .ok out := by
  rw [Handles] at h
  split at h
  · exact ⟨none, h⟩
  · split at h
    · exact ⟨none, h⟩
    · obtain ⟨out, -, hout⟩ := h
      exact ⟨some (Framing.frame out), hout⟩

/-- A record of the file does not raise. -/
theorem convertBody_ok (opt : ConvertOptions) {body : List UInt8}
    (h : hdrLen ≤ body.length → Convertible body) :
    convertBody opt body = .ok (converted opt body) := by
  have hok : ∃ out, convertBody opt body = .ok out := by
    rw [convertBody]
    split
    · exact ⟨none, rfl⟩
    · rename_i hge
      have hle : hdrLen ≤ body.length := Nat.le_of_not_lt hge
      have hlen : 11 ≤ body.length := hle
      have hlocate : readU16 body 1 = _ := unpackFrom_some (by omega)
      have htracking : readU16 body 3 = _ := unpackFrom_some (by omega)
      have hhigh : unpackFrom 2 body 5 = _ := unpackFrom_some (by omega)
      have hlow : unpackFrom 4 body (5 + 2) = _ := unpackFrom_some hlen
      simp only [hlocate, htracking, readTs48, hhigh, hlow, Option.bind_eq_bind, Option.bind_some,
        Option.pure_def]
      split
      · exact ⟨none, rfl⟩
      · split
        · exact ⟨none, rfl⟩
        · exact ((handles_iff_convertible _ _ _ _ hle).mpr (h hle)).ok
  obtain ⟨out, hout⟩ := hok
  rw [converted, hout]

/-- The loop, from `written` records on. Along the frames of the file. -/
theorem convertFrom_eq (opt : ConvertOptions) (data : List UInt8) (st : ConvertStats)
    (out : List UInt8)
    (h : ∀ body ∈ streamBodies data, hdrLen ≤ body.length → Convertible body) :
    ∃ st', convertFrom opt data st out = .ok (st', out ++
      (limited opt st.outputMsgs ((streamBodies data).filterMap (converted opt))).flatten)
      ∧ st'.outputMsgs = st.outputMsgs +
        (limited opt st.outputMsgs ((streamBodies data).filterMap (converted opt))).length := by
  induction data using Framing.split.induct generalizing st out with
  | case1 data hshort =>
    have hnil : streamBodies data = [] := streamBodies_nil (.inr hshort)
    refine ⟨st, ?_, by simp [hnil, limited_nil]⟩
    rw [convertFrom, hnil]
    split
    · simp [limited_nil]
    · have hstop : ofBytes (data.take 2) = 0 ∨ data.length < 2 + ofBytes (data.take 2) :=
        .inr hshort
      simp [hstop, limited_nil]
  | case2 data hfull ih =>
    rw [convertFrom, if_neg (by omega)]
    rcases Nat.eq_zero_or_pos (Framing.announced data) with hzero | hpos
    · have hnil : streamBodies data = [] := streamBodies_nil (.inl hzero)
      have hstop : ofBytes (data.take 2) = 0 ∨ data.length < 2 + ofBytes (data.take 2) :=
        .inl hzero
      exact ⟨st, by simp [hstop, hnil, limited_nil], by simp [hnil, limited_nil]⟩
    · have hstop : ¬(ofBytes (data.take 2) = 0 ∨ data.length < 2 + ofBytes (data.take 2)) :=
        not_or.mpr ⟨Nat.ne_of_gt hpos, hfull⟩
      have hcons := streamBodies_cons hfull hpos
      rw [hcons] at h ⊢
      obtain ⟨hbody, hrest⟩ := List.forall_mem_cons.mp h
      have hconv : convertBody opt ((data.drop 2).take (ofBytes (data.take 2))) = _ :=
        convertBody_ok opt hbody
      dsimp only
      rw [if_neg hstop]
      cases hc : converted opt ((data.drop 2).take (Framing.announced data)) with
      | none =>
        rw [List.filterMap_cons_none hc, hconv.trans (congrArg Except.ok hc)]
        exact ih { st with inputMsgs := st.inputMsgs + 1, skipped := st.skipped + 1 } out hrest
      | some proj =>
        rw [List.filterMap_cons_some hc, hconv.trans (congrArg Except.ok hc)]
        dsimp only
        split
        · rename_i hlast
          rw [limited_last _ _ hlast]
          exact ⟨_, by rw [List.flatten_singleton], rfl⟩
        · rename_i hmore
          rw [limited_cons _ _ hmore]
          obtain ⟨st', hrun, hcount⟩ := ih { st with
            inputMsgs := st.inputMsgs + 1, outputMsgs := st.outputMsgs + 1 } (out ++ proj) hrest
          refine ⟨st', hrun.trans ?_, hcount.trans ?_⟩
          · rw [List.flatten_cons, List.append_assoc]
          · exact Nat.succ_add_eq_add_succ _ _

/-- **Damage is rejected, apart from two gaps.** A record is converted to a frame of its type's length
or skipped exactly when it is `Convertible`. In a file of such records every record is converted by
itself, and nothing raises. -/
theorem convert_handles_iff (opt : ConvertOptions) (data : List UInt8) :
    (∀ (body : List UInt8) (ts48 locate tracking tickScale : ℤ), hdrLen ≤ body.length →
      (Handles body (convert body ts48 locate tracking tickScale) ↔ Convertible body))
    ∧ ((∀ body ∈ streamBodies data, hdrLen ≤ body.length → Convertible body) →
      ∃ st, convertFile opt data = .ok (st,
          (limited opt 0 ((streamBodies data).filterMap (converted opt))).flatten)
        ∧ st.outputMsgs
          = (limited opt 0 ((streamBodies data).filterMap (converted opt))).length) := by
  refine ⟨fun body ts48 locate tracking tickScale h => handles_iff_convertible _ _ _ _ h,
    fun h => ?_⟩
  obtain ⟨st, hrun, hcount⟩ := convertFrom_eq opt data {} [] h
  rw [List.nil_append] at hrun
  rw [convertFile, hrun]
  exact ⟨_, rfl, hcount.trans (Nat.zero_add _)⟩

/-- A record of the type, zero in its header and numbers, that buys the stock. -/
def sampleRecord (type : Char) (stock : List UInt8) : List UInt8 :=
  type.toUInt8 :: (List.replicate 18 0 ++ ['B'.toUInt8, 0, 0, 0, 1] ++ stock ++ [0, 0, 0, 100])

/-- An accented letter in the stock. -/
def accentedRecord : List UInt8 := sampleRecord 'A' [0xC9, 32, 32, 32, 32, 32, 32, 32]

/-- An `F` record without its market participant. -/
def cutRecord : List UInt8 := sampleRecord 'F' [65, 65, 80, 76, 32, 32, 32, 32]

/-- The letter makes the conversion raise, and the cut record gets through. -/
theorem damaged_not_rejected :
    convert accentedRecord 0 1 0 1 = .error .unicodeEncodeError
      ∧ ¬Handles accentedRecord (convert accentedRecord 0 1 0 1)
      ∧ ¬Handles cutRecord (convert cutRecord 0 1 0 1) := by
  have hraises : convert accentedRecord 0 1 0 1 = .error .unicodeEncodeError := by decide +kernel
  have hpasses : convert cutRecord 0 1 0 1 ≠ .ok none := by decide +kernel
  refine ⟨hraises, fun h => ?_, fun h => ?_⟩
  · obtain ⟨out, hout⟩ := h.ok
    rw [hraises] at hout
    cases hout
  · have hskipped : convert cutRecord 0 1 0 1 = .ok none := by
      have hlengths : bodyLengths (bodyType cutRecord) = some (40, 42) := by decide
      rw [Handles, hlengths] at h
      exact (if_pos (show cutRecord.length < 40 by decide)).mp h
    exact hpasses hskipped

/-- A record cut in its price, and a whole one behind it. -/
def sampleRecords : List (List UInt8) :=
  [sampleRecord 'A' [], sampleRecord 'A' (List.replicate 8 65)]

/-- The cut record is skipped, and the file is converted. -/
theorem convert_handles_iff_sample :
    Handles (sampleRecord 'A' []) (convert (sampleRecord 'A' []) 0 1 0 1)
      ∧ ∃ st, convertFile {} (sampleRecords.flatMap Framing.frame) = .ok (st,
          (limited {} 0 ((streamBodies (sampleRecords.flatMap Framing.frame)).filterMap
            (converted {}))).flatten)
        ∧ st.outputMsgs = (limited {} 0 ((streamBodies
            (sampleRecords.flatMap Framing.frame)).filterMap (converted {}))).length := by
  have hcut : Convertible (sampleRecord 'A' []) :=
    ⟨fun lengths hl hle => by
      obtain rfl : (36, 38) = lengths := Option.some.inj hl
      exact absurd hle (by decide), fun h => absurd h (by decide)⟩
  have hwhole : Convertible (sampleRecord 'A' (List.replicate 8 65)) :=
    ⟨fun lengths hl _ => by decide, fun h => absurd h (by decide)⟩
  have hbodies : streamBodies (sampleRecords.flatMap Framing.frame) = sampleRecords :=
    streamBodies_flatMap (by decide) (by decide)
  obtain ⟨hrecord, hfile⟩ := convert_handles_iff {} (sampleRecords.flatMap Framing.frame)
  refine ⟨(hrecord _ 0 1 0 1 (by decide)).mpr hcut, hfile fun body hbody _ => ?_⟩
  rw [hbodies] at hbody
  rcases List.mem_pair.mp hbody with rfl | rfl
  · exact hcut
  · exact hwhole

end ItchOrderbook.NasdaqItch
