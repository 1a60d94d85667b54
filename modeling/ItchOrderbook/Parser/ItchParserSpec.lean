import Mathlib.Data.List.TakeWhile
import ItchOrderbook.Parser.ItchParser
import Mathlib.Data.List.GetD

/-!
# What the parser does to a stream

`parse_stream` hands over the decoded bodies of the complete frames in front of the first empty
one, and its statistics count them (`parseStream_eq`). A body is decoded from its own bytes only,
whatever follows it in memory (`decodeBody_congr`).
-/

namespace ItchOrderbook

open BigEndian Framing

/-! ## Loads -/

theorem getD_drop (b : List UInt8) (k i : ℕ) : (b.drop k).getD i 0 = b.getD (k + i) 0 := by
  rw [List.getD_eq_getElem?_getD, List.getElem?_drop, ← List.getD_eq_getElem?_getD]

theorem be16_toNat {p : List UInt8} (h : 2 ≤ p.length) : (be16 p).toNat = announced p := by
  match p, h with
  | a :: b :: tail, _ => exact word16_toNat a b

/-- A 16-bit field loads as the number its bytes stand for. -/
theorem be16_append {bs : List UInt8} (h : bs.length = 2) (tail : List UInt8) :
    be16 (bs ++ tail) = UInt16.ofNat (ofBytes bs) := by
  match bs, h with
  | [a, b], _ => exact (UInt16.ofNat_toNat (x := word16 a b)).symm.trans (by rw [word16_toNat])

/-- A 32-bit field loads as the number its bytes stand for. -/
theorem be32_append {bs : List UInt8} (h : bs.length = 4) (tail : List UInt8) :
    be32 (bs ++ tail) = UInt32.ofNat (ofBytes bs) := by
  match bs, h with
  | [a, b, c, d], _ =>
    exact (UInt32.ofNat_toNat (x := word32 a b c d)).symm.trans (by rw [word32_toNat])

/-- A 64-bit field loads as the number its bytes stand for. -/
theorem be64_append {bs : List UInt8} (h : bs.length = 8) (tail : List UInt8) :
    be64 (bs ++ tail) = UInt64.ofNat (ofBytes bs) := by
  match bs, h with
  | [a, b, c, d, e, f, g, i], _ =>
    exact (UInt64.ofNat_toNat (x := word64 a b c d e f g i)).symm.trans (by rw [word64_toNat])

theorem copyChars_append {n : ℕ} {bs : List UInt8} (h : bs.length = n) (tail : List UInt8) :
    copyChars n (bs ++ tail) = ⟨bs.toArray, h⟩ := by
  apply Vector.ext
  intro i hi
  have hb : i < bs.length := h ▸ hi
  simp [copyChars, List.getElem?_append_left hb, hb]

/-! ## One body -/

section
variable {b b' : List UInt8} {n : ℕ}

/-- Two memories hold the same `n` bytes. -/
def SameBytes (b b' : List UInt8) (n : ℕ) : Prop := ∀ i < n, b.getD i 0 = b'.getD i 0

theorem SameBytes.be16 (h : SameBytes b b' n) {k : ℕ} (hk : k + 2 ≤ n) :
    be16 (b.drop k) = be16 (b'.drop k) := by
  simp only [ItchOrderbook.be16, getD_drop]
  rw [h (k + 0) (by omega), h (k + 1) (by omega)]

theorem SameBytes.be32 (h : SameBytes b b' n) {k : ℕ} (hk : k + 4 ≤ n) :
    be32 (b.drop k) = be32 (b'.drop k) := by
  simp only [ItchOrderbook.be32, getD_drop]
  rw [h (k + 0) (by omega), h (k + 1) (by omega), h (k + 2) (by omega), h (k + 3) (by omega)]

theorem SameBytes.be64 (h : SameBytes b b' n) {k : ℕ} (hk : k + 8 ≤ n) :
    be64 (b.drop k) = be64 (b'.drop k) := by
  simp only [ItchOrderbook.be64, getD_drop]
  rw [h (k + 0) (by omega), h (k + 1) (by omega), h (k + 2) (by omega), h (k + 3) (by omega),
    h (k + 4) (by omega), h (k + 5) (by omega), h (k + 6) (by omega), h (k + 7) (by omega)]

theorem SameBytes.copyChars (h : SameBytes b b' n) {k w : ℕ} (hk : k + w ≤ n) :
    copyChars w (b.drop k) = copyChars w (b'.drop k) := by
  apply Vector.ext
  intro i hi
  simp only [ItchOrderbook.copyChars, Vector.getElem_ofFn, getD_drop]
  exact h (k + i) (by omega)

theorem msgBodyLen_ge_header {t : MsgType} (h : msgBodyLen t ≠ 0) : 13 ≤ msgBodyLen t := by
  cases t with
  | unknown => exact absurd rfl h
  | _ => decide

/-- The switch reads inside the body length of the type. -/
theorem decodeFields_congr {m : DecodedMessage} (h : SameBytes b b' n)
    (hn : msgBodyLen m.type = n) : decodeFields b m = decodeFields b' m := by
  have read64 (k : ℕ) (hk : k + 8 ≤ msgBodyLen m.type) := h.be64 (hn ▸ hk)
  have read32 (k : ℕ) (hk : k + 4 ≤ msgBodyLen m.type) := h.be32 (hn ▸ hk)
  have readChars (k w : ℕ) (hk : k + w ≤ msgBodyLen m.type) := h.copyChars (hn ▸ hk)
  have readChar (k : ℕ) (hk : k < msgBodyLen m.type) := h k (hn ▸ hk)
  unfold decodeFields
  -- in each case the type fixes the length, so every offset is seen to be inside
  cases ht : m.type <;> rw [ht] at read64 read32 readChars readChar
  case systemEvent => rw [readChar Off.sysEvent (by decide)]
  case orderDelete => rw [read64 Off.deleteRef (by decide)]
  case orderCancel =>
    rw [read64 Off.cancelRef (by decide), read32 Off.cancelShares (by decide)]
  case orderExecuted =>
    rw [read64 Off.execRef (by decide), read32 Off.execShares (by decide),
      read64 Off.execMatch (by decide)]
  case orderExecutedPrice =>
    rw [read64 Off.execpRef (by decide), read32 Off.execpShares (by decide),
      read64 Off.execpMatch (by decide), readChar Off.execpPrintable (by decide),
      read32 Off.execpPrice (by decide)]
  case orderReplace =>
    rw [read64 Off.replOrigRef (by decide), read64 Off.replNewRef (by decide),
      read32 Off.replShares (by decide), read32 Off.replPrice (by decide)]
  case trade =>
    rw [read64 Off.tradeRef (by decide), readChar Off.tradeSide (by decide),
      read32 Off.tradeShares (by decide), readChars Off.tradeStock 8 (by decide),
      read32 Off.tradePrice (by decide), read64 Off.tradeMatch (by decide)]
  case addOrder =>
    dsimp only
    rw [read64 Off.addRef (by decide), readChar Off.addSide (by decide),
      read32 Off.addShares (by decide), readChars Off.addStock 8 (by decide),
      read32 Off.addPrice (by decide), if_neg (by decide), if_neg (by decide)]
  case addOrderMPID =>
    dsimp only
    rw [read64 Off.addRef (by decide), readChar Off.addSide (by decide),
      read32 Off.addShares (by decide), readChars Off.addStock 8 (by decide),
      read32 Off.addPrice (by decide), readChars Off.addMpid 4 (by decide)]

/-- A body is decoded from its own bytes. -/
theorem decodeBody_congr (h : SameBytes b b' n) : decodeBody b n = decodeBody b' n := by
  unfold decodeBody
  split
  · rfl
  rename_i hn
  rw [h Hdr.type (Nat.pos_of_ne_zero hn)]
  dsimp only
  split
  · rfl
  rename_i hlen
  rw [not_or, not_not] at hlen
  -- every type is at least as long as the header, so the common fields agree
  have hhdr : 13 ≤ n := by
    rw [hlen.2]
    exact msgBodyLen_ge_header hlen.1
  rw [h.be16 (show Hdr.stockLoc + 2 ≤ n from le_trans (by decide) hhdr),
    h.be64 (show Hdr.timestamp + 8 ≤ n from le_trans (by decide) hhdr)]
  exact decodeFields_congr h hlen.2.symm

/-- What follows a body in memory plays no role. -/
theorem decodeBody_append (body tail : List UInt8) :
    decodeBody (body ++ tail) body.length = decodeBody body body.length := by
  apply decodeBody_congr
  intro i hi
  rw [List.getD_append _ _ _ _ hi]

end

/-! ## A stream -/

/-- The bodies of a stream that reach the handler: the complete ones in front of the first empty
one. -/
def streamBodies (data : List UInt8) : List (List UInt8) := (split data).takeWhile (· ≠ [])

/-- A body as the handler sees it. -/
def decoded (body : List UInt8) : DecodedMessage := decodeBody body body.length

/-- Statistics after one more body. -/
def ParseStats.add (st : ParseStats) (body : List UInt8) : ParseStats :=
  { messages := st.messages + 1
    bytes := st.bytes + UInt64.ofNat (2 + body.length)
    unknown := if (decoded body).type = .unknown then st.unknown + 1 else st.unknown }

/-- Nothing reaches the handler from behind a cut or an empty body. -/
theorem streamBodies_nil {data : List UInt8} (h : announced data = 0 ∨ Incomplete data) :
    streamBodies data = [] := by
  rcases h with hzero | hshort
  · rw [streamBodies, split]
    split
    · rfl
    · rw [hzero, List.take_zero]
      rfl
  · rw [streamBodies, hshort.split_eq]
    rfl

/-- The body in front. -/
theorem front_length {data : List UInt8} (hfull : ¬Incomplete data) :
    ((data.drop 2).take (announced data)).length = announced data := by
  rw [Incomplete] at hfull
  rw [List.length_take, List.length_drop]
  omega

/-- A complete frame in front. -/
theorem frame_front {data : List UInt8} (hfull : ¬Incomplete data) :
    frame ((data.drop 2).take (announced data)) ++ data.drop (2 + announced data) = data := by
  have hprefix : toBytes 2 (announced data) = data.take 2 := by
    have htake : (data.take 2).length = 2 := by
      rw [Incomplete] at hfull
      rw [List.length_take]
      omega
    have hback := toBytes_ofBytes (data.take 2)
    rwa [htake] at hback
  rw [frame, front_length hfull, hprefix, List.append_assoc, ← List.drop_drop,
    List.take_append_drop, List.take_append_drop]

theorem streamBodies_cons {data : List UInt8} (hfull : ¬Incomplete data)
    (hpos : 0 < announced data) :
    streamBodies data = (data.drop 2).take (announced data) ::
      streamBodies (data.drop (2 + announced data)) := by
  have hsplit : split data = (data.drop 2).take (announced data) ::
      split (data.drop (2 + announced data)) := by
    rw [split]
    exact if_neg hfull
  rw [streamBodies, hsplit]
  apply List.takeWhile_cons_of_pos
  rw [decide_eq_true_iff, ← List.length_pos_iff, front_length hfull]
  exact hpos

/-- What is behind the body in front does not matter to it. -/
theorem decodeBody_front {data : List UInt8} (hfull : ¬Incomplete data) :
    decodeBody (data.drop 2) (announced data) =
      decoded ((data.drop 2).take (announced data)) := by
  have h := decodeBody_append ((data.drop 2).take (announced data))
    ((data.drop 2).drop (announced data))
  rw [List.take_append_drop, front_length hfull] at h
  rw [decoded, front_length hfull, h]

variable {σ : Type*}

/-- The loop folds the handler over the bodies. -/
theorem parseStreamFrom_eq (handler : σ → DecodedMessage → σ) (data : List UInt8) (st : ParseStats)
    (s : σ) :
    parseStreamFrom handler data st s =
      ((streamBodies data).foldl ParseStats.add st,
        ((streamBodies data).map decoded).foldl handler s) := by
  -- along the recursion of `split`, which peels the same frames
  induction data using split.induct generalizing st s with
  | case1 data hshort =>
    rw [parseStreamFrom, streamBodies_nil (.inr hshort)]
    split
    · rename_i h2
      rw [be16_toNat h2]
      exact dif_pos (Or.inr hshort)
    · rfl
  | case2 data hfull ih =>
    have h2 : 2 ≤ data.length := by omega
    rw [parseStreamFrom, if_pos h2, be16_toNat h2]
    rcases Nat.eq_zero_or_pos (announced data) with hzero | hpos
    · -- an empty body stops the walk
      rw [streamBodies_nil (.inl hzero)]
      exact dif_pos (Or.inl hzero)
    · rw [dif_neg (by omega), ih, streamBodies_cons hfull hpos, decodeBody_front hfull]
      simp only [List.foldl_cons, List.map_cons, ParseStats.add, front_length hfull]
      congr 2
      split <;> rfl

/-- `parse_stream` in closed form. -/
theorem parseStream_eq (handler : σ → DecodedMessage → σ) (data : List UInt8) (s : σ) :
    parseStream handler data s =
      ((streamBodies data).foldl ParseStats.add {},
        ((streamBodies data).map decoded).foldl handler s) :=
  parseStreamFrom_eq handler data {} s

/-- A stream of complete frames, none of them empty, is read to its end. -/
theorem streamBodies_flatMap {bodies : List (List UInt8)} (hne : ∀ b ∈ bodies, b ≠ [])
    (hshort : ∀ b ∈ bodies, b.length < 65536) : streamBodies (bodies.flatMap frame) = bodies := by
  rw [streamBodies, split_flatMap hshort]
  apply List.takeWhile_eq_self_iff.mpr
  intro b hb
  exact decide_eq_true (hne b hb)

/-- A handler that keeps what it is handed has it in order. -/
theorem foldl_snoc {α : Type*} (xs acc : List α) :
    xs.foldl (fun acc x => acc ++ [x]) acc = acc ++ xs := by
  induction xs generalizing acc with
  | nil => simp
  | cons x xs ih => rw [List.foldl_cons, ih, List.append_assoc, List.singleton_append]

theorem parsedMessages_eq (data : List UInt8) :
    parsedMessages data = (streamBodies data).map decoded := by
  rw [parsedMessages, parseStream_eq]
  exact foldl_snoc _ []

/-- The statistics of a walk count its bodies. -/
theorem foldl_add (bodies : List (List UInt8)) (st : ParseStats) :
    bodies.foldl ParseStats.add st =
      { messages := st.messages + UInt64.ofNat bodies.length
        bytes := st.bytes + UInt64.ofNat (bodies.flatMap frame).length
        unknown :=
          st.unknown + UInt64.ofNat (bodies.countP fun b => (decoded b).type = .unknown) } := by
  induction bodies generalizing st with
  | nil => cases st; simp
  | cons body bodies ih =>
    rw [List.foldl_cons, ih, ParseStats.add]
    simp only [List.length_cons, List.flatMap_cons, List.length_append, frame_length,
      List.countP_cons, UInt64.ofNat_add, ParseStats.mk.injEq]
    refine ⟨by grind, by grind, ?_⟩
    cases h : decide ((decoded body).type = .unknown) with
    | true =>
      rw [if_pos (of_decide_eq_true h), if_pos rfl]
      grind
    | false =>
      rw [if_neg (of_decide_eq_false h), if_neg Bool.false_ne_true]
      grind

end ItchOrderbook
