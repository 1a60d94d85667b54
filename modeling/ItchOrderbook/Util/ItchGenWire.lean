import ItchOrderbook.Book.EngineSpec
import ItchOrderbook.Gui.WireRoundTrip
import ItchOrderbook.Parser.ItchParserSpec
import ItchOrderbook.Util.ItchGen

/-!
# What the generator writes

The fields of a message are stored one behind the other, so a body is its header and its `payload`
(`beginMsg_eq` and the stores behind it), and the parser reads the fields back.
-/

namespace ItchOrderbook

open BigEndian

/-! ## Stores in order -/

/-- A store right behind what is written takes the next of the zeroes. -/
theorem storeAt_next {off : ℕ} {pre bs : List UInt8} {n : ℕ} (hoff : pre.length = off) :
    storeAt off bs (pre ++ List.replicate (bs.length + n) 0) = pre ++ bs ++ List.replicate n 0 := by
  have htail : (pre ++ List.replicate (bs.length + n) 0).drop (off + bs.length) =
      List.replicate n (0 : UInt8) := by
    rw [List.drop_append, hoff, List.drop_of_length_le (by omega), List.nil_append,
      List.drop_replicate]
    congr 1
    omega
  rw [storeAt, List.take_left' hoff, htail]

section

variable {off : ℕ} {pre : List UInt8} (n : ℕ) (hoff : pre.length = off)

include hoff

theorem storeByte_next (b : UInt8) :
    storeAt off [b] (pre ++ List.replicate (1 + n) 0) = pre ++ [b] ++ List.replicate n 0 :=
  storeAt_next hoff

theorem storeBe16_next (v : UInt16) : storeBe16 off v (pre ++ List.replicate (2 + n) 0) =
    pre ++ toBytes 2 v.toNat ++ List.replicate n 0 := by
  have h := @storeAt_next off pre (toBytes 2 v.toNat) n hoff
  rwa [toBytes_length] at h

theorem storeBe32_next (v : UInt32) : storeBe32 off v (pre ++ List.replicate (4 + n) 0) =
    pre ++ toBytes 4 v.toNat ++ List.replicate n 0 := by
  have h := @storeAt_next off pre (toBytes 4 v.toNat) n hoff
  rwa [toBytes_length] at h

theorem storeBe48_next (v : UInt64) : storeBe48 off v (pre ++ List.replicate (6 + n) 0) =
    pre ++ toBytes 6 v.toNat ++ List.replicate n 0 := by
  have h := @storeAt_next off pre (toBytes 6 v.toNat) n hoff
  rwa [toBytes_length] at h

theorem storeBe64_next (v : UInt64) : storeBe64 off v (pre ++ List.replicate (8 + n) 0) =
    pre ++ toBytes 8 v.toNat ++ List.replicate n 0 := by
  have h := @storeAt_next off pre (toBytes 8 v.toNat) n hoff
  rwa [toBytes_length] at h

end

/-- The bytes of a header. -/
def genHeader (type : UInt8) (locate track : UInt16) (ts : UInt64) : List UInt8 :=
  [type] ++ toBytes 2 locate.toNat ++ toBytes 2 track.toNat ++ [0, 0] ++ toBytes 6 ts.toNat

@[simp] theorem genHeader_length (type : UInt8) (locate track : UInt16) (ts : UInt64) :
    (genHeader type locate track ts).length = 13 := by
  simp [genHeader]

/-- A message with room for `n` bytes behind its header. -/
theorem beginMsg_eq (g : ItchGenerator) (n : ℕ) (type : UInt8) (locate : UInt16) :
    g.beginMsg (1 + (2 + (2 + (2 + (6 + n))))) type locate =
      (genHeader type locate g.track g.ts ++ List.replicate n 0,
        { g with track := g.track + 1 }) := by
  have htype : storeAt Hdr.type [type] (List.replicate (1 + (2 + (2 + (2 + (6 + n))))) 0) =
      [type] ++ List.replicate (2 + (2 + (2 + (6 + n)))) 0 := @storeByte_next 0 [] _ rfl type
  unfold ItchGenerator.beginMsg
  dsimp only
  rw [htype, storeBe16_next, storeBe16_next, List.replicate_add 2 (6 + n), ← List.append_assoc,
    storeBe48_next]
  · rfl
  · simp [Hdr.timestamp]
  · simp [Hdr.trackNum]
  · rfl

/-! ## The fields -/

/-- The bytes of a stock. -/
def stockBytes (sym : ℕ) : List UInt8 :=
  ['S'.toUInt8, 'Y'.toUInt8, 'M'.toUInt8, symChar sym,
    ' '.toUInt8, ' '.toUInt8, ' '.toUInt8, ' '.toUInt8]

theorem writeStock_next {off : ℕ} {pre : List UInt8} (n : ℕ) (hoff : pre.length = off) (sym : ℕ) :
    writeStock off sym (pre ++ List.replicate (8 + n) 0) =
      pre ++ stockBytes sym ++ List.replicate n 0 :=
  storeAt_next hoff

theorem storeMpid_next {off : ℕ} {pre : List UInt8} (n : ℕ) (hoff : pre.length = off) (sym : ℕ) :
    storeAt off ['M'.toUInt8, 'M'.toUInt8, '0'.toUInt8, symChar sym]
        (pre ++ List.replicate (4 + n) 0) =
      pre ++ ['M'.toUInt8, 'M'.toUInt8, '0'.toUInt8, symChar sym] ++ List.replicate n 0 :=
  storeAt_next hoff

/-! ## The parser on such a body -/

section

variable {type : UInt8} {locate track : UInt16} {ts : UInt64} {payload : List UInt8}

theorem decoded_gen (hlen : 13 + payload.length = msgBodyLen (MsgType.ofByte type)) :
    decoded (genHeader type locate track ts ++ payload) =
      decodeFields (genHeader type locate track ts ++ payload)
        { type := MsgType.ofByte type
          stockLocate := locate
          stockIdx := locate
          timestamp := be64 ((genHeader type locate track ts ++ payload).drop Hdr.timestamp) } := by
  have hloc : be16 ((genHeader type locate track ts ++ payload).drop Hdr.stockLoc) = locate := by
    have hdrop : (genHeader type locate track ts ++ payload).drop Hdr.stockLoc =
        toBytes 2 locate.toNat ++
          (toBytes 2 track.toNat ++ ([0, 0] ++ (toBytes 6 ts.toNat ++ payload))) := by
      simp [genHeader, Hdr.stockLoc]
    rw [hdrop, ItchWriter.be16_toBytes]
  have htype : (genHeader type locate track ts ++ payload).getD Hdr.type 0 = type := rfl
  have hlength : (genHeader type locate track ts ++ payload).length =
      msgBodyLen (MsgType.ofByte type) := by
    rw [List.length_append, genHeader_length, hlen]
  have hne : msgBodyLen (MsgType.ofByte type) ≠ 0 := by omega
  rw [decoded, decodeBody, if_neg (by rw [hlength]; exact hne), htype, hloc, hlength]
  exact if_neg (by simp [hne])

/-- What an offset behind the header points at. -/
theorem drop_gen {pre field : List UInt8} {k : ℕ} (hp : pre ++ field <+: payload)
    (hk : 13 + pre.length = k) :
    ∃ tail, (genHeader type locate track ts ++ payload).drop k = field ++ tail := by
  obtain ⟨tail, rfl⟩ := hp
  refine ⟨tail, ?_⟩
  rw [List.append_assoc pre, ← List.append_assoc]
  exact List.drop_left' (by simp [hk])

theorem be32_gen {pre : List UInt8} {k : ℕ} {v : UInt32} (hp : pre ++ toBytes 4 v.toNat <+: payload)
    (hk : 13 + pre.length = k) : be32 ((genHeader type locate track ts ++ payload).drop k) = v := by
  obtain ⟨tail, htail⟩ := @drop_gen type locate track ts payload pre _ k hp hk
  rw [htail, ItchWriter.be32_toBytes]

theorem be64_gen {pre : List UInt8} {k : ℕ} {v : UInt64} (hp : pre ++ toBytes 8 v.toNat <+: payload)
    (hk : 13 + pre.length = k) : be64 ((genHeader type locate track ts ++ payload).drop k) = v := by
  obtain ⟨tail, htail⟩ := @drop_gen type locate track ts payload pre _ k hp hk
  rw [htail, ItchWriter.be64_toBytes]

theorem char_gen {pre : List UInt8} {k : ℕ} {c : UInt8} (hp : pre ++ [c] <+: payload)
    (hk : 13 + pre.length = k) : (genHeader type locate track ts ++ payload).getD k 0 = c := by
  obtain ⟨tail, htail⟩ := @drop_gen type locate track ts payload pre _ k hp hk
  rw [← Nat.add_zero k, ← getD_drop, htail]
  rfl

end

/-- The bytes of an `A` or `F` message behind its header. -/
def addPayload (mpid : Bool) (ref : UInt64) (sym : ℕ) (side : UInt8) (price shares : UInt32) :
    List UInt8 :=
  toBytes 8 ref.toNat ++ ([side] ++ (toBytes 4 shares.toNat ++ (stockBytes sym ++
    (toBytes 4 price.toNat ++
      if mpid then ['M'.toUInt8, 'M'.toUInt8, '0'.toUInt8, symChar sym] else []))))

/-- The type byte of an `A` or `F` message. -/
def addType (mpid : Bool) : UInt8 := if mpid then 'F'.toUInt8 else 'A'.toUInt8

theorem decoded_add (mpid : Bool) (locate track : UInt16) (ts ref : UInt64) (sym : ℕ) (side : UInt8)
    (price shares : UInt32) :
    let m := decoded (genHeader (addType mpid) locate track ts
      ++ addPayload mpid ref sym side price shares)
    m.type.IsAdd ∧ m.orderRef = ref ∧ m.stockLocate = locate ∧ m.side = side ∧ m.price = price
      ∧ m.shares = shares := by
  intro m
  have hlen : 13 + (addPayload mpid ref sym side price shares).length =
      msgBodyLen (MsgType.ofByte (addType mpid)) := by
    cases mpid <;> simp [addPayload, stockBytes] <;> rfl
  have href := @be64_gen (addType mpid) locate track ts (addPayload mpid ref sym side price shares)
    [] 13 ref (by simp [addPayload]) rfl
  have hside := @char_gen (addType mpid) locate track ts (addPayload mpid ref sym side price shares)
    (toBytes 8 ref.toNat) 21 side (by simp [addPayload]) (by simp)
  have hshares := @be32_gen (addType mpid) locate track ts
    (addPayload mpid ref sym side price shares) (toBytes 8 ref.toNat ++ [side]) 22 shares
    (by simp [addPayload]) (by simp)
  have hprice := @be32_gen (addType mpid) locate track ts
    (addPayload mpid ref sym side price shares)
    (toBytes 8 ref.toNat ++ [side] ++ toBytes 4 shares.toNat ++ stockBytes sym) 34 price
    (by simp [addPayload]) (by simp [stockBytes])
  have hm : m = _ := decoded_gen hlen
  rw [hm]
  cases mpid with
  | false => exact ⟨.inl rfl, href, rfl, hside, hprice, hshares⟩
  | true => exact ⟨.inr rfl, href, rfl, hside, hprice, hshares⟩

/-- The messages that take shares off an order: `E`, `C` and `X`. -/
theorem decoded_reduce {type : UInt8} (ht : (MsgType.ofByte type).IsReduce)
    (locate track : UInt16) (ts ref : UInt64) (shares : UInt32) (tail : List UInt8)
    (hlen : 25 + tail.length = msgBodyLen (MsgType.ofByte type)) :
    let m := decoded (genHeader type locate track ts ++
      (toBytes 8 ref.toNat ++ (toBytes 4 shares.toNat ++ tail)))
    m.type.IsReduce ∧ m.orderRef = ref ∧ m.shares = shares := by
  intro m
  have href := @be64_gen type locate track ts
    (toBytes 8 ref.toNat ++ (toBytes 4 shares.toNat ++ tail)) [] 13 ref (by simp) rfl
  have hshares := @be32_gen type locate track ts
    (toBytes 8 ref.toNat ++ (toBytes 4 shares.toNat ++ tail)) (toBytes 8 ref.toNat) 21 shares
    (by simp) (by simp)
  have hm : m = _ := decoded_gen (by simp; omega)
  rw [hm]
  rcases ht with (ht | ht) | ht
  · rw [ht]
    exact ⟨.inl (.inl rfl), href, hshares⟩
  · rw [ht]
    exact ⟨.inl (.inr rfl), href, hshares⟩
  · rw [ht]
    exact ⟨.inr rfl, href, hshares⟩

theorem decoded_delete (locate track : UInt16) (ts ref : UInt64) :
    let m := decoded (genHeader 'D'.toUInt8 locate track ts ++ toBytes 8 ref.toNat)
    m.type = .orderDelete ∧ m.orderRef = ref := by
  intro m
  have href := @be64_gen 'D'.toUInt8 locate track ts (toBytes 8 ref.toNat) [] 13 ref (by simp) rfl
  have hm : m = _ := decoded_gen (by simp; rfl)
  rw [hm]
  exact ⟨rfl, href⟩

theorem decoded_replace (locate track : UInt16) (ts ref newRef : UInt64) (shares price : UInt32) :
    let m := decoded (genHeader 'U'.toUInt8 locate track ts ++ (toBytes 8 ref.toNat ++
      (toBytes 8 newRef.toNat ++ (toBytes 4 shares.toNat ++ toBytes 4 price.toNat))))
    m.type = .orderReplace ∧ m.orderRef = ref ∧ m.newOrderRef = newRef ∧ m.price = price
      ∧ m.shares = shares := by
  intro m
  set payload := toBytes 8 ref.toNat ++
    (toBytes 8 newRef.toNat ++ (toBytes 4 shares.toNat ++ toBytes 4 price.toNat)) with hpayload
  have href := @be64_gen 'U'.toUInt8 locate track ts payload [] 13 ref (by simp [hpayload]) rfl
  have hnew := @be64_gen 'U'.toUInt8 locate track ts payload (toBytes 8 ref.toNat) 21 newRef
    (by simp [hpayload]) (by simp)
  have hshares := @be32_gen 'U'.toUInt8 locate track ts payload
    (toBytes 8 ref.toNat ++ toBytes 8 newRef.toNat) 29 shares (by simp [hpayload]) (by simp)
  have hprice := @be32_gen 'U'.toUInt8 locate track ts payload
    (toBytes 8 ref.toNat ++ toBytes 8 newRef.toNat ++ toBytes 4 shares.toNat) 33 price
    (by simp [hpayload]) (by simp)
  have hm : m = _ := decoded_gen (by simp; rfl)
  rw [hm]
  exact ⟨rfl, href, hnew, hprice, hshares⟩

/-- Any other message is known by its type. -/
theorem decoded_type {type : UInt8} (locate track : UInt16) (ts : UInt64) {payload : List UInt8}
    (hlen : 13 + payload.length = msgBodyLen (MsgType.ofByte type))
    (ht : MsgType.ofByte type = .trade ∨ MsgType.ofByte type = .systemEvent) :
    (decoded (genHeader type locate track ts ++ payload)).type = MsgType.ofByte type := by
  rw [decoded_gen hlen]
  rcases ht with ht | ht
  · rw [ht]
    rfl
  · rw [ht]
    rfl

/-! ## Draws -/

namespace ItchGenerator

/-- The generator after some more draws. -/
def skip (g : ItchGenerator) (k : ℕ) : ItchGenerator := { g with drawn := g.drawn + k }

section

variable (g : ItchGenerator)

@[simp] theorem cfg_skip (k : ℕ) : (g.skip k).cfg = g.cfg := rfl
@[simp] theorem rng_skip (k : ℕ) : (g.skip k).rng = g.rng := rfl
@[simp] theorem drawn_skip (k : ℕ) : (g.skip k).drawn = g.drawn + k := rfl
@[simp] theorem out_skip (k : ℕ) : (g.skip k).out = g.out := rfl
@[simp] theorem live_skip (k : ℕ) : (g.skip k).live = g.live := rfl
@[simp] theorem nextRef_skip (k : ℕ) : (g.skip k).nextRef = g.nextRef := rfl
@[simp] theorem matchNumber_skip (k : ℕ) : (g.skip k).matchNumber = g.matchNumber := rfl
@[simp] theorem ts_skip (k : ℕ) : (g.skip k).ts = g.ts := rfl
@[simp] theorem track_skip (k : ℕ) : (g.skip k).track = g.track := rfl

@[simp] theorem skip_skip (j k : ℕ) : (g.skip j).skip k = g.skip (j + k) := by
  simp [skip, Nat.add_assoc]

@[simp] theorem drawSymbol_snd : g.drawSymbol.2 = g.skip 1 := rfl
@[simp] theorem drawSide_snd : g.drawSide.2 = g.skip 1 := rfl
@[simp] theorem drawUpTo_snd (bound : UInt32) : (g.drawUpTo bound).2 = g.skip 1 := rfl
@[simp] theorem randPrice_snd (sym : ℕ) (side : UInt8) : (g.randPrice sym side).2 = g.skip 2 := rfl

end

end ItchGenerator

/-! ## The emitters -/

namespace ItchGenerator

variable (g : ItchGenerator)

theorem emitSystem_out (code : UInt8) : (g.emitSystem code).out =
    g.out ++ Framing.frame (genHeader 'S'.toUInt8 0 g.track g.ts ++ [code]) := by
  have hlen : Blen.system = 1 + (2 + (2 + (2 + (6 + (1 + 0))))) := rfl
  simp only [emitSystem, hlen, beginMsg_eq]
  rw [storeByte_next]
  · simp [put, count, Framing.frame]
  · simp [Off.sysEvent]

/-- An `A` or `F` message is written. -/
theorem addOrder_out (mpid : Bool) (sym : ℕ) (side : UInt8) (price shares : UInt32) :
    (g.addOrder mpid sym side price shares).out =
      g.out ++ Framing.frame (genHeader (addType mpid) (UInt16.ofNat (sym + 1)) g.track g.ts ++
        addPayload mpid g.nextRef sym side price shares) := by
  cases mpid with
  | false =>
    have hlen : Blen.add = 1 + (2 + (2 + (2 + (6 + (8 + (1 + (4 + (8 + (4 + 0))))))))) := rfl
    simp only [addOrder, takeRef, hlen, beginMsg_eq, Bool.false_eq_true, if_false]
    rw [storeBe64_next, storeByte_next, storeBe32_next, writeStock_next, storeBe32_next]
    · simp [put, count, withLive, Framing.frame, addPayload, addType]
    all_goals simp [Off.addRef, Off.addSide, Off.addShares, Off.addStock, Off.addPrice, stockBytes]
  | true =>
    have hlen : Blen.addMpid =
        1 + (2 + (2 + (2 + (6 + (8 + (1 + (4 + (8 + (4 + (4 + 0)))))))))) := rfl
    simp only [addOrder, takeRef, hlen, beginMsg_eq, if_true]
    rw [storeBe64_next, storeByte_next, storeBe32_next, writeStock_next, storeBe32_next,
      storeMpid_next]
    · simp [put, count, withLive, Framing.frame, addPayload, addType]
    all_goals simp [Off.addRef, Off.addSide, Off.addShares, Off.addStock, Off.addPrice,
      Off.addMpid, stockBytes]

theorem execAt_out {i : ℕ} {o : LiveOrder} (h : g.live[i]? = some o) (withPrice : Bool) :
    ∃ tail, 25 + tail.length = (if withPrice then Blen.execPrice else Blen.exec) ∧
      (g.execAt i withPrice).out = g.out ++ Framing.frame
        (genHeader (if withPrice then 'C'.toUInt8 else 'E'.toUInt8) o.stockLocate g.track g.ts ++
          (toBytes 8 o.ref.toNat ++ (toBytes 4 (g.drawUpTo o.shares).1.toNat ++ tail))) := by
  simp only [execAt, h]
  cases withPrice with
  | false =>
    refine ⟨toBytes 8 g.matchNumber.toNat, by simp [Blen.exec], ?_⟩
    have hlen : Blen.exec = 1 + (2 + (2 + (2 + (6 + (8 + (4 + (8 + 0))))))) := rfl
    simp only [hlen, beginMsg_eq, Bool.false_eq_true, if_false, nextMatch]
    rw [storeBe64_next, storeBe32_next, storeBe64_next]
    · simp [put, count, withLive, Framing.frame]
    all_goals simp [Off.execRef, Off.execShares, Off.execMatch]
  | true =>
    refine ⟨toBytes 8 g.matchNumber.toNat ++ (['Y'.toUInt8] ++ toBytes 4 o.price.toNat),
      by simp [Blen.execPrice], ?_⟩
    have hlen : Blen.execPrice =
        1 + (2 + (2 + (2 + (6 + (8 + (4 + (8 + (1 + (4 + 0))))))))) := rfl
    simp only [hlen, beginMsg_eq, if_true, nextMatch]
    rw [storeBe64_next, storeBe32_next, storeBe64_next, storeByte_next, storeBe32_next]
    · simp [put, count, withLive, Framing.frame]
    all_goals simp [Off.execpRef, Off.execpShares, Off.execpMatch, Off.execpPrintable,
      Off.execpPrice]

section

variable {i : ℤ} {g' : ItchGenerator} {o : LiveOrder}

theorem emitCancel_out (hp : g.pickLive = (i, g')) (hi : ¬i < 0)
    (h : g'.live[i.toNat]? = some o) : g.emitCancel.out = g'.out ++ Framing.frame
      (genHeader 'X'.toUInt8 o.stockLocate g'.track g'.ts ++
        (toBytes 8 o.ref.toNat ++ (toBytes 4 (g'.drawUpTo o.shares).1.toNat ++ []))) := by
  have hlen : Blen.cancel = 1 + (2 + (2 + (2 + (6 + (8 + (4 + 0)))))) := rfl
  simp only [emitCancel, hp, if_neg hi, h, hlen, beginMsg_eq]
  rw [storeBe64_next, storeBe32_next]
  · simp [put, count, withLive, Framing.frame]
  all_goals simp [Off.cancelRef, Off.cancelShares]

theorem emitDelete_out (hp : g.pickLive = (i, g')) (hi : ¬i < 0)
    (h : g'.live[i.toNat]? = some o) : g.emitDelete.out = g'.out ++ Framing.frame
      (genHeader 'D'.toUInt8 o.stockLocate g'.track g'.ts ++ toBytes 8 o.ref.toNat) := by
  have hlen : Blen.delete = 1 + (2 + (2 + (2 + (6 + (8 + 0))))) := rfl
  simp only [emitDelete, hp, if_neg hi, h, hlen, beginMsg_eq]
  rw [storeBe64_next]
  · simp [put, count, withLive, Framing.frame]
  · simp [Off.deleteRef]

theorem emitReplace_out (hp : g.pickLive = (i, g')) (hi : ¬i < 0)
    (h : g'.live[i.toNat]? = some o) :
    let quoted := g'.takeRef.2.randPrice (o.stockLocate.toNat - 1) o.side
    let sized := quoted.2.drawUpTo quoted.2.cfg.maxShares
    g.emitReplace.out = g'.out ++ Framing.frame
      (genHeader 'U'.toUInt8 o.stockLocate g'.track g'.ts ++
        (toBytes 8 o.ref.toNat ++ (toBytes 8 g'.nextRef.toNat ++
          (toBytes 4 sized.1.toNat ++ toBytes 4 quoted.1.toNat)))) := by
  intro quoted sized
  have hlen : Blen.replace = 1 + (2 + (2 + (2 + (6 + (8 + (8 + (4 + (4 + 0)))))))) := rfl
  simp only [emitReplace, hp, if_neg hi, h, hlen, beginMsg_eq, takeRef]
  rw [storeBe64_next, storeBe64_next, storeBe32_next, storeBe32_next]
  · simp [put, count, withLive, Framing.frame, quoted, sized, takeRef]
  all_goals simp [Off.replOrigRef, Off.replNewRef, Off.replShares, Off.replPrice]

end

/-- Nothing of a `P` message matters but its type. -/
theorem emitTrade_out : ∃ locate payload, 13 + payload.length = Blen.trade ∧
    g.emitTrade.out = g.out ++ Framing.frame
      (genHeader 'P'.toUInt8 locate g.track g.ts ++ payload) := by
  have hlen : Blen.trade =
      1 + (2 + (2 + (2 + (6 + (8 + (1 + (4 + (8 + (4 + (8 + 0)))))))))) := rfl
  let sym := g.drawSymbol.1
  let side := (g.skip 1).drawSide.1
  let price := ((g.skip 2).randPrice sym side).1
  let shares := ((g.skip 4).drawUpTo g.cfg.maxShares).1
  refine ⟨UInt16.ofNat (sym + 1), toBytes 8 0 ++ ([side] ++ (toBytes 4 shares.toNat ++
    (stockBytes sym ++ (toBytes 4 price.toNat ++ toBytes 8 g.matchNumber.toNat)))),
    by simp [stockBytes, Blen.trade], ?_⟩
  simp only [emitTrade, hlen, beginMsg_eq, nextMatch]
  rw [storeBe64_next, storeByte_next, storeBe32_next, writeStock_next, storeBe32_next,
    storeBe64_next]
  · simp [put, count, Framing.frame, sym, side, price, shares]
  all_goals simp [Off.tradeRef, Off.tradeSide, Off.tradeShares, Off.tradeStock, Off.tradePrice,
    Off.tradeMatch, stockBytes]

end ItchGenerator

end ItchOrderbook
