import ItchOrderbook.Book.ThinnedReplay
import ItchOrderbook.Replay.MainReplaySpec
import ItchOrderbook.Rtl.BookUpdateEngine
import ItchOrderbook.Rtl.DecoderAgreement
import ItchOrderbook.Tools.BandFilter

/-!
# What the band filter leaves of a replay

On a stream of bodies the parser knows, the loop of the tool is the filter `thin` of the replay,
byte for byte (`main_eq`, `decoded_left`). So its output has no price outside the window, and the
engine applies it as `thinned` says: the messages of the orders that were dropped, or that left the
window by a Replace, are missing their reference, and nothing else is rejected.
-/

namespace ItchOrderbook.BandFilter

open BigEndian BookEngine
open Framing (announced Incomplete)

/-! ## Bodies the parser knows -/

section Body

variable {b : List UInt8}

theorem messages_eq (data : List UInt8) : messages data = streamBodies data := by
  induction data using Framing.split.induct with
  | case1 data hshort =>
    rw [messages, streamBodies_nil (.inr hshort)]
    split
    · exact dif_pos (Or.inr hshort)
    · rfl
  | case2 data hfull ih =>
    have h2 : 2 ≤ data.length := by omega
    rw [messages, if_pos h2]
    rcases Nat.eq_zero_or_pos (announced data) with hzero | hpos
    · rw [streamBodies_nil (.inl hzero)]
      exact dif_pos (Or.inl hzero)
    · rw [streamBodies_cons hfull hpos, ← ih]
      exact dif_neg (not_or.mpr ⟨hpos.ne', hfull⟩)

/-- What the parser makes of a body it knows. -/
theorem decoded_known (h : (decoded b).type ≠ .unknown) :
    b.length = msgBodyLen (decoded b).type ∧ (decoded b).type = MsgType.ofByte (b.getD 0 0) ∧
      decoded b = decodeFields b
        { type := MsgType.ofByte (b.getD 0 0)
          stockLocate := be16 (b.drop 1)
          stockIdx := be16 (b.drop 1)
          timestamp := be64 (b.drop 5) } := by
  have hne : b.length ≠ 0 := fun h0 => by
    rw [decoded, h0, decodeBody, if_pos rfl] at h
    exact h rfl
  rw [decoded, decodeBody, if_neg hne] at h ⊢
  dsimp only at h ⊢
  split at h
  · exact absurd rfl h
  · rename_i hok
    rw [not_or, not_not] at hok
    rw [if_neg (not_or.mpr ⟨hok.1, not_not.mpr hok.2⟩), Rtl.decodeFields_type]
    exact ⟨hok.2, rfl, rfl⟩

/-- A body the parser knows fits a frame. -/
theorem frame_known (h : (decoded b).type ≠ .unknown) : frame b = .ok (Framing.frame b) := by
  have hlen := (decoded_known h).1
  have hmax : msgBodyLen (decoded b).type < 65536 := by
    cases (decoded b).type <;> decide
  exact if_pos (hlen ▸ hmax)

/-- The type byte, as the tool reads it. -/
theorem take_one (h : (decoded b).type ≠ .unknown) : b.take 1 = [b.getD 0 0] := by
  cases b with
  | nil => exact absurd rfl h
  | cons x rest => rfl

theorem ofByte_iff (x : UInt8) :
    (MsgType.ofByte x = .addOrder ↔ x = 'A'.toUInt8) ∧
      (MsgType.ofByte x = .addOrderMPID ↔ x = 'F'.toUInt8) ∧
      (MsgType.ofByte x = .orderReplace ↔ x = 'U'.toUInt8) := by
  refine ⟨⟨fun h => ?_, by rintro rfl; decide⟩, ⟨fun h => ?_, by rintro rfl; decide⟩,
    fun h => ?_, by rintro rfl; decide⟩
  all_goals
    unfold MsgType.ofByte at h
    split_ifs at h
    assumption

theorem isAdd_iff (h : (decoded b).type ≠ .unknown) :
    isAdd b = true ↔ (decoded b).type.IsAdd := by
  obtain ⟨-, htype, -⟩ := decoded_known h
  rw [isAdd, take_one h, decide_eq_true_eq, MsgType.IsAdd, htype, (ofByte_iff _).1,
    (ofByte_iff _).2.1]
  simp only [List.cons.injEq, and_true]

theorem isReplace_iff (h : (decoded b).type ≠ .unknown) :
    b.take 1 = ['U'.toUInt8] ↔ (decoded b).type = .orderReplace := by
  obtain ⟨-, htype, -⟩ := decoded_known h
  rw [take_one h, htype, (ofByte_iff _).2.2]
  simp only [List.cons.injEq, and_true]

theorem be32_toNat {p : List UInt8} (h : 4 ≤ p.length) : (be32 p).toNat = ofBytes (p.take 4) := by
  match p, h with
  | a :: b :: c :: d :: tail, _ => exact word32_toNat a b c d

theorem unpackU32_eq {off : ℕ} (h : off + 4 ≤ b.length) :
    unpackU32 b off = .ok (be32 (b.drop off)).toNat := by
  rw [unpackU32, if_pos h, be32_toNat (by rw [List.length_drop]; omega)]

/-- The price of an Add is where the tool looks for it. -/
theorem add_price (h : (decoded b).type.IsAdd) :
    unpackU32 b 34 = .ok (decoded b).price.toNat := by
  have hk : (decoded b).type ≠ .unknown := by rcases h with h | h <;> rw [h] <;> decide
  obtain ⟨hlen, htype, heq⟩ := decoded_known hk
  rcases h with h | h
  · rw [unpackU32_eq (by rw [hlen, h]; decide), heq, ← htype, h]
    rfl
  · rw [unpackU32_eq (by rw [hlen, h]; decide), heq, ← htype, h]
    rfl

/-- And that of a Replace. -/
theorem replace_price (h : (decoded b).type = .orderReplace) :
    unpackU32 b 33 = .ok (decoded b).price.toNat := by
  obtain ⟨hlen, htype, heq⟩ := decoded_known (by rw [h]; decide)
  rw [unpackU32_eq (by rw [hlen, h]; decide), heq, ← htype, h]
  rfl

/-- The body that replaces a Replace is the Delete of its order. -/
theorem decoded_deleteBody (h : (decoded b).type = .orderReplace) :
    decoded (deleteBody b) = (decoded b).toDelete ∧ (deleteBody b).length = 21 := by
  obtain ⟨hlen, htype, heq⟩ := decoded_known (by rw [h]; decide)
  rw [h] at hlen
  match b, hlen with
  | x :: rest, hlen =>
    have hrest : rest.length = 36 := Nat.succ.inj hlen
    -- behind the type the Delete has the first twenty bytes of the Replace
    have hbody : deleteBody (x :: rest) = 'D'.toUInt8 :: rest.take 20 := by
      show 'D'.toUInt8 :: (rest.take 12 ++ (rest.drop 12).take 8) = _
      rw [← List.take_add]
    have hsame : SameBytes (rest.take 20) rest 20 := by
      intro i hi
      rw [List.getD_eq_getElem?_getD, List.getD_eq_getElem?_getD, List.getElem?_take_of_lt hi]
    have hlen' : (deleteBody (x :: rest)).length = 21 := by
      rw [hbody, List.length_cons, List.length_take, hrest]
      rfl
    refine ⟨?_, hlen'⟩
    rw [heq, ← htype, h, decoded, hlen', hbody]
    show DecodedMessage.mk .orderDelete 0 0 0 (be16 (rest.take 20)) (be16 (rest.take 20)) 0 0
      (be64 ((rest.take 20).drop 4)) (be64 ((rest.take 20).drop 12)) 0 0 _ _ = _
    rw [hsame.be64 (k := 4) (by decide), hsame.be64 (k := 12) (by decide)]
    have hloc := hsame.be16 (k := 0) (by decide)
    rw [List.drop_zero, List.drop_zero] at hloc
    rw [hloc]
    rfl

end Body

/-! ## The loop -/

/-- The window `[lo, hi)`. -/
def inWindow (lo hi : ℤ) (price : UInt32) : Bool :=
  decide (lo ≤ price.toNat ∧ (price.toNat : ℤ) < hi)

/-- What is left of a body. -/
def left (inside : UInt32 → Bool) (b : List UInt8) : Option (List UInt8) :=
  if (decoded b).type.IsAdd ∧ ¬inside (decoded b).price then none
  else if (decoded b).type = .orderReplace ∧ ¬inside (decoded b).price then some (deleteBody b)
  else some b

/-- On the messages, this is the filter of the replay. -/
theorem decoded_left (inside : UInt32 → Bool) (b : List UInt8) :
    (left inside b).map decoded = thin inside (decoded b) := by
  unfold left thin
  split
  · rfl
  · split
    · rename_i hout
      rw [Option.map_some, (decoded_deleteBody hout.1).1]
    · rfl

/-- What is left can be carried by a stream. -/
theorem carried_left {inside : UInt32 → Bool} {b b' : List UInt8}
    (h : (decoded b).type ≠ .unknown) (hleft : left inside b = some b') :
    b' ≠ [] ∧ b'.length < 65536 ∧ (decoded b').type ≠ .unknown := by
  have hmax : 0 < msgBodyLen (decoded b).type ∧ msgBodyLen (decoded b).type < 65536 := by
    revert h
    cases (decoded b).type <;> decide
  unfold left at hleft
  split at hleft
  · cases hleft
  split at hleft
  · rename_i hout
    obtain rfl := Option.some.inj hleft
    obtain ⟨hdel, hlen⟩ := decoded_deleteBody hout.1
    refine ⟨fun h0 => ?_, by omega, by rw [hdel]; nofun⟩
    rw [h0] at hlen
    cases hlen
  · obtain rfl := Option.some.inj hleft
    have hlen := (decoded_known h).1
    refine ⟨fun h0 => ?_, hlen ▸ hmax.2, h⟩
    rw [h0] at hlen hmax
    exact absurd hlen.symm hmax.1.ne'

/-- The output is no longer than the input. -/
theorem left_length (inside : UInt32 → Bool) (bodies : List (List UInt8)) :
    ((bodies.filterMap (left inside)).flatMap Framing.frame).length ≤
      (bodies.flatMap Framing.frame).length := by
  induction bodies with
  | nil => exact le_rfl
  | cons b bodies ih =>
    cases hleft : left inside b with
    | none =>
      rw [List.filterMap_cons_none hleft, List.flatMap_cons, List.length_append]
      omega
    | some b' =>
      have hle : b'.length ≤ b.length := by
        unfold left at hleft
        split at hleft
        · cases hleft
        split at hleft
        · rename_i hout
          obtain rfl := Option.some.inj hleft
          have hb := (decoded_known (b := b) (by rw [hout.1]; decide)).1
          rw [hout.1] at hb
          rw [(decoded_deleteBody hout.1).2, hb]
          decide
        · obtain rfl := Option.some.inj hleft
          exact le_rfl
      rw [List.filterMap_cons_some hleft, List.flatMap_cons, List.flatMap_cons,
        List.length_append, List.length_append, Framing.frame_length, Framing.frame_length]
      omega

variable {lo hi : ℤ}

theorem keep_eq (st : Loop) {b : List UInt8} (h : (decoded b).type ≠ .unknown) :
    keep st b = .ok { st with out := st.out ++ Framing.frame b, kept := st.kept + 1 } := by
  rw [keep, frame_known h]
  rfl

section Turn

variable (st : Loop) {b : List UInt8}

theorem step_add (h : (decoded b).type.IsAdd) :
    step lo hi st b = if inWindow lo hi (decoded b).price then keep st b
      else .ok { st with addsDropped := st.addsDropped + 1 } := by
  have hk : (decoded b).type ≠ .unknown := by rcases h with h | h <;> rw [h] <;> decide
  unfold step inWindow
  rw [if_pos ((isAdd_iff hk).mpr h), add_price h]
  by_cases hin : lo ≤ ((decoded b).price.toNat : ℤ) ∧ ((decoded b).price.toNat : ℤ) < hi
  · rw [if_pos (decide_eq_true hin)]
    exact if_pos hin
  · rw [if_neg fun hno => hin (of_decide_eq_true hno)]
    exact if_neg hin

theorem step_replace (h : (decoded b).type = .orderReplace) :
    step lo hi st b = if inWindow lo hi (decoded b).price then keep st b
      else .ok { st with
        out := st.out ++ Framing.frame (deleteBody b)
        replacesRewritten := st.replacesRewritten + 1
        kept := st.kept + 1 } := by
  have hk : (decoded b).type ≠ .unknown := by rw [h]; decide
  have hadd : ¬isAdd b = true := fun hno => by
    have := (isAdd_iff hk).mp hno
    rw [h] at this
    revert this
    decide
  have hdel : (decoded (deleteBody b)).type ≠ .unknown := by
    rw [(decoded_deleteBody h).1]
    nofun
  unfold step inWindow
  rw [if_neg hadd, if_pos ((isReplace_iff hk).mpr h), replace_price h]
  by_cases hin : lo ≤ ((decoded b).price.toNat : ℤ) ∧ ((decoded b).price.toNat : ℤ) < hi
  · rw [if_pos (decide_eq_true hin)]
    exact if_pos hin
  · rw [if_neg fun hno => hin (of_decide_eq_true hno), frame_known hdel]
    exact if_neg hin

theorem step_other (hk : (decoded b).type ≠ .unknown) (hadd : ¬(decoded b).type.IsAdd)
    (hrep : (decoded b).type ≠ .orderReplace) : step lo hi st b = keep st b := by
  unfold step
  rw [if_neg fun hno => hadd ((isAdd_iff hk).mp hno),
    if_neg fun hno => hrep ((isReplace_iff hk).mp hno)]

/-- One turn of the loop. -/
theorem step_out (h : (decoded b).type ≠ .unknown) : ∃ st', step lo hi st b = .ok st' ∧
    st'.out = st.out ++ (left (inWindow lo hi) b).toList.flatMap Framing.frame := by
  have hstay : ∃ st', keep st b = .ok st' ∧
      st'.out = st.out ++ (some b).toList.flatMap Framing.frame :=
    ⟨_, keep_eq st h, by rw [Option.toList_some, List.flatMap_singleton]⟩
  unfold left
  by_cases hadd : (decoded b).type.IsAdd
  · have hrep : (decoded b).type ≠ .orderReplace := (isAdd_only hadd).2.2.1
    rw [step_add st hadd]
    cases hin : inWindow lo hi (decoded b).price with
    | true => simpa [hrep] using hstay
    | false => exact ⟨_, rfl, by simp [hadd]⟩
  · by_cases hrep : (decoded b).type = .orderReplace
    · rw [step_replace st hrep]
      cases hin : inWindow lo hi (decoded b).price with
      | true => simpa using hstay
      | false => exact ⟨_, rfl, by simp [hrep, MsgType.IsAdd]⟩
    · rw [step_other st h hadd hrep]
      simpa [hadd, hrep] using hstay

end Turn

/-- The whole loop. Induction on the bodies. -/
theorem loop_out {bodies : List (List UInt8)} (h : ∀ b ∈ bodies, (decoded b).type ≠ .unknown)
    (st : Loop) : ∃ st', bodies.foldlM (step lo hi) st = .ok st' ∧
      st'.out = st.out ++ (bodies.filterMap (left (inWindow lo hi))).flatMap Framing.frame := by
  induction bodies generalizing st with
  | nil => exact ⟨st, rfl, (List.append_nil _).symm⟩
  | cons b bodies ih =>
    rw [List.forall_mem_cons] at h
    obtain ⟨st₁, hstep, hout₁⟩ := step_out st h.1
    obtain ⟨st₂, hrun, hout₂⟩ := ih h.2 st₁
    refine ⟨st₂, ?_, ?_⟩
    · rw [List.foldlM_cons, hstep]
      exact hrun
    · rw [hout₂, hout₁, List.append_assoc]
      cases hleft : left (inWindow lo hi) b with
      | none => rw [List.filterMap_cons_none hleft]; rfl
      | some b' =>
        rw [List.filterMap_cons_some hleft, List.flatMap_cons, Option.toList_some,
          List.flatMap_singleton]

/-- The prices of the Adds. -/
theorem addPrices_eq {bodies : List (List UInt8)} (h : ∀ b ∈ bodies, isAdd b = true →
    (decoded b).type.IsAdd) : (bodies.filter isAdd).mapM (unpackU32 · 34) =
      .ok ((bodies.filter isAdd).map fun b => (decoded b).price.toNat) := by
  induction bodies with
  | nil => rfl
  | cons b bodies ih =>
    rw [List.forall_mem_cons] at h
    cases hadd : isAdd b with
    | false =>
      rw [List.filter_cons_of_neg (by rw [hadd]; decide)]
      exact ih h.2
    | true =>
      rw [List.filter_cons_of_pos hadd, List.mapM_cons, add_price (h.1 hadd), ih h.2]
      rfl

/-- The base for a stream: half a window below the median price of its Adds, and not below 0. -/
def bandBase (window : ℤ) (bodies : List (List UInt8)) : ℤ :=
  max (median ((bodies.filter isAdd).map fun b => (decoded b).price.toNat) - window / 2) 0

/-- **The tool** on a stream of bodies the parser knows. -/
theorem main_eq {data : List UInt8} (h : ∀ b ∈ messages data, (decoded b).type ≠ .unknown)
    (window : ℤ) :
    (main window data = .ok none ∧ ∀ b ∈ messages data, ¬(decoded b).type.IsAdd) ∨
      ∃ w, main window data = .ok (some w) ∧ w.base = bandBase window (messages data) ∧
        w.result.out = ((messages data).filterMap
          (left (inWindow w.base (w.base + window)))).flatMap Framing.frame := by
  rw [main, addPrices_eq fun b hb hadd => (isAdd_iff (h b hb)).mp hadd, bandBase]
  set prices := ((messages data).filter isAdd).map fun b => (decoded b).price.toNat with hprices
  by_cases hnil : prices = []
  · refine .inl ⟨?_, fun b hb hadd => ?_⟩
    · show (if prices = [] then _ else _) = _
      rw [if_pos hnil]
      rfl
    · rw [hprices, List.map_eq_nil_iff, List.filter_eq_nil_iff] at hnil
      exact hnil b hb ((isAdd_iff (h b hb)).mpr hadd)
  · set base : ℤ := max (median prices - window / 2) 0
    obtain ⟨st, hrun, hout⟩ : ∃ st,
        (messages data).foldlM (step base (base + window)) {} = .ok st ∧ st.out = [] ++
          ((messages data).filterMap (left (inWindow base (base + window)))).flatMap
            Framing.frame := loop_out h {}
    refine .inr ⟨⟨median prices, base, st⟩, ?_, rfl, hout⟩
    · show (if prices = [] then _ else _) = _
      rw [if_neg hnil]
      show (_ >>= _) = _
      rw [hrun]
      rfl

/-! ## The replay of the output -/

theorem appliesAll_iff {e : BookEngine OrderRefTable} {ms : List DecodedMessage} :
    e.AppliesAll ms ↔ e.EndsIn (ms.map fun m => (m, .applied)) := by
  induction ms generalizing e with
  | nil => exact Iff.rfl
  | cons m ms ih =>
    exact exists_congr fun r => and_congr_right fun _ => and_congr_right fun _ => ih

/-- A sequence ends in one way only. -/
theorem endsIn_applied_iff {e : BookEngine OrderRefTable} {ms : List (DecodedMessage × ApplyStatus)}
    (h : e.EndsIn ms) : e.AppliesAll (ms.map Prod.fst) ↔ ∀ p ∈ ms, p.2 = .applied := by
  induction ms generalizing e with
  | nil => exact iff_of_true trivial fun p hp => absurd hp List.not_mem_nil
  | cons p ms ih =>
    obtain ⟨m, st⟩ := p
    obtain ⟨r, hr, hst, hrest⟩ := h
    rw [List.forall_mem_cons, ← ih hrest]
    constructor
    · rintro ⟨r', hr', hst', hrest'⟩
      obtain rfl := Option.some.inj (hr.symm.trans hr')
      exact ⟨hst.symm.trans hst', hrest'⟩
    · rintro ⟨hst', hrest'⟩
      exact ⟨r, hr, hst.trans hst', hrest'⟩

/-- **The gate on a stream of known messages.** -/
theorem mainReplayOk_iff_applies {bodies : List (List UInt8)}
    (h : ∀ b ∈ bodies, b ≠ [] ∧ b.length < 65536 ∧ (decoded b).type ≠ .unknown)
    (hlen : (bodies.flatMap Framing.frame).length < 2 ^ 64) {refs : OrderRefTable}
    (hrefs : OrderRefTable.new ((1 : UInt32) <<< 21) = some refs) :
    mainReplayOk false (bodies.flatMap Framing.frame) = some true ↔
      (BookEngine.new 1000000 refs).AppliesAll (bodies.map decoded) := by
  have hcarried : Carried bodies := fun b hb => ⟨(h b hb).1, (h b hb).2.1⟩
  have hinput : (replayInput false (bodies.flatMap Framing.frame)).length < 2 ^ 64 := hlen
  refine (mainReplayOk_iff hinput).trans ?_
  constructor
  · rintro ⟨bodies', ⟨-, refs', hrefs', happ⟩, hcarried', hbytes⟩
    have hsame : bodies' = bodies := by
      rw [← hcarried'.streamBodies_eq, ← hcarried.streamBodies_eq]
      exact congrArg streamBodies hbytes.symm
    rw [hrefs, Option.some_inj] at hrefs'
    rw [hsame, ← hrefs'] at happ
    exact happ
  · exact fun happ => ⟨bodies, ⟨fun b hb => (h b hb).2.2, refs, hrefs, happ⟩, hcarried, rfl⟩

/-- What the tool writes. -/
structure Fits (window : ℤ) (w : Filtered) : Prop where
  /-- Every Add and every Replace is in the window, -/
  prices : ∀ m ∈ parsedMessages w.result.out, m.type.IsAdd ∨ m.type = .orderReplace →
    w.base ≤ m.price.toNat ∧ (m.price.toNat : ℤ) < w.base + window
  /-- and in the band of a book of that size whose base is `band_base`. -/
  banded : ∀ c : Rtl.Build, (c.priceLevels : ℤ) = window →
    ∀ m ∈ parsedMessages w.result.out, m.type.IsAdd ∨ m.type = .orderReplace →
      Rtl.inWindow c (m.price - UInt32.ofNat w.base.toNat) = true

/-- An Add or a Replace that is left is in the window. -/
theorem inside_of_left {inside : UInt32 → Bool} {b b' : List UInt8} (h : left inside b = some b')
    (ht : (decoded b').type.IsAdd ∨ (decoded b').type = .orderReplace) :
    inside (decoded b').price = true := by
  unfold left at h
  split at h
  · cases h
  rename_i hadd
  split at h
  · rename_i hout
    obtain rfl := Option.some.inj h
    rw [(decoded_deleteBody hout.1).1] at ht
    revert ht
    show MsgType.orderDelete.IsAdd ∨ MsgType.orderDelete = .orderReplace → _
    exact fun hno => absurd hno (by decide)
  · rename_i hrep
    obtain rfl := Option.some.inj h
    by_contra hout
    exact ht.elim (fun ht => hadd ⟨ht, hout⟩) fun ht => hrep ⟨ht, hout⟩

theorem fits_of_left {window : ℤ} {w : Filtered} {bodies : List (List UInt8)} (hbase : 0 ≤ w.base)
    (hparsed : parsedMessages w.result.out =
      (bodies.filterMap (left (inWindow w.base (w.base + window)))).map decoded) :
    Fits window w := by
  have hprices : ∀ m ∈ parsedMessages w.result.out, m.type.IsAdd ∨ m.type = .orderReplace →
      w.base ≤ m.price.toNat ∧ (m.price.toNat : ℤ) < w.base + window := by
    intro m hm ht
    rw [hparsed] at hm
    obtain ⟨b', hb', rfl⟩ := List.mem_map.mp hm
    obtain ⟨b, -, hleft⟩ := List.mem_filterMap.mp hb'
    exact of_decide_eq_true (inside_of_left hleft ht)
  refine ⟨hprices, fun c hc m hm ht => decide_eq_true ?_⟩
  -- the offset does not wrap, and the band is as wide as the window
  obtain ⟨hlo, hhi⟩ := hprices m hm ht
  have hlevels : c.priceLevels < 2 ^ 32 := by cases c <;> decide
  have hprice := m.price.toNat_lt
  have hnat : (UInt32.ofNat w.base.toNat).toNat = w.base.toNat :=
    UInt32.toNat_ofNat_of_lt' (by rw [UInt32.size]; omega)
  have hle : UInt32.ofNat w.base.toNat ≤ m.price := by
    rw [UInt32.le_iff_toNat_le, hnat]
    omega
  rw [UInt32.lt_iff_toNat_lt, UInt32.toNat_sub_of_le _ _ hle, hnat,
    UInt32.toNat_ofNat_of_lt' hlevels]
  omega

/-- **The output, replayed.** Of every stream of exact-length messages that an engine applies, for
every window: the output fits the window, and the same engine, from power-up, ends every message of
the output in the status that `thinned` gives it. So the gate of `main` passes on the output exactly
if no message of it names an order that the tool took out. -/
theorem filtered_replay {bodies : List (List UInt8)}
    (hexact : ∀ b ∈ bodies, (decoded b).type ≠ .unknown) {capacity priceLevels : UInt32}
    {t₀ : OrderRefTable} (hnew : OrderRefTable.new capacity = some t₀)
    (happ : (BookEngine.new priceLevels t₀).AppliesAll (bodies.map decoded)) (window : ℤ) :
    let data := bodies.flatMap Framing.frame
    (main window data = .ok none ∧ ∀ b ∈ bodies, ¬(decoded b).type.IsAdd) ∨
      ∃ w, main window data = .ok (some w) ∧ w.base = bandBase window bodies ∧ Fits window w ∧
        (let replay := thinned (inWindow w.base (w.base + window)) ∅ (bodies.map decoded)
        parsedMessages w.result.out = replay.map Prod.fst ∧
          (∀ p ∈ replay, p.2 = .applied ∨ p.2 = .missingReference) ∧
          (BookEngine.new priceLevels t₀).statuses (parsedMessages w.result.out) =
            some (replay.map Prod.snd) ∧
          (data.length < 2 ^ 64 → mainReplayOk false data = some true →
            (mainReplayOk false w.result.out = some true ↔ ∀ p ∈ replay, p.2 = .applied))) := by
  intro data
  have hcarried : Carried bodies := fun b hb => by
    have hall : left (fun _ => true) b = some b := by simp [left]
    obtain ⟨hne, hlen, -⟩ := carried_left (hexact b hb) hall
    exact ⟨hne, hlen⟩
  have hmessages : messages data = bodies := by rw [messages_eq, hcarried.streamBodies_eq]
  have hknown : ∀ b ∈ messages data, (decoded b).type ≠ .unknown := by
    rw [hmessages]
    exact hexact
  rcases main_eq hknown window with h | h
  · rw [hmessages] at h
    exact .inl h
  obtain ⟨w, hmain, hbase, hout⟩ := h
  rw [hmessages] at hbase hout
  refine .inr ⟨w, hmain, hbase, ?_⟩
  set inside := inWindow w.base (w.base + window) with hinside
  have hleft : ∀ b' ∈ bodies.filterMap (left inside),
      b' ≠ [] ∧ b'.length < 65536 ∧ (decoded b').type ≠ .unknown := by
    intro b' hb'
    obtain ⟨b, hb, h⟩ := List.mem_filterMap.mp hb'
    exact carried_left (hexact b hb) h
  have hparsed : parsedMessages w.result.out = (bodies.filterMap (left inside)).map decoded := by
    have hc : Carried (bodies.filterMap (left inside)) := fun b hb =>
      ⟨(hleft b hb).1, (hleft b hb).2.1⟩
    rw [parsedMessages_eq, hout, hc.streamBodies_eq]
  have hfst : parsedMessages w.result.out =
      (thinned inside ∅ (bodies.map decoded)).map Prod.fst := by
    rw [hparsed, thinned_fst, List.filterMap_map, List.map_filterMap]
    exact List.filterMap_congr fun b _ => decoded_left inside b
  have hends : (BookEngine.new priceLevels t₀).EndsIn (thinned inside ∅ (bodies.map decoded)) :=
    thinned_endsIn hnew (appliesAll_iff.mp happ)
  refine ⟨fits_of_left (hbase ▸ le_max_right _ _) hparsed, hfst, thinned_status _ _ _, ?_, fun hlen hok => ?_⟩
  · rw [hfst]
    exact endsIn_iff.mp hends
  · -- the gate is about the engine of `main`, which applied the input too
    have hbodies : ∀ b ∈ bodies, b ≠ [] ∧ b.length < 65536 ∧ (decoded b).type ≠ .unknown :=
      fun b hb => ⟨(hcarried b hb).1, (hcarried b hb).2, hexact b hb⟩
    obtain ⟨refs, hrefs⟩ : ∃ refs, OrderRefTable.new ((1 : UInt32) <<< 21) = some refs := ⟨_, rfl⟩
    have happ' := (mainReplayOk_iff_applies hbodies hlen hrefs).mp hok
    have hlen' : w.result.out.length < 2 ^ 64 := by
      rw [hout]
      exact (left_length inside bodies).trans_lt hlen
    rw [hout] at hlen' ⊢
    rw [mainReplayOk_iff_applies hleft hlen' hrefs, ← hparsed, hfst]
    exact endsIn_applied_iff (thinned_endsIn hrefs (appliesAll_iff.mp happ'))

/-- **The band filter.** Of every stream of exact-length messages that an engine applies, for every
window: the output fits the window and is replayed with no invalid, duplicate or missing reference,
and the gate of `main` passes on it if it passed on the input, exactly if no message names an order
that the tool took out. -/
theorem filtered_clean_iff {bodies : List (List UInt8)}
    (hexact : ∀ b ∈ bodies, (decoded b).type ≠ .unknown) {capacity priceLevels : UInt32}
    {t₀ : OrderRefTable} (hnew : OrderRefTable.new capacity = some t₀)
    (happ : (BookEngine.new priceLevels t₀).AppliesAll (bodies.map decoded)) (window : ℤ) :
    let data := bodies.flatMap Framing.frame
    let base := bandBase window bodies
    (main window data = .ok none ∧ ∀ b ∈ bodies, ¬(decoded b).type.IsAdd) ∨
      ∃ w, main window data = .ok (some w) ∧ w.base = base ∧
        ((Fits window w ∧
            (∃ sts, (BookEngine.new priceLevels t₀).statuses (parsedMessages w.result.out) =
                some sts ∧ ∀ st ∈ sts, st ≠ .invalidEvent ∧ st ≠ .duplicateReference ∧
                  st ≠ .missingReference) ∧
            (data.length < 2 ^ 64 → mainReplayOk false data = some true →
              mainReplayOk false w.result.out = some true)) ↔
          NoneOrphaned (inWindow base (base + window)) ∅ (bodies.map decoded)) := by
  intro data base
  rcases filtered_replay hexact hnew happ window with
    hnone | ⟨w, hmain, hbase, hfits, -, hends, hstatuses, hgate⟩
  · exact .inl hnone
  refine .inr ⟨w, hmain, hbase, ?_⟩
  rw [show base = w.base from hbase.symm, BookEngine.noneOrphaned_iff]
  constructor
  · rintro ⟨-, ⟨sts, hsts, hclean⟩, -⟩ p hp
    obtain rfl := Option.some.inj (hstatuses.symm.trans hsts)
    exact (hends p hp).resolve_right (hclean p.2 (List.mem_map_of_mem hp)).2.2
  · intro happlied
    refine ⟨hfits, ⟨_, hstatuses, fun st hst => ?_⟩, fun hlen hok => (hgate hlen hok).2 happlied⟩
    obtain ⟨p, hp, rfl⟩ := List.mem_map.1 hst
    rw [happlied p hp]
    decide

/-- An Add of ten shares to buy. -/
def exampleAdd (ref price : ℕ) : List UInt8 :=
  'A'.toUInt8 :: (toBytes 2 1 ++ toBytes 2 0 ++ toBytes 8 0 ++ toBytes 8 ref ++ ['B'.toUInt8] ++
    toBytes 4 10 ++ List.replicate 8 ' '.toUInt8 ++ toBytes 4 price)

/-- A Cancel of five of them. -/
def exampleCancel (ref : ℕ) : List UInt8 :=
  'X'.toUInt8 :: (toBytes 2 1 ++ toBytes 2 0 ++ toBytes 8 0 ++ toBytes 8 ref ++ toBytes 4 5)

/-- Two orders near the median, and one far off that is cancelled in part. -/
def exampleBodies : List (List UInt8) :=
  [exampleAdd 1 100, exampleAdd 2 100, exampleAdd 3 5000, exampleCancel 3]

theorem exampleBodies_known : ∀ b ∈ exampleBodies, b ≠ [] ∧ b.length < 65536 ∧
    (decoded b).type ≠ .unknown := by decide

/-- The table of `main`. -/
theorem new_table : OrderRefTable.new ((1 : UInt32) <<< 21) = some (.empty 2097152) := by
  have hround : OrderRefTable.roundUp ((1 : UInt32) <<< 21) 33 1 = some 2097152 := by decide +kernel
  rw [OrderRefTable.new, hround]
  rfl

theorem exampleBodies_applied :
    (BookEngine.new 1000000 (OrderRefTable.empty 2097152)).AppliesAll
      (exampleBodies.map decoded) := by
  rw [appliesAll_iff, endsIn_iff]
  decide +kernel

/-- The tool on this stream. -/
theorem filtered_clean_iff_example :
    let data := exampleBodies.flatMap Framing.frame
    ∃ w, main 1024 data = .ok (some w) ∧ w.base = 0 ∧
      ((Fits 1024 w ∧
          (∃ sts, (BookEngine.new 1000000 (OrderRefTable.empty 2097152)).statuses
              (parsedMessages w.result.out) = some sts ∧ ∀ st ∈ sts, st ≠ .invalidEvent ∧
                st ≠ .duplicateReference ∧ st ≠ .missingReference) ∧
          (data.length < 2 ^ 64 → mainReplayOk false data = some true →
            mainReplayOk false w.result.out = some true)) ↔
        NoneOrphaned (inWindow 0 1024) ∅ (exampleBodies.map decoded)) := by
  have hbase : bandBase 1024 exampleBodies = 0 := by decide +kernel
  rcases filtered_clean_iff (fun b hb => (exampleBodies_known b hb).2.2) new_table
    exampleBodies_applied 1024 with ⟨-, hnone⟩ | ⟨w, hmain, hw, h⟩
  · exact absurd (hnone (exampleAdd 1 100) List.mem_cons_self) (by decide)
  · rw [hbase] at hw h
    exact ⟨w, hmain, hw, h⟩

/-- The Cancel of the dropped order is left, and is missing its reference: `main` publishes the
final state of the stream, and not that of the filtered one. -/
theorem filtered_missing :
    let data := exampleBodies.flatMap Framing.frame
    mainReplayOk false data = some true ∧ ∃ w, main 1024 data = .ok (some w) ∧
      (BookEngine.new 1000000 (OrderRefTable.empty 2097152)).statuses
        (parsedMessages w.result.out) = some [.applied, .applied, .missingReference] ∧
      mainReplayOk false w.result.out ≠ some true := by
  intro data
  have hlen : data.length < 2 ^ 64 := by decide +kernel
  obtain ⟨w, hmain, hout⟩ : ∃ w, main 1024 data = .ok (some w) ∧
      w.result.out = [exampleAdd 1 100, exampleAdd 2 100, exampleCancel 3].flatMap Framing.frame :=
    ⟨⟨100, 0, [exampleAdd 1 100, exampleAdd 2 100, exampleCancel 3].flatMap Framing.frame, 3, 1, 0⟩,
      by decide +kernel, rfl⟩
  have hkept : ∀ b ∈ [exampleAdd 1 100, exampleAdd 2 100, exampleCancel 3],
      b ≠ [] ∧ b.length < 65536 ∧ (decoded b).type ≠ .unknown := by decide
  have hstatuses : (BookEngine.new 1000000 (OrderRefTable.empty 2097152)).statuses
      (parsedMessages w.result.out) = some [.applied, .applied, .missingReference] := by
    have hcarried : Carried [exampleAdd 1 100, exampleAdd 2 100, exampleCancel 3] :=
      fun b hb => ⟨(hkept b hb).1, (hkept b hb).2.1⟩
    rw [parsedMessages_eq, hout, hcarried.streamBodies_eq]
    decide +kernel
  refine ⟨(mainReplayOk_iff_applies exampleBodies_known hlen new_table).mpr exampleBodies_applied,
    w, hmain, hstatuses, ?_⟩
  rw [hout, Ne, mainReplayOk_iff_applies hkept (by decide +kernel) new_table, appliesAll_iff,
    endsIn_iff]
  decide +kernel

end ItchOrderbook.BandFilter
