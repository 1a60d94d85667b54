import ItchOrderbook.Rtl.UartBridgeRun
import ItchOrderbook.Tools.ObHost

/-!
# Both ends of the link

The frames of the host are windows whose verdict is what the host meant (`verdicts_send`), and the
first window that answers is what the host parses (`readLoop_eq`): a snapshot of the bridge comes
back field by field (`parse_snapNow`).
-/

namespace ItchOrderbook.ObHost

open Rtl Framing

theorem csum8_eq (data : List UInt8) : csum8 data = data.sum := by
  have hsum : data.sum.toNat = (data.map UInt8.toNat).sum % 256 := by
    induction data with
    | nil => rfl
    | cons b data ih =>
      rw [List.sum_cons, UInt8.toNat_add, ih, List.map_cons, List.sum_cons]
      exact Nat.add_mod_mod _ _ _
  apply UInt8.toNat_inj.mp
  have hand : (data.map UInt8.toNat).sum &&& 0xFF = (data.map UInt8.toNat).sum % 2 ^ 8 :=
    Nat.and_two_pow_sub_one_eq_mod _ 8
  rw [csum8, hand, UInt8.toNat_ofNat', hsum, Nat.mod_mod]
  rfl

/-! ## Frames to the board -/

/-- The message of a command, if it is one. -/
def Command.message : Command → Option (List UInt8)
  | .itch msg => some msg
  | _ => none

/-- The base of a command, if it sets one. -/
def Command.base : Command → Option ℤ
  | .setBand base => some base
  | _ => none

/-- What a command is meant to bring about. -/
def Command.verdict : Command → Verdict
  | .itch msg => .itch (msg.drop 2)
  | .snapReq => .snap
  | .setBand base => .band (UInt32.ofNat base.toNat)

/-- Type and payload of the frame. -/
def Command.body : Command → List UInt8
  | .itch msg => tItch :: ljust msg
  | .snapReq => tSnap :: List.replicate payloadDn 0
  | .setBand base => tBand :: ljust (LittleEndian.toBytes 4 base.toNat)

/-- The window behind the preamble. -/
def Command.window (c : Command) : List UInt8 := c.body ++ [c.body.sum]

/-- A command that has a frame. -/
def Command.Framed : Command → Prop
  | .itch msg => 3 ≤ msg.length ∧ msg.length ≤ 48 ∧ BigEndian.ofBytes (msg.take 2) = msg.length - 2
  | .snapReq => True
  | .setBand base => 0 ≤ base ∧ base < 2 ^ 32

/-- A command has a frame exactly then, and it is the preamble and the window. -/
theorem Command.frame_eq_ok {c : Command} {f : List UInt8} :
    c.frame = .ok f ↔ c.Framed ∧ f = 0xA5 :: 0x5A :: c.window := by
  have hok (body : List UInt8) :
      (Except.ok (preamble ++ body ++ [csum8 body]) : Except HostError (List UInt8)) = .ok f ↔
        f = 0xA5 :: 0x5A :: (body ++ [body.sum]) := by
    rw [csum8_eq, Except.ok.injEq, eq_comm]
    rfl
  cases c with
  | snapReq => exact (hok _).trans (and_iff_right trivial).symm
  | setBand base =>
    show frameSetBand base = _ ↔ (_ ∧ _) ∧ _
    rw [frameSetBand]
    split
    · rw [hok]
      exact (and_iff_right ‹_›).symm
    · exact iff_of_false nofun fun h => ‹¬ _› h.1
  | itch msg =>
    show frameItch msg = _ ↔ (_ ∧ _ ∧ _) ∧ _
    rw [frameItch]
    split
    · rename_i hlen
      exact iff_of_false nofun fun h => hlen ⟨h.1.1, h.1.2.1⟩
    · rename_i hlen
      obtain ⟨h3, h48⟩ := not_not.mp hlen
      show (if BigEndian.ofBytes (msg.take 2) ≠ msg.length - 2 then _ else _) = _ ↔ _
      split
      · rename_i hne
        exact iff_of_false nofun fun h => hne h.1.2.2
      · rename_i heq
        rw [hok]
        exact (and_iff_right ⟨h3, h48, not_not.mp heq⟩).symm

theorem ljust_length {data : List UInt8} (h : data.length ≤ 48) : (ljust data).length = 48 := by
  rw [ljust, List.length_append, List.length_replicate, payloadDn]
  omega

theorem Command.Framed.body_length {c : Command} (h : c.Framed) : c.body.length = 49 := by
  cases c with
  | itch msg => exact congrArg (· + 1) (ljust_length h.2.1)
  | snapReq => rfl
  | setBand base =>
    refine congrArg (· + 1) (ljust_length ?_)
    rw [LittleEndian.toBytes_length]
    decide

theorem Command.Framed.window_length {c : Command} (h : c.Framed) : c.window.length = 50 := by
  rw [Command.window, List.length_append, h.body_length]
  rfl

/-- A message is its body behind its length. -/
theorem frame_drop_two {msg : List UInt8} (h2 : 2 ≤ msg.length)
    (h : BigEndian.ofBytes (msg.take 2) = msg.length - 2) : frame (msg.drop 2) = msg := by
  have hprefix := BigEndian.toBytes_ofBytes (msg.take 2)
  rw [List.length_take_of_le h2] at hprefix
  rw [frame, List.length_drop, ← h, hprefix, List.take_append_drop]

/-- The bridge takes the window for what it is meant to be. -/
theorem Command.Framed.verdict_window {c : Command} (h : c.Framed) :
    Rtl.verdict c.window = c.verdict := by
  cases c with
  | snapReq => decide +kernel
  | setBand base =>
    obtain ⟨hpos, hlt⟩ := h
    have hnat : base.toNat < 256 ^ 4 := by omega
    have htake : (ljust (LittleEndian.toBytes 4 base.toNat)).take 4 =
        LittleEndian.toBytes 4 base.toNat := List.take_left' (LittleEndian.toBytes_length 4 _)
    show Rtl.verdict (tBand :: (ljust _ ++ [(tBand :: ljust _).sum])) = .band _
    rw [Rtl.verdict_window, verdictOn, if_neg (not_not_intro rfl), htake,
      LittleEndian.ofBytes_toBytes hnat]
    rfl
  | itch msg =>
    obtain ⟨h3, h48, hlen⟩ := h
    have htwo : (ljust msg).take 2 = msg.take 2 := by
      rw [ljust, List.take_append_of_le_length (by omega)]
    have hann : announced (ljust msg) = msg.length - 2 := by rw [announced, htwo, hlen]
    have hbody : ((ljust msg).drop 2).take (msg.length - 2) = msg.drop 2 := by
      rw [ljust, List.drop_append_of_le_length (by omega)]
      exact List.take_left' (List.length_drop ..)
    have hfits : ¬ (msg.length - 2 = 0 ∨ 46 < msg.length - 2) := by omega
    show Rtl.verdict (tItch :: (ljust msg ++ [(tItch :: ljust msg).sum])) = .itch _
    rw [Rtl.verdict_window, verdictOn, if_neg (not_not_intro rfl), hann, if_neg hfits, hbody]
    rfl

/-- What the host writes is the frames of its commands, one behind the other. -/
theorem send_eq_ok {cs : List Command} {bytes : List UInt8} :
    send cs = .ok bytes ↔ (∀ c ∈ cs, c.Framed) ∧
      bytes = (cs.map Command.window).flatMap fun w => 0xA5 :: 0x5A :: w := by
  induction cs generalizing bytes with
  | nil =>
    rw [send, Except.ok.injEq, eq_comm]
    exact (and_iff_right nofun).symm
  | cons c cs ih =>
    rw [List.forall_mem_cons, List.map_cons, List.flatMap_cons, send]
    cases hc : c.frame with
    | error e =>
      refine iff_of_false nofun fun h => ?_
      have hok := Command.frame_eq_ok.2 ⟨h.1.1, rfl⟩
      rw [hc] at hok
      exact nomatch hok
    | ok f =>
      obtain ⟨hframed, rfl⟩ := Command.frame_eq_ok.1 hc
      cases hcs : send cs with
      | error e =>
        refine iff_of_false nofun fun h => ?_
        have hok := ih.2 ⟨h.1.2, rfl⟩
        rw [hcs] at hok
        exact nomatch hok
      | ok fs =>
        obtain ⟨hall, rfl⟩ := ih.1 hcs
        show Except.ok (_ ++ _) = Except.ok bytes ↔ _
        rw [Except.ok.injEq, eq_comm]
        exact (and_iff_right ⟨hframed, hall⟩).symm

/-- The verdicts on what the host sent are what it meant. -/
theorem verdicts_send {cs : List Command} {bytes : List UInt8} (h : send cs = .ok bytes) :
    verdicts bytes = cs.map Command.verdict := by
  obtain ⟨hall, rfl⟩ := send_eq_ok.1 h
  have hlen : ∀ w ∈ cs.map Command.window, w.length = 50 := by
    intro w hw
    obtain ⟨c, hc, rfl⟩ := List.mem_map.1 hw
    exact (hall c hc).window_length
  have hwins := (Hunt.windows_flatMap (s := .idle) (p := (0xA5 : UInt8)) (q := 0x5A) (n := 50)
    (by decide) (by decide) (.inl rfl) hlen).1
  rw [verdicts, linkWindows, hwins, List.map_map]
  exact List.map_congr_left fun c hc => (hall c hc).verdict_window

/-! ## Snapshots -/

/-- What a snapshot of the book says. -/
def fields (v : BookView) (frameErr : UInt32) : Snapshot where
  version := 1
  bidValid := v.bestBidValid
  askValid := v.bestAskValid
  spreadValid := v.spreadValid
  bidPx := v.bestBidPrice.toNat
  bidSh := v.bestBidShares.toNat
  askPx := v.bestAskPrice.toNat
  askSh := v.bestAskShares.toNat
  totBid := v.totBidVol.toNat
  totAsk := v.totAskVol.toNat
  vwapNum := v.vwapNum.toNat
  vwapDen := v.vwapDen.toNat
  trades := v.tradeCount.toNat
  spread := v.spread.toNat
  bandBase := v.bandBase.toNat
  bandDrops := v.bandDrops.toNat
  msgTotal := v.msgTotal.toNat
  mc := [v.mcAdd.toNat, v.mcAddmpid.toNat, v.mcExec.toNat, v.mcExecpr.toNat, v.mcCancel.toNat,
    v.mcDelete.toNat, v.mcReplace.toNat, v.mcTrade.toNat, v.mcSystem.toNat]
  frameErrs := frameErr.toNat
  tblInsFails := v.tblInsFails.toNat

/-- The lengths of the fields of a snapshot. -/
def fieldLengths : List ℕ :=
  [4, 4, 4, 4, 4, 8, 8, 8, 8, 8, 4, 4, 4, 8, 4, 4, 4, 4, 4, 4, 4, 4, 4, 4, 4, 4]

/-- The offset of a field. -/
def fieldOffset (k : ℕ) : ℕ := (fieldLengths.take k).sum

variable {v : BookView} {frameErr : UInt32}

theorem snapFields_lengths : (snapFields v frameErr).map List.length = fieldLengths := by
  simp only [snapFields, List.map_cons, List.map_nil, le32_length, le64_length]
  rfl

/-- A field stands at its offset. -/
theorem drop_fieldOffset {k : ℕ} {f : List UInt8} (hk : (snapFields v frameErr)[k]? = some f) :
    ((snapNow v frameErr).drop (fieldOffset k)).take f.length = f := by
  obtain ⟨hlt, hf⟩ := List.getElem?_eq_some_iff.mp hk
  have hoffset : fieldOffset k = ((snapFields v frameErr).take k).flatten.length := by
    rw [fieldOffset, ← @snapFields_lengths v frameErr, List.length_flatten,
      List.map_take]
  have hsplit : snapNow v frameErr = ((snapFields v frameErr).take k).flatten ++
      (f ++ ((snapFields v frameErr).drop (k + 1)).flatten) := by
    rw [← List.flatten_cons, ← List.flatten_append, ← hf, ← List.drop_eq_getElem_cons hlt,
      List.take_append_drop, snapNow]
  rw [hsplit, hoffset, List.drop_left' rfl, List.take_left' rfl]

theorem u32_snapNow {k : ℕ} {x : UInt32} (hk : (snapFields v frameErr)[k]? = some (le32 x)) :
    u32 (snapNow v frameErr) (fieldOffset k) = x.toNat := by
  have h := drop_fieldOffset hk
  rw [le32_length] at h
  rw [u32, h, le32, LittleEndian.ofBytes_toBytes]
  exact x.toNat_lt

theorem u64_snapNow {k : ℕ} {x : UInt64} (hk : (snapFields v frameErr)[k]? = some (le64 x)) :
    u64 (snapNow v frameErr) (fieldOffset k) = x.toNat := by
  have h := drop_fieldOffset hk
  rw [le64_length] at h
  rw [u64, h, le64, LittleEndian.ofBytes_toBytes]
  exact x.toNat_lt

/-- The three flags share a byte. -/
theorem flags_bits (v : BookView) : (v.flags &&& 1 != 0) = v.bestBidValid ∧
    (v.flags &&& 2 != 0) = v.bestAskValid ∧ (v.flags &&& 4 != 0) = v.spreadValid := by
  rw [BookView.flags]
  cases v.bestBidValid <;> cases v.bestAskValid <;> cases v.spreadValid <;> decide

/-- Parsing a snapshot gives what was latched. -/
theorem parse_snapNow (v : BookView) (frameErr : UInt32) :
    parseSnapshot (snapNow v frameErr) = .ok (fields v frameErr) := by
  have hflags : (snapNow v frameErr).getD 1 0 = v.flags := rfl
  obtain ⟨hbid, hask, hspread⟩ := flags_bits v
  have hlen : ¬ (snapNow v frameErr).length ≠ snapBytes := not_not_intro (snapNow_length v frameErr)
  rw [parseSnapshot, if_neg hlen, hflags, fields, Except.ok.injEq, Snapshot.mk.injEq]
  refine ⟨rfl, hbid, hask, hspread, u32_snapNow (k := 1) rfl, u32_snapNow (k := 2) rfl,
    u32_snapNow (k := 3) rfl, u32_snapNow (k := 4) rfl, u64_snapNow (k := 5) rfl,
    u64_snapNow (k := 6) rfl, u64_snapNow (k := 7) rfl, u64_snapNow (k := 8) rfl,
    u64_snapNow (k := 9) rfl, u32_snapNow (k := 10) rfl, u32_snapNow (k := 11) rfl,
    u32_snapNow (k := 12) rfl, u64_snapNow (k := 13) rfl, ?_, u32_snapNow (k := 23) rfl,
    u32_snapNow (k := 24) rfl⟩
  -- the nine message counters
  show [u32 _ (fieldOffset 14), u32 _ (fieldOffset 15), u32 _ (fieldOffset 16),
    u32 _ (fieldOffset 17), u32 _ (fieldOffset 18), u32 _ (fieldOffset 19), u32 _ (fieldOffset 20),
    u32 _ (fieldOffset 21), u32 _ (fieldOffset 22)] = _
  rw [u32_snapNow (k := 14) rfl, u32_snapNow (k := 15) rfl, u32_snapNow (k := 16) rfl,
    u32_snapNow (k := 17) rfl, u32_snapNow (k := 18) rfl, u32_snapNow (k := 19) rfl,
    u32_snapNow (k := 20) rfl, u32_snapNow (k := 21) rfl, u32_snapNow (k := 22) rfl]

/-! ## The hunt of the host -/

/-- Where the host stands. -/
def Reader.hunt (r : Reader) : Hunt UInt8 :=
  match r.state with
  | 0 => .idle
  | 1 => .half
  | 2 => .inside []
  | _ => .inside (r.ftype :: r.buf)

/-- A window that the host takes for a snapshot. -/
def Answers (w : List UInt8) : Prop :=
  w.getD 0 0 = tSnapresp ∧ w.getD 129 0 = csum8 (w.take 129)

instance (w : List UInt8) : Decidable (Answers w) := inferInstanceAs (Decidable (_ ∧ _))

/-- What the host returns for the windows it comes across: the first that answers is parsed. -/
def firstAnswer : List (List UInt8) → Except HostError (Option Snapshot)
  | [] => .ok none
  | w :: ws =>
    if Answers w then (parseSnapshot ((w.drop 1).take 128)).map some else firstAnswer ws

/-- A window that is filling holds no more than 128 bytes behind the type. -/
def Reader.Ok (r : Reader) : Prop := 3 ≤ r.state → r.buf.length ≤ 128

/-- Behind the type the loop collects 129 bytes and then looks at the window. -/
theorem readLoop_collect (n : ℕ) (buf : List UInt8) (ftype b : UInt8)
    (reads : List (Option UInt8)) :
    readLoop ⟨n + 3, buf, ftype⟩ (some b :: reads) =
      if (buf ++ [b]).length = snapBytes + 1 then
        if ftype = tSnapresp ∧
            (buf ++ [b]).getD snapBytes 0 = csum8 (ftype :: (buf ++ [b]).take snapBytes) then
          (parseSnapshot ((buf ++ [b]).take snapBytes)).map some
        else readLoop ⟨0, buf ++ [b], ftype⟩ reads
      else readLoop ⟨n + 3, buf ++ [b], ftype⟩ reads := rfl

/-- The loop hunts windows of 130 bytes and returns on the first that answers. -/
theorem readLoop_eq {r : Reader} (hr : r.Ok) (reads : List (Option UInt8)) :
    readLoop r reads =
      firstAnswer (Hunt.windows 0xA5 0x5A 130 r.hunt (reads.filterMap id)) := by
  induction reads generalizing r with
  | nil => rfl
  | cons read reads ih =>
    cases read with
    | none => exact ih hr
    | some b =>
      show readLoop r (some b :: reads) =
        firstAnswer (r.hunt.complete 130 b ++
          Hunt.windows 0xA5 0x5A 130 (r.hunt.next 0xA5 0x5A 130 b) (reads.filterMap id))
      obtain ⟨state, buf, ftype⟩ := r
      match state with
      | 0 =>
        show readLoop ⟨if b = 0xA5 then 1 else 0, buf, ftype⟩ reads =
          firstAnswer (Hunt.windows 0xA5 0x5A 130 (if b = 0xA5 then .half else .idle) _)
        split
        · exact ih (r := ⟨1, buf, ftype⟩) (absurd · (by decide : ¬ 3 ≤ 1))
        · exact ih (r := ⟨0, buf, ftype⟩) (absurd · (by decide : ¬ 3 ≤ 0))
      | 1 =>
        show readLoop ⟨if b = 0x5A then 2 else if b = 0xA5 then 1 else 0, buf, ftype⟩ reads =
          firstAnswer (Hunt.windows 0xA5 0x5A 130
            (if b = 0x5A then .inside [] else if b = 0xA5 then .half else .idle) _)
        split
        · exact ih (r := ⟨2, buf, ftype⟩) (absurd · (by decide : ¬ 3 ≤ 2))
        · split
          · exact ih (r := ⟨1, buf, ftype⟩) (absurd · (by decide : ¬ 3 ≤ 1))
          · exact ih (r := ⟨0, buf, ftype⟩) (absurd · (by decide : ¬ 3 ≤ 0))
      | 2 => exact ih (r := ⟨3, [], b⟩) fun _ => Nat.zero_le _
      | n + 3 =>
        have hlen : buf.length ≤ 128 := hr (Nat.le_add_left 3 n)
        have hbuf : (buf ++ [b]).length = buf.length + 1 := List.length_append
        rw [readLoop_collect, hbuf]
        show _ = firstAnswer ((if (ftype :: buf).length + 1 = 130 then _ else _) ++
          Hunt.windows 0xA5 0x5A 130 (if (ftype :: buf).length + 1 = 130 then _ else _) _)
        rw [List.length_cons]
        by_cases hfull : buf.length = 128
        case neg =>
          have hmore : ¬ buf.length + 1 = snapBytes + 1 := fun h => hfull (Nat.succ.inj h)
          have hmore' : ¬ buf.length + 1 + 1 = 130 := by omega
          rw [if_neg hmore, if_neg hmore', if_neg hmore']
          refine ih (r := ⟨n + 3, buf ++ [b], ftype⟩) fun _ => ?_
          show (buf ++ [b]).length ≤ 128
          omega
        case pos =>
          have hend : buf.length + 1 = snapBytes + 1 := congrArg (· + 1) hfull
          have hend' : buf.length + 1 + 1 = 130 := by omega
          have hanswer : Answers (ftype :: (buf ++ [b])) ↔ ftype = tSnapresp ∧
              (buf ++ [b]).getD snapBytes 0 = csum8 (ftype :: (buf ++ [b]).take snapBytes) := Iff.rfl
          rw [if_pos hend, if_pos hend', if_pos hend', ← if_congr hanswer rfl rfl,
            ih (r := ⟨0, buf ++ [b], ftype⟩) (absurd · (by decide : ¬ 3 ≤ 0))]
          rfl

/-- The window of a snapshot answers. -/
theorem answers_snapshot {payload : List UInt8} (hlen : payload.length = 128) :
    Answers (0x81 :: (payload ++ [(0x81 :: payload).sum])) := by
  refine ⟨rfl, ?_⟩
  have hlast : (payload ++ [(0x81 :: payload).sum]).getD 128 0 = (0x81 :: payload).sum := by
    rw [List.getD_eq_getElem?_getD, ← hlen, List.getElem?_concat_length]
    rfl
  have htake : (payload ++ [(0x81 :: payload).sum]).take 128 = payload := List.take_left' hlen
  show (payload ++ [(0x81 :: payload).sum]).getD 128 0 =
    csum8 (0x81 :: (payload ++ [(0x81 :: payload).sum]).take 128)
  rw [hlast, htake, csum8_eq]

/-- A snapshot frame is found behind any bytes without a preamble. -/
theorem readSnapshot_frame {reads : List (Option UInt8)} {pre post : List UInt8}
    (hpre : ¬ [0xA5, 0x5A] <:+: pre)
    (hreads : reads.filterMap id = pre ++ snapFrame (snapNow v frameErr) ++ post) :
    readSnapshot reads = .ok (some (fields v frameErr)) := by
  have hlen := snapNow_length v frameErr
  have hwlen : (0x81 :: (snapNow v frameErr ++ [(0x81 :: snapNow v frameErr).sum])).length = 130 := by
    rw [List.length_cons, List.length_append, hlen]
    rfl
  have hframe := Hunt.frame (n := 130) (by decide : (0xA5 : UInt8) ≠ 0x5A) (by decide)
    (Hunt.hunting_of_no_preamble (n := 130) hpre) hwlen
  have hwins : Hunt.windows 0xA5 0x5A 130 .idle (reads.filterMap id) =
      [0x81 :: (snapNow v frameErr ++ [(0x81 :: snapNow v frameErr).sum])] ++
        Hunt.windows 0xA5 0x5A 130 .idle post := by
    rw [hreads, Hunt.windows_append, Hunt.windows_append, Hunt.windows_of_no_preamble hpre,
      Hunt.after_append, snapFrame, hframe.1, hframe.2]
    rfl
  have htake : ((0x81 :: (snapNow v frameErr ++ [(0x81 :: snapNow v frameErr).sum])).drop 1).take
      128 = snapNow v frameErr := List.take_left' hlen
  have hloop := readLoop_eq (r := {}) (absurd · (by decide : ¬ 3 ≤ 0)) reads
  show readLoop {} reads = _
  rw [hloop]
  show firstAnswer (Hunt.windows 0xA5 0x5A 130 .idle _) = _
  rw [hwins, List.singleton_append, firstAnswer, if_pos (answers_snapshot hlen), htake,
    parse_snapNow]
  rfl

end ItchOrderbook.ObHost
