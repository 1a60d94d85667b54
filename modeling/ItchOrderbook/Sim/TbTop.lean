import ItchOrderbook.Sim.RtlDriver

/-!
# The main testbench (`sim/tb_top.cpp`, `sim/itch_file_reader.cpp`)

`tbTop` replays a file through the top and checks, at every commit, what the top shows against the
reference. It passes exactly the files whose records are all messages of the engine
(`tbTop_passes_iff`), as long as the messages keep to what the simulation build can hold.
-/

namespace ItchOrderbook.Sim

open BigEndian Rtl
open Std (ExtTreeMap)

/-! ## Reading -/

/-- The loop of `split_messages`, on the bytes from `i` on. -/
def splitLoop (maxMsgs : ℕ) (s : List UInt8) (msgs : List (List UInt8)) : List (List UInt8) :=
  if 2 ≤ s.length then
    let len := ofBytes (s.take 2)
    if h : len = 0 ∨ s.length < 2 + len then msgs
    else
      let msgs := msgs ++ [(s.drop 2).take len]
      if maxMsgs ≠ 0 ∧ maxMsgs ≤ msgs.length then msgs
      else splitLoop maxMsgs (s.drop (2 + len)) msgs
  else msgs
termination_by s.length
decreasing_by simp only [List.length_drop]; omega

/-- `split_messages`. -/
def splitMessages (s : List UInt8) (maxMsgs : ℕ) : List (List UInt8) := splitLoop maxMsgs s []

/-- `reserialize`. -/
def reserialize (msgs : List (List UInt8)) : List UInt8 :=
  msgs.flatMap fun body => toBytes 2 body.length ++ body

/-! ## The checks -/

/-- What `on_commit` works on: `ref` and `g_fail`. -/
structure TbEnv where
  ref : RefBook := {}
  gFail : ℕ := 0

/-- The prices that the sweep visits: `bid_prices` or `ask_prices`. -/
def RefBook.prices (r : RefBook) (isBid : Bool) : List UInt32 := (r.side isBid).keys

/-- The level sweep of one side. -/
def sweep (s : BookState .simulation) (ref : RefBook) (isBid : Bool) : List Bool :=
  (ref.prices isBid).map fun p =>
    (s.engine.dbgShares isBid p).toUInt64 == ref.levelShares isBid p

/-- What the `CHECK`s find, in their order. -/
def checks (idx : ℕ) (s : BookState .simulation) (ref : RefBook) : List Bool :=
  [s.engine.bestValid true == ref.bestBidValid] ++
  (if ref.bestBidValid then
    [s.engine.bestPrice true == ref.bestBidPrice,
      (s.engine.bestShares true).toUInt64 == ref.bestBidShares]
  else []) ++
  [s.engine.bestValid false == ref.bestAskValid] ++
  (if ref.bestAskValid then
    [s.engine.bestPrice false == ref.bestAskPrice,
      (s.engine.bestShares false).toUInt64 == ref.bestAskShares]
  else []) ++
  [s.engine.totVol true == ref.totBid, s.engine.totVol false == ref.totAsk,
    s.stats.vwapNum == ref.vwapNum, s.stats.vwapDen == ref.vwapDen,
    s.stats.tradeCount == ref.tradeCount, s.spreadValid == ref.spreadValid] ++
  (if ref.spreadValid then [s.spread == ref.spread] else []) ++
  if (idx + 1) % 1000 = 0 then sweep s ref true ++ sweep s ref false else []

/-- `on_commit`; `drive` never calls it for more messages than there are. -/
def onCommit (refmsgs : List RefMsg) (idx : ℕ) (drv : RtlDriver .simulation) (env : TbEnv) : TbEnv :=
  match refmsgs[idx]? with
  | none => env
  | some m =>
    let ref := env.ref.apply m
    { ref, gFail := env.gFail + (checks idx drv.top.book ref).countP (!·) }

/-- `main` of `tb_top`: its exit code, and `none` when `decode_body` reads past the end of a
body. -/
def tbTop (drv : RtlDriver .simulation) (raw : List UInt8) (maxMsgs cycleCap : ℕ) : Option ℕ :=
  if raw = [] then some 2
  else do
    let msgs := splitMessages raw maxMsgs
    let refmsgs ← msgs.mapM decodeBody
    let st := (drv.reset true).drive (onCommit refmsgs) (reserialize msgs) msgs.length {} cycleCap
    if st.committed ≠ msgs.length then return 1
    else if st.env.gFail ≠ 0 then return 1
    else return 0

/-! ## The stream that is replayed -/

/-- The engine has a message for the body. -/
def Supported (b : List UInt8) : Prop := bodyLen (b.getD 0 0) ≠ 0 ∧ b.length = bodyLen (b.getD 0 0)

instance (b : List UInt8) : Decidable (Supported b) := inferInstanceAs (Decidable (_ ∧ _))

/-- The bodies are short enough for their prefixes. -/
theorem splitLoop_short {maxMsgs : ℕ} {s : List UInt8} {msgs : List (List UInt8)}
    (h : ∀ b ∈ msgs, b.length < 65536) : ∀ b ∈ splitLoop maxMsgs s msgs, b.length < 65536 := by
  have hadd (s : List UInt8) (msgs : List (List UInt8)) (h : ∀ b ∈ msgs, b.length < 65536) :
      ∀ b ∈ msgs ++ [(s.drop 2).take (ofBytes (s.take 2))], b.length < 65536 := by
    intro b hb
    rcases List.mem_append.1 hb with hb | hb
    · exact h b hb
    · have hlt := ofBytes_lt (s.take 2)
      have hle : 256 ^ (s.take 2).length ≤ 256 ^ 2 :=
        Nat.pow_le_pow_right (by decide) (List.length_take_le 2 s)
      rw [List.mem_singleton.1 hb]
      exact (List.length_take_le _ _).trans_lt (hlt.trans_le hle)
  induction s, msgs using splitLoop.induct maxMsgs with
  | case1 s msgs hhead len hend =>
    rw [splitLoop, if_pos hhead, dif_pos hend]
    exact h
  | case2 s msgs hhead len hend msgs' hfull =>
    rw [splitLoop, if_pos hhead, dif_neg hend, if_pos hfull]
    exact hadd s msgs h
  | case3 s msgs hhead len hend msgs' hfull ih =>
    rw [splitLoop, if_pos hhead, dif_neg hend, if_neg hfull]
    exact ih (hadd s msgs h)
  | case4 s msgs hhead =>
    rw [splitLoop, if_neg hhead]
    exact h

/-- The messages of the stream are those of the bodies. -/
theorem messages_reserialize (raw : List UInt8) (maxMsgs : ℕ) :
    messages (reserialize (splitMessages raw maxMsgs)) =
      (splitMessages raw maxMsgs).filterMap frameMessage :=
  congrArg (List.filterMap frameMessage)
    (Framing.split_flatMap (splitLoop_short fun _ hb => (by cases hb)))

theorem frameMessage_isSome (b : List UInt8) : (frameMessage b).isSome = true ↔ Supported b := by
  unfold frameMessage Supported
  split
  · rename_i h
    exact iff_of_true rfl h
  · rename_i h
    exact iff_of_false Bool.false_ne_true h

/-- All bodies have messages if there are as many messages as bodies. -/
theorem length_messages_eq_iff (msgs : List (List UInt8)) :
    (msgs.filterMap frameMessage).length = msgs.length ↔ ∀ b ∈ msgs, Supported b := by
  rw [List.filterMap_length_eq_length]
  exact forall₂_congr fun b _ => frameMessage_isSome b

/-- The reference decodes the bodies as the hardware does. -/
theorem mapM_decodeBody {msgs : List (List UInt8)} (h : ∀ b ∈ msgs, Supported b) :
    msgs.mapM decodeBody = some ((msgs.filterMap frameMessage).map Decoded.toRefMsg) := by
  induction msgs with
  | nil => rfl
  | cons b msgs ih =>
    obtain ⟨hb, hmsgs⟩ := List.forall_mem_cons.1 h
    have hshort := bodyLen_le (b.getD 0 0)
    have hbody : decodeBody b = some (fields b).toRefMsg :=
      sim_decodeBody (holds_ofFn (by rw [hb.2]; omega)) hb.2 hb.1
    have hframe : frameMessage b = some (fields b) := if_pos hb
    rw [List.mapM_cons, hbody, ih hmsgs, List.filterMap_cons_some hframe, List.map_cons]
    rfl

/-! ## The checks hold -/

/-- A price with shares is the price of an order. -/
theorem RefBook.exists_order {r : RefBook} {isBid : Bool} {p : UInt32}
    (hp : r.sharesAt (isBid, p) ≠ 0) : ∃ ref o, r.orders.lookup ref = some o ∧ o.price = p := by
  by_contra hno
  unfold RefBook.sharesAt Finmap.totalAt at hp
  refine hp (Finmap.total_eq_zero_iff.mpr fun ref o ho => if_neg fun hplace => hno ?_)
  exact ⟨ref, o, ho, congrArg Prod.snd hplace⟩

/-- Every price of the reference lies in the levels. -/
theorem price_lt_of_mirrors {k : BookCore .simulation} {live : LiveEntries} {r : RefBook}
    (h : Mirrors k live r) {isBid : Bool} {p : UInt32} (hp : p ∈ r.prices isBid) :
    p.toNat < Build.simulation.priceLevels := by
  have hmem : p ∈ r.side isBid := ExtTreeMap.mem_keys.1 hp
  obtain ⟨ref, o, ho, rfl⟩ := RefBook.exists_order ((h.shows.mem_side_iff isBid p).1 hmem)
  rw [h.same, Option.map_eq_some_iff] at ho
  obtain ⟨e, he, rfl⟩ := ho
  have hin := (h.priced.inBand ref e he).2
  rwa [h.base, UInt32.toNat_zero, Nat.zero_add] at hin

theorem sweep_of_matches {s : BookState .simulation} {r : RefBook} (h : Matches s r)
    {isBid : Bool} (hlow : ∀ p ∈ r.prices isBid, p.toNat < Build.simulation.priceLevels) :
    ∀ ok ∈ sweep s r isBid, ok = true := by
  intro ok hok
  obtain ⟨p, hp, rfl⟩ := List.mem_map.1 hok
  exact beq_iff_eq.2 (h.levels isBid p (hlow p hp)).1

/-- What matches passes the checks. -/
theorem checks_of_matches {s : BookState .simulation} {r : RefBook} (h : Matches s r)
    (hlow : ∀ isBid, ∀ p ∈ r.prices isBid, p.toNat < Build.simulation.priceLevels) (idx : ℕ) :
    ∀ ok ∈ checks idx s r, ok = true := by
  have htot : s.engine.totVol true = r.totBid ∧ s.engine.totVol false = r.totAsk :=
    ⟨h.volumes true, h.volumes false⟩
  have hsums : s.stats.vwapNum = r.vwapNum ∧ s.stats.vwapDen = r.vwapDen ∧
      s.stats.tradeCount = r.tradeCount :=
    ⟨congrArg (·.1) h.sums, congrArg (·.2.1) h.sums, congrArg (·.2.2) h.sums⟩
  -- a group that is only checked at times
  have hgroup (p : Prop) [Decidable p] (oks : List Bool) (hoks : ∀ ok ∈ oks, ok = true) :
      ∀ ok ∈ if p then oks else [], ok = true := by
    split
    · exact hoks
    · exact fun _ hok => (by cases hok)
  have htrue (n : ℕ) : ∀ ok ∈ List.replicate n true, ok = true := fun ok hok =>
    List.eq_of_mem_replicate hok
  unfold checks
  rw [h.bid.1, h.bid.2.1, h.bid.2.2, h.ask.1, h.ask.2.1, h.ask.2.2, htot.1, htot.2, hsums.1,
    hsums.2.1, hsums.2.2, h.spread.1, h.spread.2]
  simp only [beq_self_eq_true, List.forall_mem_append]
  refine ⟨⟨⟨⟨⟨⟨htrue 1, hgroup _ _ (htrue 2)⟩, htrue 1⟩, hgroup _ _ (htrue 2)⟩, htrue 6⟩,
    hgroup _ _ (htrue 1)⟩, hgroup _ _ ?_⟩
  exact List.forall_mem_append.2
    ⟨sweep_of_matches h (hlow true), sweep_of_matches h (hlow false)⟩

/-! ## The run -/

namespace RtlDriver

variable {σ : Type} (onCommit : ℕ → RtlDriver .simulation → σ → σ) {stream : List UInt8}
  {st : DriveState .simulation σ}

/-- A commit of the loop. -/
theorem Driven.matches (h : Driven stream st)
    (hf : Followed (BookCore.powerUp .simulation none) {} (messages stream))
    (hdone : st.drv.top.book.engine.engineDone = true) :
    st.committed < (messages stream).length ∧ Matches (driveStep onCommit st).drv.top.book
      (BookState.replayed {} ((messages stream).take (st.committed + 1))) := by
  obtain ⟨as, ts, hflows, hstream, hcount⟩ := h.flows
  have hpart : messages (TopState.streamOf ⟨true, false⟩ as) <+: messages stream :=
    messages_mono (streamOf_raw as ▸ ⟨st.left, hstream⟩ : _ <+: stream)
  obtain ⟨htop, hmode, hplain, -⟩ := present_spec h
  obtain ⟨hle, hmatches⟩ := TopState.matches_of_done hflows (hf.mono hpart) hdone hplain
  have hnext : (driveStep onCommit st).drv.top =
      st.drv.top.step ⟨true, false⟩ (present st).drv.pins := by
    rw [driveStep_top, ← htop, ← hmode]
    rfl
  have htake : (messages (TopState.streamOf ⟨true, false⟩ as)).take (ts.length + 1) =
      (messages stream).take (ts.length + 1) := by
    obtain ⟨rest, hrest⟩ := hpart
    rw [← hrest, List.take_append_of_le_length hle]
  rw [hnext, hcount, ← htake]
  exact ⟨hle.trans hpart.length_le, hmatches⟩

end RtlDriver

open RtlDriver in
/-- The reference follows, and no check fails. -/
structure Checked (stream : List UInt8) (st : DriveState .simulation TbEnv) : Prop where
  driven : Driven stream st
  ref : st.env.ref = BookState.replayed {} ((messages stream).take st.committed)
  clean : st.env.gFail = 0

open RtlDriver in
theorem Checked.step {stream : List UInt8} {st : DriveState .simulation TbEnv}
    (h : Checked stream st)
    (hf : Followed (BookCore.powerUp .simulation none) {} (messages stream)) :
    Checked stream
      (driveStep (onCommit ((messages stream).map Decoded.toRefMsg)) st) := by
  set refmsgs := (messages stream).map Decoded.toRefMsg with hrefmsgs
  obtain ⟨hdriven, hmoved⟩ := h.driven.step (onCommit refmsgs)
  cases hdone : st.drv.top.book.engine.engineDone with
  | false =>
    rw [hdone, if_neg Bool.false_ne_true] at hmoved
    exact ⟨hdriven, by rw [hmoved.1, hmoved.2, h.ref], by rw [hmoved.2, h.clean]⟩
  | true =>
    rw [hdone, if_pos rfl] at hmoved
    obtain ⟨hlt, hmatches⟩ := h.driven.matches (onCommit refmsgs) hf hdone
    -- the next message of the reference
    have hmsg : refmsgs[st.committed]? = some ((messages stream)[st.committed]).toRefMsg := by
      rw [hrefmsgs, List.getElem?_map, List.getElem?_eq_getElem hlt, Option.map_some]
    have hnext : st.env.ref.apply ((messages stream)[st.committed]).toRefMsg =
        BookState.replayed {} ((messages stream).take (st.committed + 1)) := by
      rw [h.ref, List.take_succ_eq_append_getElem hlt]
      exact (List.foldl_concat (fun (r : RefBook) (d : Decoded) => r.apply d.toRefMsg) ..).symm
    obtain ⟨live, hmirrors⟩ := (hf.mono (List.take_prefix (st.committed + 1) _)).mirrors
      Mirrors.powerUp rfl
    have hchecks := checks_of_matches hmatches (fun _ _ hp => price_lt_of_mirrors hmirrors hp)
      st.committed
    have henv : (driveStep (onCommit refmsgs) st).env =
        ⟨BookState.replayed {} ((messages stream).take (st.committed + 1)), 0⟩ := by
      rw [hmoved.2, onCommit, hmsg]
      dsimp only
      rw [hnext, h.clean, Nat.zero_add, TbEnv.mk.injEq]
      exact ⟨rfl, List.countP_eq_zero.2 fun ok hok => by rw [hchecks ok hok]; decide⟩
    exact ⟨hdriven, by rw [hmoved.1, henv], by rw [henv]⟩

/-- The loop starts checked. -/
theorem checked_reset (stream : List UInt8) {drv : RtlDriver .simulation}
    (hbook : drv.top.book = {}) :
    Checked stream
      { drv := drv.reset true, left := stream, committed := 0
        lastTotal := (drv.reset true).top.perf.msgTotal, env := {} } :=
  ⟨RtlDriver.driven_reset drv hbook _, rfl, rfl⟩

/-- The loop ends with all commits, and no check has failed. -/
theorem drive_checked {stream : List UInt8} {drv : RtlDriver .simulation}
    (hbook : drv.top.book = {})
    (hf : Followed (BookCore.powerUp .simulation none) {} (messages stream)) :
    ∃ n, ∀ cap ≥ n,
      let refmsgs := (messages stream).map Decoded.toRefMsg
      let st := (drv.reset true).drive (onCommit refmsgs) stream (messages stream).length {} cap
      st.committed = (messages stream).length ∧ st.env.gFail = 0 := by
  have hstart := checked_reset stream hbook
  set refmsgs := (messages stream).map Decoded.toRefMsg
  obtain ⟨n, hn⟩ := hstart.driven.gets_through (onCommit refmsgs)
  refine ⟨n + (drv.reset true).cyc, fun cap hcap => ?_⟩
  have hcommitted := RtlDriver.driveLoop_returns _ (cap - (drv.reset true).cyc) (by omega) hn
  have hchecked : Checked stream ((drv.reset true).drive (onCommit refmsgs) stream
      (messages stream).length {} cap) :=
    RtlDriver.driveLoop_inv _ (Checked stream) _ (fun _ h _ => h.step hf) _ hstart
  exact ⟨Nat.le_antisymm hchecked.driven.committed_le hcommitted, hchecked.clean⟩

/-! ## The exit code -/

variable {drv : RtlDriver .simulation} {raw : List UInt8} {maxMsgs cap : ℕ}

/-- When it passes. -/
theorem tbTop_eq_zero_iff (hraw : raw ≠ []) : tbTop drv raw maxMsgs cap = some 0 ↔
    ∃ refmsgs, (splitMessages raw maxMsgs).mapM decodeBody = some refmsgs ∧
      let st := (drv.reset true).drive (onCommit refmsgs) (reserialize (splitMessages raw maxMsgs))
        (splitMessages raw maxMsgs).length {} cap
      st.committed = (splitMessages raw maxMsgs).length ∧ st.env.gFail = 0 := by
  unfold tbTop
  rw [if_neg hraw]
  dsimp only
  rw [Option.bind_eq_bind, Option.bind_eq_some_iff]
  refine exists_congr fun refmsgs => and_congr_right fun _ => ?_
  split
  · rename_i hhang
    exact iff_of_false (by decide) fun h => hhang h.1
  · rename_i hall
    rw [not_not] at hall
    split
    · rename_i hfail
      exact iff_of_false (by decide) fun h => hfail h.2
    · rename_i hclean
      exact iff_of_true rfl ⟨hall, not_not.1 hclean⟩

/-- The messages of the engine are all committed, and no check fails. -/
theorem tbTop_of_supported (hbook : drv.top.book = {}) (hraw : raw ≠ [])
    (hf : Followed (BookCore.powerUp .simulation none) {}
      (messages (reserialize (splitMessages raw maxMsgs))))
    (hall : ∀ b ∈ splitMessages raw maxMsgs, Supported b) :
    ∃ n, ∀ cap ≥ n, tbTop drv raw maxMsgs cap = some 0 := by
  have hms := messages_reserialize raw maxMsgs
  have hlen := (length_messages_eq_iff _).2 hall
  rw [← hms] at hlen
  obtain ⟨n, hn⟩ := drive_checked hbook hf
  rw [hlen, hms] at hn
  exact ⟨n, fun cap hcap => (tbTop_eq_zero_iff hraw).2 ⟨_, mapM_decodeBody hall, hn cap hcap⟩⟩

/-- A record that is no message is never committed. -/
theorem supported_of_tbTop (hbook : drv.top.book = {}) (hraw : raw ≠ [])
    (h : tbTop drv raw maxMsgs cap = some 0) : ∀ b ∈ splitMessages raw maxMsgs, Supported b := by
  obtain ⟨refmsgs, -, hcommitted, -⟩ := (tbTop_eq_zero_iff hraw).1 h
  have hdriven := RtlDriver.driveLoop_inv (onCommit refmsgs)
    (RtlDriver.Driven (reserialize (splitMessages raw maxMsgs))) (splitMessages raw maxMsgs).length
    (fun st h _ => (h.step _).1) (cap - (drv.reset true).cyc)
    (RtlDriver.driven_reset drv hbook ({} : TbEnv))
  have hle := hdriven.committed_le
  have hless := List.length_filterMap_le frameMessage (splitMessages raw maxMsgs)
  rw [messages_reserialize] at hle
  refine (length_messages_eq_iff _).1 (Nat.le_antisymm hless ?_)
  rw [← hcommitted]
  exact hle

/-- **The testbench passes a file exactly if every record is a message of the engine**, whatever
else the file holds behind the records, if only the messages are within the limits: prices in the
levels, references that are new, sums that fit, and a slot for each order. Given enough cycles, it
then ends with exit code 0; with a record that is no message it never does, however many. -/
theorem tbTop_passes_iff (drv : RtlDriver .simulation) (hbook : drv.top.book = {})
    (raw : List UInt8) (hraw : raw ≠ []) (maxMsgs : ℕ)
    (hf : Followed (BookCore.powerUp .simulation none) {}
      (messages (reserialize (splitMessages raw maxMsgs)))) :
    ((∀ b ∈ splitMessages raw maxMsgs, Supported b) ↔
        ∃ n, ∀ cap ≥ n, tbTop drv raw maxMsgs cap = some 0) ∧
      ((∀ b ∈ splitMessages raw maxMsgs, Supported b) ↔
        ∃ cap, tbTop drv raw maxMsgs cap = some 0) := by
  have hpass := tbTop_of_supported hbook hraw hf
  have hsupported (h : ∃ cap, tbTop drv raw maxMsgs cap = some 0) :=
    supported_of_tbTop hbook hraw h.choose_spec
  exact ⟨⟨hpass, fun ⟨n, hn⟩ => hsupported ⟨n, hn n le_rfl⟩⟩,
    ⟨fun hall => (hpass hall).imp fun n hn => hn n le_rfl, hsupported⟩⟩

/-- Without a limit, records come off the front one by one. -/
theorem splitLoop_frame {body : List UInt8} (hpos : 0 < body.length) (hlen : body.length < 65536)
    (tail : List UInt8) (msgs : List (List UInt8)) :
    splitLoop 0 (Framing.frame body ++ tail) msgs = splitLoop 0 tail (msgs ++ [body]) := by
  have hann : ofBytes ((Framing.frame body ++ tail).take 2) = body.length :=
    Framing.announced_frame hlen tail
  have htotal : (Framing.frame body ++ tail).length = body.length + 2 + tail.length := by
    rw [List.length_append, Framing.frame_length]
  have hbody : ((Framing.frame body ++ tail).drop 2).take body.length = body := by
    rw [Framing.frame, List.append_assoc, List.drop_left' (toBytes_length 2 _), List.take_left' rfl]
  have htail : (Framing.frame body ++ tail).drop (2 + body.length) = tail :=
    List.drop_left' (by rw [Framing.frame_length, Nat.add_comm])
  rw [splitLoop, if_pos (by omega)]
  dsimp only
  rw [hann, dif_neg (by omega), if_neg (fun h => h.1 rfl), hbody, htail]

/-- A file with an Add, an execution and a Replace, and two bytes behind them. -/
def wireFile : List UInt8 := [addBody, execBody, replaceBody].flatMap Framing.frame ++ [0, 0]

theorem splitMessages_wireFile : splitMessages wireFile 0 = [addBody, execBody, replaceBody] := by
  have hend (msgs : List (List UInt8)) : splitLoop 0 [0, 0] msgs = msgs := by
    rw [splitLoop, if_pos (by decide)]
    exact dif_pos (by decide)
  rw [splitMessages, wireFile, List.flatMap_cons, List.append_assoc,
    splitLoop_frame (by decide) (by decide), List.flatMap_cons, List.append_assoc,
    splitLoop_frame (by decide) (by decide), List.flatMap_cons, List.append_assoc,
    splitLoop_frame (by decide) (by decide)]
  exact hend _

/-- The driver of a model that has just been built. -/
def freshDriver : RtlDriver .simulation where
  top := ⟨.reset, default, ⟨default, { body := Vector.replicate 48 0 }⟩, {}, {}⟩
  mode := ⟨false, false⟩
  pins := .idle

theorem tbTop_passes_iff_wire : ∃ n, ∀ cap ≥ n, tbTop freshDriver wireFile 0 cap = some 0 := by
  have hmessages : messages (reserialize (splitMessages wireFile 0)) = wireMessages := by
    rw [splitMessages_wireFile]
    exact messages_bodies
  have hiff := tbTop_passes_iff freshDriver rfl wireFile (by decide) 0
    (by rw [hmessages]; exact followed_wire)
  refine hiff.1.1 ?_
  rw [splitMessages_wireFile]
  decide

end ItchOrderbook.Sim
