import ItchOrderbook.Rtl.UartBridgeSpec

/-!
# Runs of the bridge

The transmitter sends the frame of each snapshot it latched, and no snapshot is asked for while
one is sent. Over any run, what went to the ingest bus, the pulses, the error count and the number
of snapshots are those of the windows that were heard (`heard_inv`).
-/

namespace ItchOrderbook.Rtl

open Framing

/-! ## Transmitter -/

/-- The frame of a snapshot. -/
def snapFrame (payload : List UInt8) : List UInt8 :=
  0xA5 :: 0x5A :: 0x81 :: (payload ++ [(0x81 :: payload).sum])

namespace TxState

variable {s : TxState}

/-- The checksum of the snapshot that is held. -/
def total (s : TxState) : UInt8 := (0x81 :: s.snap.toList).sum

/-- The bytes of the frame that are still to be sent. -/
def toSend (s : TxState) : List UInt8 :=
  match s.ftx with
  | .idle => []
  | .mag0 => 0xA5 :: 0x5A :: 0x81 :: (s.snap.toList ++ [s.total])
  | .mag1 => 0x5A :: 0x81 :: (s.snap.toList ++ [s.total])
  | .type => 0x81 :: (s.snap.toList ++ [s.total])
  | .body => s.snap.toList.drop s.ftxCnt.toNat ++ [s.total]
  | .csum => [s.total]

/-- The cursor and the running sum agree. -/
def Sends (s : TxState) : Prop :=
  match s.ftx with
  | .body => s.ftxCnt.toNat < 128 ∧
      s.txCsum = (0x81 :: s.snap.toList.take s.ftxCnt.toNat).sum
  | .csum => s.txCsum = s.total
  | _ => True

/-- The frame that a cycle latches. -/
def latched (s : TxState) (snapGo : Bool) (v : BookView) (frameErr : UInt32) : List UInt8 :=
  if snapGo && !s.snapBusy then snapFrame (snapNow v frameErr) else []

theorem latched_of_busy (h : s.ftx ≠ .idle) (snapGo : Bool) (v : BookView) (frameErr : UInt32) :
    s.latched snapGo v frameErr = [] := by
  have hbusy : s.snapBusy = true := decide_eq_true h
  rw [latched, hbusy, Bool.not_true, Bool.and_false]
  rfl

theorem step_of_busy (h : s.ftx ≠ .idle) (snapGo txBusy : Bool) (v : BookView) (frameErr : UInt32) :
    s.step snapGo txBusy v frameErr = if (s.txb txBusy).isSome then s.advance else s.fresh := by
  unfold TxState.step
  split
  · exact absurd ‹_› h
  · rfl

/-- A byte of the snapshot goes out: it heads what is left, and the sum takes it in. -/
theorem snapByte_cons (h : s.ftxCnt.toNat < 128) :
    s.snap.toList.drop s.ftxCnt.toNat =
        s.snapByte :: s.snap.toList.drop (s.ftxCnt.toNat + 1) ∧
      s.snap.toList.take (s.ftxCnt.toNat + 1) =
        s.snap.toList.take s.ftxCnt.toNat ++ [s.snapByte] := by
  have hlt : s.ftxCnt.toNat < s.snap.toList.length := by rwa [Vector.length_toList]
  have hget : s.snap.toList[s.ftxCnt.toNat] = s.snapByte := by
    rw [snapByte]
    simp [h]
  rw [List.drop_eq_getElem_cons hlt, List.take_succ_eq_append_getElem hlt, hget]
  exact ⟨rfl, rfl⟩

theorem toSend_body (hp : s.ftx = .body) :
    s.toSend = s.snap.toList.drop s.ftxCnt.toNat ++ [s.total] := by rw [toSend, hp]

theorem sends_body (hp : s.ftx = .body) : s.Sends ↔ s.ftxCnt.toNat < 128 ∧
    s.txCsum = (0x81 :: s.snap.toList.take s.ftxCnt.toNat).sum := by rw [Sends, hp]

/-- A byte of the snapshot that goes out. -/
theorem Sends.advance_body (hs : s.Sends) (hp : s.ftx = .body) :
    s.advance.Sends ∧ s.snapByte :: s.advance.toSend = s.toSend := by
  obtain ⟨hcnt, hsum⟩ := (sends_body hp).1 hs
  obtain ⟨hdrop, htake⟩ := snapByte_cons hcnt
  have hsum' : s.txCsum + s.snapByte =
      (0x81 :: s.snap.toList.take (s.ftxCnt.toNat + 1)).sum := by
    rw [htake, ← List.cons_append, List.sum_append, List.sum_singleton, hsum]
  have hadvance : s.advance = if s.ftxCnt = 127
      then { s.fresh with txCsum := s.txCsum + s.snapByte, ftx := .csum }
      else { s.fresh with txCsum := s.txCsum + s.snapByte, ftxCnt := s.ftxCnt + 1 } := by
    rw [TxState.advance, hp]
  rw [hadvance, toSend_body hp, hdrop]
  split
  · -- the last byte: the checksum is all that is left
    rename_i hlast
    have hfull : s.ftxCnt.toNat + 1 = s.snap.toList.length := by
      rw [Vector.length_toList, hlast]
      rfl
    rw [hfull, List.take_length] at hsum'
    rw [hfull, List.drop_length]
    exact ⟨hsum', rfl⟩
  · rename_i hlast
    have hnext : (s.ftxCnt + 1).toNat = s.ftxCnt.toNat + 1 := by
      have hne : s.ftxCnt.toNat ≠ 127 := fun h => hlast (UInt8.toNat_inj.mp h)
      rw [UInt8.toNat_add]
      show (s.ftxCnt.toNat + 1) % 256 = _
      omega
    have hlt : (s.ftxCnt + 1).toNat < 128 := by
      have hne : s.ftxCnt.toNat ≠ 127 := fun h => hlast (UInt8.toNat_inj.mp h)
      omega
    rw [← hnext] at hsum' ⊢
    refine ⟨(sends_body ?_).2 ⟨hlt, hsum'⟩, ?_⟩
    · exact hp
    · rw [toSend_body]
      · rfl
      · exact hp

/-- A byte that goes out leaves the rest of the frame. -/
theorem Sends.advance (hs : s.Sends) {b : UInt8} (hb : s.txb false = some b) :
    s.advance.Sends ∧ b :: s.advance.toSend = s.toSend := by
  rw [txb, if_neg Bool.false_ne_true] at hb
  cases hp : s.ftx with
  | body =>
    rw [hp] at hb
    cases hb
    exact hs.advance_body hp
  | idle =>
    rw [hp] at hb
    cases hb
  | mag0 =>
    rw [hp] at hb
    cases hb
    have hadvance : s.advance = { s.fresh with ftx := .mag1 } := by rw [TxState.advance, hp]
    have hto : s.toSend = 0xA5 :: 0x5A :: 0x81 :: (s.snap.toList ++ [s.total]) := by
      rw [toSend, hp]
    rw [hadvance, hto]
    exact ⟨trivial, rfl⟩
  | mag1 =>
    rw [hp] at hb
    cases hb
    have hadvance : s.advance = { s.fresh with ftx := .type, txCsum := 0 } := by
      rw [TxState.advance, hp]
    have hto : s.toSend = 0x5A :: 0x81 :: (s.snap.toList ++ [s.total]) := by rw [toSend, hp]
    rw [hadvance, hto]
    exact ⟨trivial, rfl⟩
  | type =>
    rw [hp] at hb
    cases hb
    have hadvance : s.advance = { s.fresh with txCsum := 0x81, ftxCnt := 0, ftx := .body } := by
      rw [TxState.advance, hp]
    have hto : s.toSend = 0x81 :: (s.snap.toList ++ [s.total]) := by rw [toSend, hp]
    rw [hadvance, hto]
    exact ⟨⟨Nat.zero_lt_succ 127, List.sum_singleton.symm⟩, rfl⟩
  | csum =>
    rw [hp] at hb
    cases hb
    have hadvance : s.advance = { s.fresh with txFramePulse := true, ftx := .idle } := by
      rw [TxState.advance, hp]
    have hto : s.toSend = [s.total] := by rw [toSend, hp]
    have hsum : s.txCsum = s.total := by rwa [Sends, hp] at hs
    rw [hadvance, hto, hsum]
    exact ⟨trivial, rfl⟩

/-- One cycle of the transmitter: what goes out heads what is still to be sent, and behind that
comes the frame that is latched. -/
theorem Sends.step (hs : s.Sends) (snapGo txBusy : Bool) (v : BookView) (frameErr : UInt32) :
    (s.step snapGo txBusy v frameErr).Sends ∧
      (s.txb txBusy).toList ++ (s.step snapGo txBusy v frameErr).toSend =
        s.toSend ++ s.latched snapGo v frameErr := by
  by_cases hp : s.ftx = .idle
  case pos =>
    have hstep : s.step snapGo txBusy v frameErr =
        if snapGo then s.latch v frameErr else s.fresh := by
      unfold TxState.step
      rw [hp]
    have hnone : s.txb txBusy = none := by
      rw [txb, hp]
      exact ite_self _
    have hidle : s.snapBusy = false := decide_eq_false (not_not_intro hp)
    have hto : s.toSend = [] := by rw [toSend, hp]
    rw [hstep, hnone, hto, latched, hidle]
    cases snapGo with
    | true =>
      have hsnap : (s.latch v frameErr).snap.toList = snapNow v frameErr := rfl
      refine ⟨trivial, ?_⟩
      show 0xA5 :: 0x5A :: 0x81 :: ((s.latch v frameErr).snap.toList ++
        [(0x81 :: (s.latch v frameErr).snap.toList).sum]) = _
      rw [hsnap]
      rfl
    | false =>
      refine ⟨hs, ?_⟩
      show s.toSend = []
      exact hto
  case neg =>
    rw [step_of_busy hp, latched_of_busy hp, List.append_nil]
    cases hb : s.txb txBusy with
    | none => exact ⟨hs, rfl⟩
    | some b =>
      -- a byte goes out only while the serial transmitter is free
      obtain rfl : txBusy = false := by
        cases txBusy with
        | false => rfl
        | true => exact absurd hb nofun
      exact hs.advance hb

end TxState

/-! ## What is seen of the bridge -/

namespace BridgeEvent

/-- The bytes given to the ingest bus. -/
def ingested : BridgeEvent → List UInt8
  | .ingest b => b.bytes
  | _ => []

/-- The base of a pulse. -/
def pulsed : BridgeEvent → List UInt32
  | .setBand base => [base]
  | _ => []

/-- What a latched snapshot holds. -/
def latched : BridgeEvent → List (BookView × UInt32)
  | .latch v frameErr => [(v, frameErr)]
  | _ => []

/-- The bytes handed to the serial transmitter. -/
def sent : BridgeEvent → List UInt8
  | .send b => [b]
  | _ => []

end BridgeEvent

/-- The frame of what was latched. -/
def latchFrame (l : BookView × UInt32) : List UInt8 := snapFrame (snapNow l.1 l.2)

/-- The verdicts on what was heard since reset. -/
def verdicts (heard : List UInt8) : List Verdict := (linkWindows .idle heard).map verdict

theorem verdicts_append (xs ys : List UInt8) :
    verdicts (xs ++ ys) = verdicts xs ++ (linkWindows (linkAfter .idle xs) ys).map verdict := by
  rw [verdicts, linkWindows, Hunt.windows_append, List.map_append]
  rfl

namespace BridgeState

variable {s : BridgeState}

/-- The events of a cycle, kind by kind. -/
theorem flatMap_events {β : Type*} (f : BridgeEvent → List β) (s : BridgeState) (i : BridgeIn) :
    (s.events i).flatMap f =
      (if s.rx.inValid && i.inReady then f (.ingest s.rx.inBeat) else []) ++
      (if s.rx.bandCfgValid then f (.setBand s.rx.bandCfgBase) else []) ++
      (if s.rx.snapGo && !s.tx.snapBusy then f (.latch i.book s.rx.frameErr) else []) ++
      (s.tx.txb i.txBusy).toList.flatMap fun b => f (.send b) := by
  have hite (c : Bool) (e : BridgeEvent) :
      (if c then [e] else []).flatMap f = if c then f e else [] := by
    cases c with
    | false => rfl
    | true => exact List.flatMap_singleton ..
  rw [events, List.flatMap_append, List.flatMap_append, List.flatMap_append, hite, hite, hite,
    List.flatMap_map]

theorem ingested_events (s : BridgeState) (i : BridgeIn) :
    (s.events i).flatMap BridgeEvent.ingested = s.rx.feeds i.inReady := by
  rw [flatMap_events]
  simp [BridgeEvent.ingested, RxState.feeds]

theorem pulsed_events (s : BridgeState) (i : BridgeIn) :
    (s.events i).flatMap BridgeEvent.pulsed = s.rx.toPulse := by
  rw [flatMap_events]
  simp [BridgeEvent.pulsed, RxState.toPulse]

theorem latched_events (s : BridgeState) (i : BridgeIn) :
    (s.events i).flatMap BridgeEvent.latched =
      if s.rx.snapGo && !s.tx.snapBusy then [(i.book, s.rx.frameErr)] else [] := by
  rw [flatMap_events]
  simp [BridgeEvent.latched]

theorem sent_events (s : BridgeState) (i : BridgeIn) :
    (s.events i).flatMap BridgeEvent.sent = (s.tx.txb i.txBusy).toList := by
  rw [flatMap_events]
  simp [BridgeEvent.sent]

/-- While a snapshot is asked for or sent the receiver waits. -/
structure Handshake (s : BridgeState) : Prop where
  go : s.rx.snapGo = true → s.rx.frx = .snap ∧ s.tx.ftx = .idle
  busy : s.tx.ftx ≠ .idle → s.rx.frx = .snap

/-- What a run from reset has brought about, by what was heard. -/
structure Heard (s : BridgeState) (heard : List UInt8) (out : List BridgeEvent) : Prop where
  stands : s.rx.Stands (linkAfter .idle heard)
  fed : out.flatMap BridgeEvent.ingested ++ s.rx.toFeed = (verdicts heard).flatMap Verdict.fed
  pulsed : out.flatMap BridgeEvent.pulsed ++ s.rx.toPulse = (verdicts heard).filterMap Verdict.base
  errs : s.rx.frameErr = UInt32.ofNat ((verdicts heard).countP Verdict.isBad)
  asked : (out.flatMap BridgeEvent.latched).length + s.rx.snapGo.toNat =
    (verdicts heard).countP Verdict.isSnap
  sends : s.tx.Sends
  sent : out.flatMap BridgeEvent.sent ++ s.tx.toSend =
    (out.flatMap BridgeEvent.latched).flatMap latchFrame
  handshake : s.Handshake

theorem heard_reset (s : BridgeState) : Heard s.reset [] [] where
  stands := rfl
  fed := rfl
  pulsed := rfl
  errs := rfl
  asked := rfl
  sends := trivial
  sent := rfl
  handshake := ⟨nofun, fun h => absurd rfl h⟩

theorem Handshake.step (hs : s.Handshake) {h : Hunt UInt8} (hstands : s.rx.Stands h)
    (i : BridgeIn) : (s.step i).Handshake := by
  have hgo := (hstands.step i.rxb i.inReady s.tx.snapBusy).2.2
  constructor
  · intro h'
    obtain ⟨hcsum, hsnap⟩ := hgo h'
    -- a snapshot is asked for by a receiver that listens, and then the transmitter rests
    have hidle : s.tx.ftx = .idle := by
      by_contra hne
      exact absurd (hcsum.symm.trans (hs.busy hne)) nofun
    have hnogo : s.rx.snapGo = false := by
      cases hg : s.rx.snapGo with
      | false => rfl
      | true => exact absurd (hcsum.symm.trans (hs.go hg).1) nofun
    refine ⟨hsnap, ?_⟩
    show (s.tx.step s.rx.snapGo i.txBusy i.book s.rx.frameErr).ftx = _
    unfold TxState.step
    rw [hidle, hnogo]
    exact hidle
  · intro hbusy
    have hwait : (!s.tx.snapBusy && !s.rx.snapGo) = false ∧ s.rx.frx = .snap := by
      by_cases hne : s.tx.ftx = .idle
      case neg => exact ⟨by rw [TxState.snapBusy, decide_eq_true hne]; rfl, hs.busy hne⟩
      case pos =>
        cases hg : s.rx.snapGo with
        | true => exact ⟨Bool.and_false _, (hs.go hg).1⟩
        | false =>
          refine absurd ?_ hbusy
          show (s.tx.step s.rx.snapGo i.txBusy i.book s.rx.frameErr).ftx = _
          unfold TxState.step
          rw [hne, hg]
          exact hne
    show (s.rx.step i.rxb i.inReady s.tx.snapBusy).frx = _
    rw [RxState.step_snap hwait.2, hwait.1]
    exact hwait.2

/-- One cycle. -/
theorem Heard.step {heard : List UInt8} {out : List BridgeEvent} (hs : Heard s heard out)
    (i : BridgeIn) :
    Heard (s.step i) (heard ++ bridge.taken s i) (out ++ bridge.given s i) := by
  obtain ⟨hstands, hfed, hpulsed, herrs, hasked, hsends, hsent, hhand⟩ := hs
  obtain ⟨hrx, hmoves, hgo⟩ := hstands.step i.rxb i.inReady s.tx.snapBusy
  obtain ⟨htx, hbytes⟩ := hsends.step s.rx.snapGo i.txBusy i.book s.rx.frameErr
  have hlatch : (s.tx.latched s.rx.snapGo i.book s.rx.frameErr) =
      ((s.events i).flatMap BridgeEvent.latched).flatMap latchFrame := by
    rw [latched_events, TxState.latched]
    split
    · exact (List.append_nil _).symm
    · rfl
  -- while a snapshot is asked for the transmitter rests, so it is latched now
  have hcount : ((s.events i).flatMap BridgeEvent.latched).length = s.rx.snapGo.toNat := by
    rw [latched_events]
    cases hg : s.rx.snapGo with
    | false => rfl
    | true =>
      have hidle : s.tx.snapBusy = false := decide_eq_false (not_not_intro (hhand.go hg).2)
      rw [hidle]
      rfl
  have hheard : bridge.taken s i = s.rx.heard i.rxb := rfl
  have hgiven : bridge.given s i = s.events i := rfl
  rw [hheard, hgiven]
  constructor
  · rw [linkAfter, Hunt.after_append]
    exact hrx
  · rw [List.flatMap_append, ingested_events, verdicts_append, List.flatMap_append,
      List.append_assoc, show (s.step i).rx.toFeed = _ from rfl, ← hfed, List.append_assoc]
    exact congrArg _ hmoves.feed
  · rw [List.flatMap_append, pulsed_events, verdicts_append, List.filterMap_append, hpulsed]
    exact congrArg _ hmoves.pulse
  · rw [verdicts_append, List.countP_append, UInt32.ofNat_add, ← herrs]
    exact hmoves.errs
  · rw [List.flatMap_append, List.length_append, hcount, hasked, verdicts_append,
      List.countP_append]
    exact congrArg _ hmoves.snap
  · exact htx
  · rw [List.flatMap_append, sent_events, List.flatMap_append, List.flatMap_append, ← hlatch,
      ← hsent, List.append_assoc, List.append_assoc]
    exact congrArg _ hbytes
  · exact hhand.step hstands i

/-- Every run from reset. -/
theorem heard_inv (s : BridgeState) (is : List BridgeIn) :
    Heard (bridge.run s.reset is) (bridge.allTaken s.reset is) (bridge.allGiven s.reset is) := by
  have hstep (s : BridgeState) (heard : List UInt8) (out : List BridgeEvent) (i : BridgeIn)
      (_ : ∀ b ∈ bridge.taken s i, True) (h : Heard s heard out) :
      Heard (bridge.step s i) (heard ++ bridge.taken s i) (out ++ bridge.given s i) := h.step i
  have h := StreamMachine.run_inv hstep (heard_reset s) is fun _ _ => trivial
  rwa [List.nil_append, List.nil_append] at h

/-! ## Quiet runs -/

/-- The bytes that arrive. -/
def arrived (is : List BridgeIn) : List UInt8 := is.filterMap BridgeIn.rxb

/-- No byte arrives while a message is fed or a snapshot is answered. -/
def Quiet (s : BridgeState) : List BridgeIn → Prop
  | [] => True
  | i :: is => (s.rx.Listens ∨ i.rxb = none) ∧ Quiet (s.step i) is

/-- Then every byte is heard. -/
theorem Quiet.heard {is : List BridgeIn} (h : Quiet s is) :
    bridge.allTaken s is = arrived is := by
  induction is generalizing s with
  | nil => rfl
  | cons i is ih =>
    obtain ⟨hnow, hrest⟩ := h
    have htaken : bridge.taken s i = i.rxb.toList := by
      show s.rx.heard i.rxb = _
      rcases hnow with hl | hnone
      · exact (RxState.step_listens hl i.rxb i.inReady s.tx.snapBusy).2
      · rw [hnone, RxState.heard]
        split <;> rfl
    rw [StreamMachine.allTaken, htaken]
    show _ ++ bridge.allTaken (s.step i) is = _
    rw [ih hrest, arrived, arrived, List.filterMap_cons]
    cases i.rxb <;> rfl

/-- Cycles without a byte are quiet. -/
theorem Quiet.of_silent {is : List BridgeIn} (h : arrived is = []) : Quiet s is := by
  induction is generalizing s with
  | nil => trivial
  | cons i is ih =>
    cases hi : i.rxb with
    | some b =>
      rw [arrived, List.filterMap_cons, hi] at h
      exact absurd h (List.cons_ne_nil _ _)
    | none =>
      rw [arrived, List.filterMap_cons, hi] at h
      exact ⟨.inr hi, ih h⟩

theorem Quiet.append {is js : List BridgeIn} (h : Quiet s is) (hjs : Quiet (bridge.run s is) js) :
    Quiet s (is ++ js) := by
  induction is generalizing s with
  | nil => exact hjs
  | cons i is ih => exact ⟨h.1, ih h.2 hjs⟩

theorem arrived_append (is js : List BridgeIn) : arrived (is ++ js) = arrived is ++ arrived js :=
  List.filterMap_append ..

instance decidableQuiet (s : BridgeState) : ∀ is, Decidable (Quiet s is)
  | [] => isTrue trivial
  | i :: is =>
    have := decidableQuiet (s.step i) is
    inferInstanceAs (Decidable ((s.rx.Listens ∨ i.rxb = none) ∧ _))

/-! ## The feeder runs out -/

/-- A cycle without a byte leaves one byte less to feed, if the ingest bus is ready. -/
theorem toFeed_step {h : Hunt UInt8} (hs : s.rx.Stands h) (i : BridgeIn)
    (hnone : bridge.taken s i = []) :
    (s.step i).rx.Stands h ∧
      (s.step i).rx.toFeed.length ≤ s.rx.toFeed.length - if i.inReady then 1 else 0 := by
  have hheard : s.rx.heard i.rxb = [] := hnone
  obtain ⟨hstands, hmoves, -⟩ := hs.step i.rxb i.inReady s.tx.snapBusy
  rw [hheard] at hstands hmoves
  refine ⟨hstands, ?_⟩
  have hlen := congrArg List.length hmoves.feed
  rw [List.length_append, List.length_append, RxState.feeds] at hlen
  change _ = _ + 0 at hlen
  show (s.rx.step i.rxb i.inReady s.tx.snapBusy).toFeed.length ≤ _
  by_cases hp : s.rx.frx = .feed
  case neg =>
    rw [RxState.toFeed_of_ne hp] at hlen ⊢
    rw [List.length_nil] at hlen
    omega
  case pos =>
    have hvalid : s.rx.inValid = true := decide_eq_true hp
    rw [hvalid] at hlen
    cases hr : i.inReady with
    | false =>
      rw [hr] at hlen
      change 0 + _ = _ at hlen
      rw [if_neg Bool.false_ne_true]
      omega
    | true =>
      rw [hr] at hlen
      change s.rx.inBeat.bytes.length + _ = _ at hlen
      rw [RxState.inBeat_bytes, List.length_singleton] at hlen
      rw [if_pos rfl]
      omega

/-- A message has at most 48 bytes. -/
theorem toFeed_length_le (s : RxState) : s.toFeed.length ≤ 48 := by
  rw [RxState.toFeed]
  split
  · rw [List.length_drop, List.length_take, Vector.length_toList]
    omega
  · exact Nat.zero_le _

/-- After 48 ready cycles without a byte nothing is left to feed. -/
theorem fed_out {h : Hunt UInt8} (hs : s.rx.Stands h) {is : List BridgeIn}
    (hnone : bridge.allTaken s is = []) (hready : 48 ≤ is.countP BridgeIn.inReady) :
    (bridge.run s is).rx.toFeed = [] := by
  have hok (s : BridgeState) (i : BridgeIn) (hs : s.rx.Stands h) (hn : bridge.taken s i = []) :
      (bridge.step s i).rx.Stands h := (toFeed_step hs i hn).1
  have hrank (s : BridgeState) (i : BridgeIn) (hs : s.rx.Stands h) (hn : bridge.taken s i = []) :
      (bridge.step s i).rx.toFeed.length ≤ s.rx.toFeed.length - if i.inReady then 1 else 0 :=
    (toFeed_step hs i hn).2
  have hrun := @StreamMachine.rank_run _ _ _ _ bridge (fun s => s.rx.Stands h)
    (fun s => s.rx.toFeed.length) BridgeIn.inReady hok hrank s hs is hnone
  have hle := toFeed_length_le s.rx
  apply List.eq_nil_of_length_eq_zero
  omega

/-- A pulse ends with the cycle. -/
theorem pulsed_out {h : Hunt UInt8} (hs : s.rx.Stands h) {is : List BridgeIn} (hne : is ≠ [])
    (hnone : bridge.allTaken s is = []) : (bridge.run s is).rx.toPulse = [] := by
  induction is generalizing s with
  | nil => exact absurd rfl hne
  | cons i is ih =>
    obtain ⟨hnow, hrest⟩ := List.append_eq_nil_iff.mp hnone
    obtain ⟨hstands, -⟩ := toFeed_step hs i hnow
    cases is with
    | cons j js => exact ih hstands (List.cons_ne_nil _ _) hrest
    | nil =>
      have hheard : s.rx.heard i.rxb = [] := hnow
      have hmoves := (hs.step i.rxb i.inReady s.tx.snapBusy).2.1
      rw [hheard] at hmoves
      exact hmoves.pulse

end BridgeState

end ItchOrderbook.Rtl
