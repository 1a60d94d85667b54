import ItchOrderbook.Lib.Framing
import ItchOrderbook.Lib.PreambleHunt
import ItchOrderbook.Rtl.UartBridge
import Mathlib.Algebra.BigOperators.Group.List.Basic
import Mathlib.Data.UInt
import Mathlib.Tactic.IntervalCases

/-!
# What the bridge makes of the line

The receiver hunts windows of 50 bytes behind the preamble, and each window has a verdict. What
the feeder still holds, the pulse that stands and the error count follow from the verdicts so far
(`Stands.step`); the transmitter sends the frame of each snapshot it latched (`Sends.step`).
-/

namespace ItchOrderbook.Rtl

open BigEndian Framing

/-! ## Windows and their verdicts -/

/-- Where the receiver stands after some bytes. -/
abbrev linkAfter (h : Hunt UInt8) (bs : List UInt8) : Hunt UInt8 := Hunt.after 0xA5 0x5A 50 h bs

/-- The windows some bytes complete: type, payload and checksum. -/
abbrev linkWindows (h : Hunt UInt8) (bs : List UInt8) : List (List UInt8) :=
  Hunt.windows 0xA5 0x5A 50 h bs

/-- What becomes of a window. -/
inductive Verdict where
  | bad
  | itch (body : List UInt8)
  | snap
  | band (base : UInt32)
  deriving DecidableEq

/-- The verdict on type, payload and checksum. -/
def verdictOn (t : UInt8) (pay : List UInt8) (c : UInt8) : Verdict :=
  if c ≠ (t :: pay).sum then .bad
  else if t = tItch then
    if announced pay = 0 ∨ 46 < announced pay then .bad else .itch ((pay.drop 2).take (announced pay))
  else if t = tSnap then .snap
  else if t = tBand then .band (UInt32.ofNat (LittleEndian.ofBytes (pay.take 4)))
  else .bad

/-- The verdict on a window. -/
def verdict : List UInt8 → Verdict
  | [] => .bad
  | t :: rest => verdictOn t rest.dropLast (rest.getLastD 0)

@[simp] theorem verdict_window (t : UInt8) (pay : List UInt8) (c : UInt8) :
    verdict (t :: (pay ++ [c])) = verdictOn t pay c := by
  rw [verdict, List.dropLast_concat, List.getLastD_concat]

namespace Verdict

/-- The message that is fed. -/
def fed : Verdict → List UInt8
  | .itch body => frame body
  | _ => []

/-- The base that is pulsed. -/
def base : Verdict → Option UInt32
  | .band b => some b
  | _ => none

def isBad : Verdict → Bool
  | .bad => true
  | _ => false

def isSnap : Verdict → Bool
  | .snap => true
  | _ => false

end Verdict

/-- The payload of an accepted message begins with the message. -/
theorem take_payload {pay : List UInt8} (hlen : pay.length = 48) (hle : announced pay ≤ 46) :
    pay.take (announced pay + 2) = frame ((pay.drop 2).take (announced pay)) := by
  have hbody : ((pay.drop 2).take (announced pay)).length = announced pay := by
    rw [List.length_take, List.length_drop]
    omega
  have hprefix : toBytes 2 (announced pay) = pay.take 2 := by
    have h := toBytes_ofBytes (pay.take 2)
    rwa [List.length_take_of_le (by omega)] at h
  rw [frame, hbody, hprefix, Nat.add_comm, List.take_add]

/-! ## Receiver -/

/-- The beat with one byte. -/
def byteBeat (b : UInt8) : Beat where
  data := Vector.ofFn fun i => if i.val = 0 then b else 0
  nbytes := 1

theorem byteBeat_bytes (b : UInt8) : (byteBeat b).bytes = [b] := by
  rw [Beat.bytes]
  show (Vector.ofFn _).toList.take 1 = _
  simp [Vector.toList_ofFn, List.ofFn_succ]

namespace RxState

/-- The part of a window that is received while the payload comes in. -/
def got (s : RxState) : List UInt8 := s.ftype :: s.pay.toList.take s.frxCnt.toNat

/-- Type and payload. -/
def window (s : RxState) : List UInt8 := s.ftype :: s.pay.toList

/-- The bytes of a message the feeder still has to give. -/
def toFeed (s : RxState) : List UInt8 :=
  if s.frx = .feed then (s.pay.toList.take s.feedLen.toNat).drop s.feedIdx.toNat else []

/-- The base whose pulse stands. -/
def toPulse (s : RxState) : List UInt32 := if s.bandCfgValid then [s.bandCfgBase] else []

/-- The registers agree with where the hunt stands. -/
def Stands (s : RxState) (h : Hunt UInt8) : Prop :=
  match s.frx with
  | .mag0 => h = .idle
  | .mag1 => h = .half
  | .type => h = .inside []
  | .body => s.frxCnt.toNat < 48 ∧ h = .inside s.got ∧ s.csum = s.got.sum
  | .csum => h = .inside s.window ∧ s.csum = s.window.sum
  | .feed => h = .idle ∧ s.feedIdx.toNat < s.feedLen.toNat ∧ s.feedLen.toNat ≤ 48
  | .snap => h = .idle

/-- What a cycle with the verdicts `vs` does: `fed` is what the feeder gives in it. -/
structure Moves (s s' : RxState) (fed : List UInt8) (vs : List Verdict) : Prop where
  feed : fed ++ s'.toFeed = s.toFeed ++ vs.flatMap Verdict.fed
  pulse : s'.toPulse = vs.filterMap Verdict.base
  errs : s'.frameErr = s.frameErr + UInt32.ofNat (vs.countP Verdict.isBad)
  snap : s'.snapGo.toNat = vs.countP Verdict.isSnap

/-- A receiver that only moves on along the frame. -/
structure Hunts (s s' : RxState) : Prop where
  notFeed : s'.frx ≠ .feed
  notSnap : s'.frx ≠ .snap
  noPulse : s'.bandCfgValid = false
  noGo : s'.snapGo = false
  errs : s'.frameErr = s.frameErr

theorem toFeed_of_ne {s : RxState} (h : s.frx ≠ .feed) : s.toFeed = [] := if_neg h

theorem Hunts.moves {s s' : RxState} (h : Hunts s s') (hs : s.frx ≠ .feed) : Moves s s' [] [] where
  feed := by rw [toFeed_of_ne h.notFeed, toFeed_of_ne hs]; rfl
  pulse := by rw [toPulse, h.noPulse]; rfl
  errs := h.errs.trans (UInt32.add_zero _).symm
  snap := by rw [h.noGo]; rfl

variable {s : RxState} {h : Hunt UInt8}

theorem stands_mag0 (hp : s.frx = .mag0) : s.Stands h ↔ h = .idle := by rw [Stands, hp]

theorem stands_mag1 (hp : s.frx = .mag1) : s.Stands h ↔ h = .half := by rw [Stands, hp]

theorem stands_type (hp : s.frx = .type) : s.Stands h ↔ h = .inside [] := by rw [Stands, hp]

theorem stands_body (hp : s.frx = .body) :
    s.Stands h ↔ s.frxCnt.toNat < 48 ∧ h = .inside s.got ∧ s.csum = s.got.sum := by
  rw [Stands, hp]

theorem stands_csum (hp : s.frx = .csum) :
    s.Stands h ↔ h = .inside s.window ∧ s.csum = s.window.sum := by rw [Stands, hp]

theorem stands_feed (hp : s.frx = .feed) :
    s.Stands h ↔ h = .idle ∧ s.feedIdx.toNat < s.feedLen.toNat ∧ s.feedLen.toNat ≤ 48 := by
  rw [Stands, hp]

theorem stands_snap (hp : s.frx = .snap) : s.Stands h ↔ h = .idle := by rw [Stands, hp]

/-- The payload with one more byte. -/
theorem take_setIfInBounds {k : ℕ} (hk : k < 48) (pay : Vector UInt8 48) (b : UInt8) :
    (pay.setIfInBounds k b).toList.take (k + 1) = pay.toList.take k ++ [b] := by
  have hlen : k < (pay.setIfInBounds k b).toList.length := by
    rw [Vector.length_toList]
    exact hk
  rw [List.take_succ_eq_append_getElem hlen]
  congr 1
  · rw [Vector.toList_setIfInBounds, List.take_set_of_le (Nat.le_refl k)]
  · simp [Vector.toList_setIfInBounds]

/-- A byte before the checksum moves the receiver along the hunt, and no window is complete. -/
theorem Stands.receive (hs : s.Stands h) (hfeed : s.frx ≠ .feed) (hsnap : s.frx ≠ .snap)
    (hcsum : s.frx ≠ .csum) (b : UInt8) :
    (s.receive s.fresh b).Stands (h.next 0xA5 0x5A 50 b) ∧ h.complete 50 b = [] ∧
      Hunts s (s.receive s.fresh b) := by
  cases hp : s.frx with
  | feed => exact absurd hp hfeed
  | snap => exact absurd hp hsnap
  | csum => exact absurd hp hcsum
  | mag0 =>
    obtain rfl := (stands_mag0 hp).1 hs
    rw [RxState.receive, hp]
    show Stands (if b = 0xA5 then _ else _) (if b = 0xA5 then _ else _) ∧ _
    split
    · exact ⟨rfl, rfl, ⟨fun h => (by cases h), fun h => (by cases h), rfl, rfl, rfl⟩⟩
    · exact ⟨(stands_mag0 hp).2 rfl, rfl, ⟨hfeed, hsnap, rfl, rfl, rfl⟩⟩
  | mag1 =>
    obtain rfl := (stands_mag1 hp).1 hs
    rw [RxState.receive, hp]
    show Stands (if b = 0x5A then _ else _) (if b = 0x5A then _ else if b = 0xA5 then _ else _) ∧ _
    split
    · exact ⟨rfl, rfl, ⟨fun h => (by cases h), fun h => (by cases h), rfl, rfl, rfl⟩⟩
    · split
      · exact ⟨rfl, rfl, ⟨fun h => (by cases h), fun h => (by cases h), rfl, rfl, rfl⟩⟩
      · exact ⟨rfl, rfl, ⟨fun h => (by cases h), fun h => (by cases h), rfl, rfl, rfl⟩⟩
  | type =>
    obtain rfl := (stands_type hp).1 hs
    rw [RxState.receive, hp]
    refine ⟨⟨?_, ?_, ?_⟩, rfl, ⟨fun h => (by cases h), fun h => (by cases h), rfl, rfl, rfl⟩⟩
    · show 0 < 48
      decide
    · rfl
    · show b = [b].sum
      exact (List.sum_singleton).symm
  | body =>
    obtain ⟨hcnt, rfl, hsum⟩ := (stands_body hp).1 hs
    have hlen : s.got.length = s.frxCnt.toNat + 1 := by
      rw [got, List.length_cons, List.length_take, Vector.length_toList]
      omega
    have hne : s.got.length + 1 ≠ 50 := by omega
    have hgot : s.ftype :: (s.pay.setIfInBounds s.frxCnt.toNat b).toList.take (s.frxCnt.toNat + 1) =
        s.got ++ [b] := by rw [take_setIfInBounds hcnt, got, List.cons_append]
    have hsum' : s.csum + b = (s.got ++ [b]).sum := by
      rw [List.sum_append, List.sum_singleton, hsum]
    rw [Hunt.next, Hunt.complete, if_neg hne, if_neg hne, RxState.receive, hp]
    show Stands (if s.frxCnt = 47 then _ else _) _ ∧ _
    split
    · -- the 48th byte: the window is all there but for the checksum
      rename_i hlast
      have hfull : (s.pay.setIfInBounds s.frxCnt.toNat b).toList.take (s.frxCnt.toNat + 1) =
          (s.pay.setIfInBounds s.frxCnt.toNat b).toList := by
        rw [List.take_of_length_le]
        rw [Vector.length_toList, hlast]
        decide
      rw [hfull] at hgot
      rw [← hgot] at hsum' ⊢
      exact ⟨⟨rfl, hsum'⟩, rfl, ⟨fun h => (by cases h), fun h => (by cases h), rfl, rfl, rfl⟩⟩
    · rename_i hlast
      have hnat : s.frxCnt.toNat ≠ 47 := fun heq => hlast (BitVec.eq_of_toNat_eq heq)
      have hcnt' : (s.frxCnt + 1).toNat = s.frxCnt.toNat + 1 := by
        rw [BitVec.toNat_add]
        show (s.frxCnt.toNat + 1) % 64 = _
        omega
      rw [← hcnt'] at hgot
      rw [← hgot] at hsum' ⊢
      have hlt : (s.frxCnt + 1).toNat < 48 := by omega
      refine ⟨(stands_body ?_).2 ⟨hlt, rfl, hsum'⟩, rfl, ⟨hfeed, hsnap, rfl, rfl, rfl⟩⟩
      exact hp

/-! ### The checksum byte -/

/-- The first bytes of a payload. -/
theorem take_four {n : ℕ} (h : 4 ≤ n) (pay : Vector UInt8 n) :
    pay.toList.take 4 = [pay[0], pay[1], pay[2], pay[3]] := by
  apply List.ext_getElem
  · rw [List.length_take, Vector.length_toList, Nat.min_eq_left h]
    rfl
  · intro i hi hi'
    have hlt : i < 4 := hi'
    interval_cases i
    · simp
    · simp
    · simp
    · simp

theorem itchLen_toNat (s : RxState) : s.itchLen.toNat = announced s.pay.toList := by
  have htake : s.pay.toList.take 2 = [s.pay[0], s.pay[1]] := by
    have h : (s.pay.toList.take 4).take 2 = s.pay.toList.take 2 := List.take_take
    rw [← h, take_four (by decide)]
    rfl
  rw [itchLen, word16_toNat, announced, htake]

/-- The base of a band frame is sent lowest byte first. -/
theorem bandBase_eq {n : ℕ} (h : 4 ≤ n) (pay : Vector UInt8 n) :
    word32 pay[3] pay[2] pay[1] pay[0] =
      UInt32.ofNat (LittleEndian.ofBytes (pay.toList.take 4)) := by
  have hrev (a b c d : UInt8) : ofBytes [d, c, b, a] = LittleEndian.ofBytes [a, b, c, d] := by
    simp only [ofBytes, LittleEndian.ofBytes, List.foldl]
    omega
  rw [take_four h, ← hrev, ← word32_toNat, UInt32.ofNat_toNat]

/-- The effect of one verdict. -/
theorem moves_verdict {s' : RxState} {v : Verdict} (hs : s.frx ≠ .feed) (hfeed : s'.toFeed = v.fed)
    (hpulse : s'.toPulse = v.base.toList)
    (herrs : s'.frameErr = s.frameErr + UInt32.ofNat v.isBad.toNat)
    (hsnap : s'.snapGo = v.isSnap) : Moves s s' [] [v] where
  feed := by
    rw [toFeed_of_ne hs, hfeed]
    exact (List.append_nil _).symm
  pulse := by rw [hpulse]; cases v <;> rfl
  errs := by rw [herrs]; cases v <;> rfl
  snap := by rw [hsnap]; cases v <;> rfl

/-- The last byte of a window brings its verdict about. -/
theorem judge_moves (hp : s.frx = .csum) (hsum : s.csum = s.window.sum) (b : UInt8) :
    (s.judge s.fresh b).Stands .idle ∧
      Moves s (s.judge s.fresh b) [] [verdictOn s.ftype s.pay.toList b] ∧
      ((s.judge s.fresh b).frx = .snap ↔ (s.judge s.fresh b).snapGo = true) := by
  have hne : s.frx ≠ .feed := by rw [hp]; nofun
  have hsame : s.frameErr = s.frameErr + UInt32.ofNat false.toNat := (UInt32.add_zero _).symm
  have hdrop : s.fresh.dropFrame.Stands .idle ∧ Moves s s.fresh.dropFrame [] [.bad] ∧
      (s.fresh.dropFrame.frx = .snap ↔ s.fresh.dropFrame.snapGo = true) :=
    ⟨rfl, moves_verdict hne rfl rfl rfl rfl, iff_of_false nofun nofun⟩
  rw [RxState.judge, verdictOn, ← window, ← hsum]
  split
  · exact hdrop
  · split
    · -- a message: the length prefix decides
      have hlen : (s.itchLen = 0 ∨ s.itchLen > UInt16.ofNat (msgMaxBytes - 2)) ↔
          announced s.pay.toList = 0 ∨ 46 < announced s.pay.toList := by
        rw [← itchLen_toNat]
        exact or_congr UInt16.toNat_inj.symm UInt16.lt_iff_toNat_lt
      rw [if_congr hlen rfl rfl]
      split
      · exact hdrop
      · rename_i hok
        have hle : announced s.pay.toList ≤ 46 := by omega
        have hfeedLen : ((s.itchLen + 2).toBitVec.setWidth 6).toNat =
            announced s.pay.toList + 2 := by
          rw [BitVec.toNat_setWidth]
          show (s.itchLen.toNat + 2) % 2 ^ 16 % 2 ^ 6 = _
          rw [itchLen_toNat]
          omega
        refine ⟨⟨rfl, ?_, ?_⟩, moves_verdict hne ?_ rfl hsame rfl, iff_of_false nofun nofun⟩
        · show 0 < ((s.itchLen + 2).toBitVec.setWidth 6).toNat
          omega
        · show ((s.itchLen + 2).toBitVec.setWidth 6).toNat ≤ 48
          omega
        · show (s.pay.toList.take ((s.itchLen + 2).toBitVec.setWidth 6).toNat).drop 0 = frame _
          rw [hfeedLen, List.drop_zero, take_payload Vector.length_toList hle]
    · split
      · exact ⟨rfl, moves_verdict hne rfl rfl hsame rfl, iff_of_true rfl rfl⟩
      · split
        · refine ⟨rfl, moves_verdict hne rfl ?_ hsame rfl, iff_of_false nofun nofun⟩
          show [word32 s.pay[3] s.pay[2] s.pay[1] s.pay[0]] = [_]
          rw [bandBase_eq (by decide)]
        · exact hdrop

/-! ### One cycle -/

/-- What the feeder gives in a cycle. -/
def feeds (s : RxState) (inReady : Bool) : List UInt8 :=
  if s.inValid && inReady then s.inBeat.bytes else []

theorem inBeat_bytes (s : RxState) :
    s.inBeat.bytes = [(s.pay[s.feedIdx.toNat]?).getD 0] := byteBeat_bytes _

theorem step_feed (hp : s.frx = .feed) (rxb : Option UInt8) (inReady snapBusy : Bool) :
    s.step rxb inReady snapBusy =
      if inReady then
        if s.feedIdx = s.feedLen - 1 then { s.fresh with rxFramePulse := true, frx := .mag0 }
        else { s.fresh with feedIdx := s.feedIdx + 1 }
      else s.fresh := by
  unfold RxState.step
  rw [hp]

theorem step_snap (hp : s.frx = .snap) (rxb : Option UInt8) (inReady snapBusy : Bool) :
    s.step rxb inReady snapBusy =
      if !snapBusy && !s.snapGo then { s.fresh with rxFramePulse := true, frx := .mag0 }
      else s.fresh := by
  unfold RxState.step
  rw [hp]

/-- A receiver that listens. -/
def Listens (s : RxState) : Prop := s.frx ≠ .feed ∧ s.frx ≠ .snap

instance (s : RxState) : Decidable s.Listens := inferInstanceAs (Decidable (_ ∧ _))

theorem step_listens (hl : s.Listens) (rxb : Option UInt8) (inReady snapBusy : Bool) :
    s.step rxb inReady snapBusy = rxb.elim s.fresh (s.receive s.fresh) ∧
      s.heard rxb = rxb.toList := by
  obtain ⟨hfeed, hsnap⟩ := hl
  unfold RxState.step RxState.heard
  cases hp : s.frx with
  | feed => exact absurd hp hfeed
  | snap => exact absurd hp hsnap
  | mag0 => cases rxb <;> exact ⟨rfl, rfl⟩
  | mag1 => cases rxb <;> exact ⟨rfl, rfl⟩
  | type => cases rxb <;> exact ⟨rfl, rfl⟩
  | body => cases rxb <;> exact ⟨rfl, rfl⟩
  | csum => cases rxb <;> exact ⟨rfl, rfl⟩

/-- A cycle in which the feeder gives a byte or waits. -/
theorem Stands.step_feed (hs : s.Stands h) (hp : s.frx = .feed) (rxb : Option UInt8)
    (inReady snapBusy : Bool) :
    (s.step rxb inReady snapBusy).Stands h ∧
      Moves s (s.step rxb inReady snapBusy) (s.feeds inReady) [] ∧
      (s.step rxb inReady snapBusy).snapGo = false := by
  obtain ⟨rfl, hidx, hlen⟩ := (stands_feed hp).1 hs
  have hbytes : (s.pay.toList.take s.feedLen.toNat).length = s.feedLen.toNat := by
    rw [List.length_take, Vector.length_toList]
    omega
  have hto : s.toFeed = (s.pay.toList.take s.feedLen.toNat).drop s.feedIdx.toNat := if_pos hp
  have hsame : s.frameErr = s.frameErr + UInt32.ofNat 0 := (UInt32.add_zero _).symm
  have hvalid : s.inValid = true := decide_eq_true hp
  rw [step_feed hp]
  cases inReady with
  | false =>
    have hgive : s.feeds false = [] := by rw [feeds, hvalid]; rfl
    rw [hgive, if_neg Bool.false_ne_true]
    exact ⟨hs, ⟨(List.append_nil _).symm, rfl, hsame, rfl⟩, rfl⟩
  | true =>
    have hgive : s.feeds true = s.inBeat.bytes := by rw [feeds, hvalid]; rfl
    -- the byte that is given heads what is left
    have hhead : s.toFeed = s.inBeat.bytes ++
        (s.pay.toList.take s.feedLen.toNat).drop (s.feedIdx.toNat + 1) := by
      have hbound : s.feedIdx.toNat < (s.pay.toList.take s.feedLen.toNat).length := by omega
      have hget : (s.pay.toList.take s.feedLen.toNat)[s.feedIdx.toNat] =
          (s.pay[s.feedIdx.toNat]?).getD 0 := by
        have hlt : s.feedIdx.toNat < 48 := by omega
        simp [hlt]
      rw [hto, inBeat_bytes, ← hget]
      exact List.drop_eq_getElem_cons hbound
    rw [hgive, if_pos rfl]
    by_cases hend : s.feedIdx = s.feedLen - 1
    case pos =>
      have hlast : s.feedIdx.toNat + 1 = s.feedLen.toNat := by bv_omega
      have hnone : (s.pay.toList.take s.feedLen.toNat).drop (s.feedIdx.toNat + 1) = [] := by
        apply List.drop_eq_nil_of_le
        rw [hbytes, hlast]
      rw [if_pos hend]
      refine ⟨rfl, ⟨?_, rfl, hsame, rfl⟩, rfl⟩
      rw [hhead, hnone]
      rfl
    case neg =>
      have hnext : (s.feedIdx + 1).toNat = s.feedIdx.toNat + 1 := by bv_omega
      have hlt : s.feedIdx.toNat + 1 < s.feedLen.toNat := by bv_omega
      rw [if_neg hend]
      refine ⟨(stands_feed ?_).2 ⟨rfl, ?_, hlen⟩, ⟨?_, rfl, hsame, rfl⟩, rfl⟩
      · exact hp
      · show (s.feedIdx + 1).toNat < s.feedLen.toNat
        rwa [hnext]
      · have hfeed : RxState.toFeed { s.fresh with feedIdx := s.feedIdx + 1 } =
            (s.pay.toList.take s.feedLen.toNat).drop (s.feedIdx + 1).toNat := if_pos hp
        rw [hfeed, hnext, hhead]
        exact (List.append_nil _).symm

/-- A cycle that changes nothing but ends the pulses. -/
theorem fresh_moves (s : RxState) : Moves s s.fresh [] [] :=
  ⟨(List.append_nil _).symm, rfl, (UInt32.add_zero _).symm, rfl⟩

/-- A received byte while the receiver listens. -/
theorem Stands.step_byte (hs : s.Stands h) (hl : s.Listens) (b : UInt8) :
    (s.receive s.fresh b).Stands (h.next 0xA5 0x5A 50 b) ∧
      Moves s (s.receive s.fresh b) [] ((h.complete 50 b).map verdict) ∧
      ((s.receive s.fresh b).snapGo = true →
        s.frx = .csum ∧ (s.receive s.fresh b).frx = .snap) := by
  by_cases hp : s.frx = .csum
  case neg =>
    obtain ⟨hstands, hnone, hhunts⟩ := hs.receive hl.1 hl.2 hp b
    rw [hnone]
    refine ⟨hstands, hhunts.moves hl.1, fun hgo => ?_⟩
    rw [hhunts.noGo] at hgo
    exact absurd hgo Bool.false_ne_true
  case pos =>
    obtain ⟨rfl, hsum⟩ := (stands_csum hp).1 hs
    obtain ⟨hstands, hmoves, hsnap⟩ := judge_moves hp hsum b
    have hreceive : s.receive s.fresh b = s.judge s.fresh b := by rw [RxState.receive, hp]
    have hlen : s.window.length + 1 = 50 := by rw [window, List.length_cons, Vector.length_toList]
    have hverdict : verdict (s.window ++ [b]) = verdictOn s.ftype s.pay.toList b :=
      verdict_window _ _ _
    rw [hreceive, Hunt.next, Hunt.complete, if_pos hlen, if_pos hlen, List.map_singleton, hverdict]
    exact ⟨hstands, hmoves, fun hgo => ⟨hp, hsnap.2 hgo⟩⟩

/-- One cycle of the receiver: it moves along the hunt, and the windows that are completed decide
what is fed, pulsed and counted. -/
theorem Stands.step (hs : s.Stands h) (rxb : Option UInt8) (inReady snapBusy : Bool) :
    (s.step rxb inReady snapBusy).Stands (linkAfter h (s.heard rxb)) ∧
      Moves s (s.step rxb inReady snapBusy) (s.feeds inReady)
        ((linkWindows h (s.heard rxb)).map verdict) ∧
      ((s.step rxb inReady snapBusy).snapGo = true →
        s.frx = .csum ∧ (s.step rxb inReady snapBusy).frx = .snap) := by
  by_cases hfeed : s.frx = .feed
  case pos =>
    obtain ⟨hstands, hmoves, hgo⟩ := hs.step_feed hfeed rxb inReady snapBusy
    have hheard : s.heard rxb = [] := by rw [RxState.heard, hfeed]
    rw [hheard]
    refine ⟨hstands, hmoves, fun h => ?_⟩
    rw [hgo] at h
    exact absurd h Bool.false_ne_true
  case neg =>
    have hgive : s.feeds inReady = [] := by
      rw [feeds, inValid, decide_eq_false hfeed]
      rfl
    rw [hgive]
    by_cases hsnap : s.frx = .snap
    case pos =>
      obtain rfl := (stands_snap hsnap).1 hs
      have hheard : s.heard rxb = [] := by rw [RxState.heard, hsnap]
      rw [hheard, step_snap hsnap]
      split
      · refine ⟨rfl, ⟨?_, rfl, (UInt32.add_zero _).symm, rfl⟩, nofun⟩
        rw [toFeed_of_ne hfeed]
        rfl
      · exact ⟨hs, fresh_moves s, nofun⟩
    case neg =>
      obtain ⟨hstep, hheard⟩ := step_listens ⟨hfeed, hsnap⟩ rxb inReady snapBusy
      rw [hstep, hheard]
      cases rxb with
      | none => exact ⟨hs, fresh_moves s, nofun⟩
      | some b =>
        have hwins : linkWindows h [b] = h.complete 50 b := List.append_nil _
        show _ ∧ Moves _ _ _ ((linkWindows h [b]).map verdict) ∧ _
        rw [hwins]
        exact hs.step_byte ⟨hfeed, hsnap⟩ b

end RxState

end ItchOrderbook.Rtl
