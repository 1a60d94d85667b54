import ItchOrderbook.Rtl.FpgaDelivery
import ItchOrderbook.Rtl.SerialLoopback
import ItchOrderbook.Tools.LinkRoundTrip

/-!
# From the host to the book on the board

The bytes that the host writes come over the serial line, the bridge finds their frames, and the
book is the one that the messages lead to (`host_to_book`).
-/

namespace ItchOrderbook.Rtl

/-! ## What the receiver makes of the line -/

namespace FpgaTop

variable {c : Build} {d : Divisor} {s : FpgaTop c d}

/-- What the bridge sees over a run. -/
def bridgeIns (s : FpgaTop c d) : List FpgaIn → List BridgeIn
  | [] => []
  | i :: is => s.bridgeIn :: (s.step i).bridgeIns is

theorem rstSync_run (hsync : s.rstSync = 7) {is : List FpgaIn} (his : ∀ i ∈ is, i.rstnIn = true) :
    ((fpgaTop c d).run s is).rstSync = 7 := by
  induction is generalizing s with
  | nil => exact hsync
  | cons i is ih =>
    obtain ⟨hi, his⟩ := List.forall_mem_cons.1 his
    exact ih (rstSync_kept hsync hi) his

theorem rxb_toList (s : FpgaTop c d) : s.rxb.toList = s.rx.engine.delivered := by
  unfold rxb RxEngine.delivered
  split
  · rfl
  · rfl

/-- What arrives is what the serial receiver delivers. -/
theorem arrived_bridgeIns (hsync : s.rstSync = 7) {is : List FpgaIn}
    (his : ∀ i ∈ is, i.rstnIn = true) : BridgeState.arrived (s.bridgeIns is) =
      (SerialRx.machine d).allGiven s.rx (is.map FpgaIn.uartRx) := by
  induction is generalizing s with
  | nil => rfl
  | cons i is ih =>
    obtain ⟨hi, his⟩ := List.forall_mem_cons.1 his
    have hrx : (s.step i).rx = s.rx.step i.uartRx := if_pos (rstN_of_rstSync hsync)
    rw [bridgeIns, BridgeState.arrived, List.filterMap_cons, List.map_cons, StreamMachine.allGiven]
    have hrest := ih (rstSync_kept hsync hi) his
    rw [hrx] at hrest
    have hgiven : (SerialRx.machine d).given s.rx i.uartRx = s.rxb.toList := (rxb_toList s).symm
    have hrxb : s.bridgeIn.rxb = s.rxb := rfl
    rw [hgiven, hrxb]
    cases s.rxb with
    | none => exact hrest
    | some b => exact congrArg (b :: ·) hrest

/-- What is heard of it. -/
theorem allTaken_bridgeIns (hsync : s.rstSync = 7) {is : List FpgaIn}
    (his : ∀ i ∈ is, i.rstnIn = true) :
    (fpgaTop c d).allTaken s is = BridgeState.bridge.allTaken s.bridge (s.bridgeIns is) := by
  induction is generalizing s with
  | nil => rfl
  | cons i is ih =>
    obtain ⟨hi, his⟩ := List.forall_mem_cons.1 his
    obtain ⟨hbridge, -, htaken, -⟩ := step_of_rstN (rstN_of_rstSync hsync) i
    have hrest := ih (rstSync_kept hsync hi) his
    rw [hbridge] at hrest
    rw [StreamMachine.allTaken, htaken, bridgeIns, StreamMachine.allTaken]
    exact congrArg (_ ++ ·) hrest

theorem bridgeIns_append (s : FpgaTop c d) (is js : List FpgaIn) :
    s.bridgeIns (is ++ js) = s.bridgeIns is ++ ((fpgaTop c d).run s is).bridgeIns js := by
  induction is generalizing s with
  | nil => rfl
  | cons i is ih => exact congrArg (s.bridgeIn :: ·) (ih (s.step i))

end FpgaTop

/-! ## Bytes that are all heard -/

namespace RxState

variable {s : RxState} {h : Hunt UInt8}

/-- The receiver waits for a snapshot only behind a request. -/
theorem Stands.frx_snap (hs : s.Stands h) {rxb : Option UInt8} {inReady snapBusy : Bool}
    (hsnap : (s.step rxb inReady snapBusy).frx = .snap) :
    s.frx = .snap ∨ (s.step rxb inReady snapBusy).snapGo = true := by
  by_cases hp : s.frx = .snap
  · exact .inl hp
  by_cases hfeed : s.frx = .feed
  · rw [RxState.step_feed hfeed] at hsnap
    split at hsnap
    · split at hsnap
      · cases hsnap
      · exact absurd (hfeed.symm.trans hsnap) nofun
    · exact absurd (hfeed.symm.trans hsnap) nofun
  rw [(step_listens ⟨hfeed, hp⟩ rxb inReady snapBusy).1] at hsnap ⊢
  cases rxb with
  | none => exact absurd hsnap hp
  | some b =>
    by_cases hcsum : s.frx = .csum
    case neg => exact absurd hsnap (hs.receive hfeed hp hcsum b).2.2.notSnap
    case pos =>
      have hjudge : s.receive s.fresh b = s.judge s.fresh b := by rw [RxState.receive, hcsum]
      rw [Option.elim_some, hjudge] at hsnap ⊢
      exact .inr ((judge_moves hcsum ((stands_csum hcsum).1 hs).2 b).2.2.1 hsnap)

end RxState

namespace BridgeState

/-- As long as no message and no request has come the receiver listens. -/
theorem listens_of_run (s : BridgeState) (is : List BridgeIn)
    (hfed : (verdicts (bridge.allTaken s.reset is)).flatMap Verdict.fed = [])
    (hsnap : (verdicts (bridge.allTaken s.reset is)).countP Verdict.isSnap = 0) :
    (bridge.run s.reset is).rx.Listens := by
  have hstep (s : BridgeState) (heard : List UInt8) (out : List BridgeEvent) (i : BridgeIn)
      (_ : ∀ b ∈ bridge.taken s i, True)
      (h : Heard s heard out ∧
        (s.rx.frx = .snap → (verdicts heard).countP Verdict.isSnap ≠ 0)) :
      Heard (bridge.step s i) (heard ++ bridge.taken s i) (out ++ bridge.given s i) ∧
        ((bridge.step s i).rx.frx = .snap →
          (verdicts (heard ++ bridge.taken s i)).countP Verdict.isSnap ≠ 0) := by
    obtain ⟨hheard, hwait⟩ := h
    have hnext := hheard.step i
    refine ⟨hnext, fun hfrx => ?_⟩
    rcases hheard.stands.frx_snap hfrx with hbefore | hgo
    · rw [verdicts_append, List.countP_append]
      have := hwait hbefore
      omega
    · have hasked := hnext.asked
      rw [show (s.step i).rx.snapGo = true from hgo] at hasked
      change _ + 1 = _ at hasked
      show List.countP _ _ ≠ 0
      omega
  have hrun := StreamMachine.run_inv hstep
    (⟨heard_reset s, nofun⟩ : Heard s.reset [] [] ∧ _) is fun _ _ => trivial
  rw [List.nil_append] at hrun
  obtain ⟨hheard, hwait⟩ := hrun
  have hfeed := hheard.fed
  rw [hfed] at hfeed
  refine ⟨fun hp => ?_, fun hp => hwait hp hsnap⟩
  have hvalid := hheard.stands.inValid_eq
  rw [(List.append_eq_nil_iff.1 hfeed).2, RxState.inValid, decide_eq_true hp] at hvalid
  cases hvalid

/-- A run in which no message and no request comes before the last byte is quiet. -/
theorem quiet_of_front (s : BridgeState) {is : List BridgeIn} {front : List UInt8} {last : UInt8}
    (harrived : arrived is = front ++ [last])
    (hfed : (verdicts front).flatMap Verdict.fed = [])
    (hsnap : (verdicts front).countP Verdict.isSnap = 0) : Quiet s.reset is := by
  have hrest (before after : List BridgeIn) (hsplit : before ++ after = is)
      (hall : bridge.allTaken s.reset before = arrived before) :
      Quiet (bridge.run s.reset before) after := by
    induction after generalizing before with
    | nil => trivial
    | cons i after ih =>
      have hnow : (bridge.run s.reset before).rx.Listens ∨ i.rxb = none := by
        cases hb : i.rxb with
        | none => exact .inr rfl
        | some b =>
          have hfront : arrived before <+: front := by
            rw [← hsplit, arrived_append, show arrived (i :: after) = b :: arrived after by
              rw [arrived, List.filterMap_cons, hb]; rfl] at harrived
            have hlen := congrArg List.length harrived
            have hle : (arrived before).length ≤ front.length := by
              simp only [List.length_append, List.length_cons, List.length_nil] at hlen
              omega
            exact List.prefix_of_prefix_length_le ⟨_, rfl⟩
              (harrived ▸ List.prefix_append front [last]) hle
          obtain ⟨more, rfl⟩ := hfront
          rw [verdicts_append, List.flatMap_append, List.append_eq_nil_iff] at hfed
          rw [verdicts_append, List.countP_append, Nat.add_eq_zero_iff] at hsnap
          rw [← hall] at hfed hsnap
          exact .inl (listens_of_run s before hfed.1 hsnap.1)
      refine ⟨hnow, ?_⟩
      have hstep : Quiet (bridge.run s.reset before) [i] := ⟨hnow, trivial⟩
      have hnext := ih (before ++ [i]) (by rw [List.append_assoc]; exact hsplit) (by
        rw [StreamMachine.allTaken_append, hall, hstep.heard, arrived_append])
      rwa [StreamMachine.run_append] at hnext
  exact hrest [] is rfl rfl

end BridgeState

end ItchOrderbook.Rtl

namespace ItchOrderbook.ObHost

open Rtl Rtl.BridgeState Rtl.FpgaTop

variable {cs : List Command} {bytes : List UInt8}

/-- No base comes behind a message. -/
def BaseFirst (cs : List Command) : Prop := cs.Pairwise fun a b => a.message = none ∨ b.base = none

instance (cs : List Command) : Decidable (BaseFirst cs) :=
  inferInstanceAs (Decidable (List.Pairwise _ _))

/-- The base that is set last. -/
def lastBase (cs : List Command) : Option UInt32 :=
  (cs.filterMap Command.base).getLast?.map fun b => UInt32.ofNat b.toNat

theorem bandFirst_verdicts (h : send cs = .ok bytes) (hbase : BaseFirst cs) :
    BandFirst (verdicts bytes) := by
  rw [verdicts_send h, BandFirst, List.pairwise_map]
  refine hbase.imp fun {a b} hab => hab.imp (fun ha => ?_) fun hb => ?_
  · cases a with
    | itch msg => cases ha
    | snapReq => rfl
    | setBand base => rfl
  · cases b with
    | itch msg => rfl
    | snapReq => rfl
    | setBand base => cases hb

theorem getLast?_base_verdicts (h : send cs = .ok bytes) :
    ((verdicts bytes).filterMap Verdict.base).getLast? = lastBase cs := by
  rw [lastBase, ← base_verdicts h, List.getLast?_map, Option.map_map]
  simp [Function.comp_def]

/-- **From the host to the book.** The board is configured and comes up with an idle line; the host
sets the band before the first message, and what it writes comes over the line with any number of
idle cycles in front of each byte, no byte of it while a message is fed or a snapshot answered. Once
the line is idle again then after some cycles the book has committed all the messages, and it is the
one they lead to, in the band that was set last. -/
theorem host_to_book {c : Build} {d : Divisor} {bs : List (ℕ × UInt8)}
    (hsend : send cs = .ok (bs.map Prod.snd)) (hbase : BaseFirst cs)
    {s : FpgaTop c d} (hs : s.Configured) {boot is : List FpgaIn} (hboot : Boots boot)
    (hidle : ∀ i ∈ boot, i.uartRx = true) (his : ∀ i ∈ is, i.rstnIn = true)
    (hline : is.map FpgaIn.uartRx = Loopback.pacedLine d bs ++ List.replicate 3 true)
    (hquiet : Quiet ((fpgaTop c d).run s boot).bridge (((fpgaTop c d).run s boot).bridgeIns is)) :
    let ms := messages (messageBytes cs)
    ∃ n, ∀ k, n ≤ k →
      let all := boot ++ is ++ List.replicate k ⟨true, true⟩
      (fpgaTop c d).allGiven s all = ms.map (·.mtype) ∧
        ((fpgaTop c d).run s all).core.book.core =
          ms.foldl BookCore.apply (BookCore.powerUp c (lastBase cs)) := by
  intro ms
  obtain ⟨hsync, -, hrx, hboot₀, -⟩ := hs.boots hboot
  have hrelease (k : ℕ) :
      ∀ i ∈ is ++ List.replicate k (⟨true, true⟩ : FpgaIn), i.rstnIn = true := by
    intro i hi
    rcases List.mem_append.1 hi with hi | hi
    · exact his i hi
    · rw [List.eq_of_mem_replicate hi]
  -- the same bytes arrive, however long the line stays idle
  have harrived (k : ℕ) : arrived (((fpgaTop c d).run s boot).bridgeIns
      (is ++ List.replicate k ⟨true, true⟩)) = bs.map Prod.snd := by
    rw [arrived_bridgeIns hsync (hrelease k), hrx hidle, List.map_append, hline, List.map_replicate,
      List.append_assoc, ← List.replicate_add, Nat.add_comm, List.replicate_add,
      ← List.append_assoc]
    have hlonger := ((Loopback.waves_pacedLine (d := d) bs).append (Waves.nil.idles k)).serialRx
    rwa [List.append_nil, List.append_nil] at hlonger
  have hnow : arrived (((fpgaTop c d).run s boot).bridgeIns is) = bs.map Prod.snd := by
    have h := harrived 0
    rwa [List.replicate_zero, List.append_nil] at h
  -- so none comes while it is idle
  have hlater (k : ℕ) : (fpgaTop c d).allTaken ((fpgaTop c d).run s (boot ++ is))
      (List.replicate k ⟨true, true⟩) = [] := by
    have h := harrived k
    rw [bridgeIns_append, arrived_append, hnow, List.append_right_eq_self] at h
    rw [StreamMachine.run_append, allTaken_bridgeIns (rstSync_run hsync his)
      fun i hi => by rw [List.eq_of_mem_replicate hi], (Quiet.of_silent h).heard, h]
  -- and a quiet run hears what arrives
  have hheard : (fpgaTop c d).allTaken s (boot ++ is) = bs.map Prod.snd := by
    rw [StreamMachine.allTaken_append, hboot₀, List.nil_append, allTaken_bridgeIns hsync his,
      hquiet.heard, hnow]
  obtain ⟨-, n, hn⟩ := fpga_delivers hs hboot his (by
    rw [hheard]
    exact bandFirst_verdicts hsend hbase)
  refine ⟨n, fun k hk => ?_⟩
  have hend := hn (List.replicate k ⟨true, true⟩)
    (fun j hj => by rw [List.eq_of_mem_replicate hj]) (hlater k)
    (by rwa [List.length_replicate])
  rw [hheard, fed_verdicts hsend, getLast?_base_verdicts hsend] at hend
  exact hend

/-- A board with a divisor of 4 after configuration. -/
def configuredBoard : FpgaTop .simulation ⟨4, Nat.le_refl 4⟩ where
  rstSync := 0
  rx := ⟨true, true, RxEngine.reset⟩
  tx := .reset
  bridge := default
  core := ⟨UdpState.reset, default, ⟨default, { body := Vector.replicate 48 0 }⟩, {}, {}⟩

/-- A base and an Add. -/
def bandAndAdd : List Command := [.setBand 70, .itch (Framing.frame addBody)]

/-- What the host writes for them. -/
def bandAndAddBytes : List UInt8 :=
  match send bandAndAdd with
  | .ok bytes => bytes
  | .error _ => []

/-- The cycles in which they come over the line, byte behind byte. -/
def bandAndAddIns : List FpgaIn :=
  (Loopback.pacedLine ⟨4, Nat.le_refl 4⟩ (bandAndAddBytes.map fun b => (0, b)) ++
    List.replicate 3 true).map fun v => ⟨true, v⟩

theorem host_to_book_add : ∃ n, ∀ k, n ≤ k →
    (fpgaTop .simulation ⟨4, Nat.le_refl 4⟩).allGiven configuredBoard
      (List.replicate 3 ⟨true, true⟩ ++ bandAndAddIns ++ List.replicate k ⟨true, true⟩) =
        [tAdd] := by
  have hbytes : (bandAndAddBytes.map fun b => (0, b)).map Prod.snd = bandAndAddBytes := by
    rw [List.map_map]
    exact List.map_id _
  have hsend : send bandAndAdd = .ok ((bandAndAddBytes.map fun b => (0, b)).map Prod.snd) := by
    rw [hbytes]
    decide +kernel
  have hbase : BaseFirst bandAndAdd := by decide
  have hs : configuredBoard.Configured := ⟨rfl, rfl⟩
  have hboot : Boots (List.replicate 3 ⟨true, true⟩) :=
    ⟨[], _, _, _, rfl, List.forall_mem_nil _, rfl, rfl, rfl⟩
  have hidle : ∀ i ∈ List.replicate 3 (⟨true, true⟩ : FpgaIn), i.uartRx = true := by
    intro i hi
    rw [List.eq_of_mem_replicate hi]
  have his : ∀ i ∈ bandAndAddIns, i.rstnIn = true := by
    intro i hi
    obtain ⟨v, -, rfl⟩ := List.mem_map.1 hi
    rfl
  have hline : bandAndAddIns.map FpgaIn.uartRx =
      Loopback.pacedLine ⟨4, Nat.le_refl 4⟩ (bandAndAddBytes.map fun b => (0, b)) ++
        List.replicate 3 true := by
    rw [bandAndAddIns, List.map_map]
    exact List.map_id _
  -- only the last byte completes the message
  obtain ⟨hsync, ⟨⟨b, hbridge⟩, -⟩, hrx, -, -⟩ := hs.boots hboot
  have harrived := arrived_bridgeIns hsync his
  rw [hrx hidle, hline, (Loopback.waves_pacedLine _).serialRx, hbytes] at harrived
  have hsplit : bandAndAddBytes = bandAndAddBytes.dropLast ++ [bandAndAddBytes.getLastD 0] := by
    decide +kernel
  have hquiet := quiet_of_front b (harrived.trans hsplit) (by decide +kernel) (by decide +kernel)
  rw [← hbridge] at hquiet
  obtain ⟨n, hn⟩ := host_to_book hsend hbase hs hboot hidle his hline hquiet
  refine ⟨n, fun k hk => (hn k hk).1.trans ?_⟩
  have hmessage : messageBytes bandAndAdd = Framing.frame addBody := by decide +kernel
  rw [hmessage, messages_addBody]
  rfl

end ItchOrderbook.ObHost
