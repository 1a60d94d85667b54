import ItchOrderbook.Tools.ObHostSpec

/-!
# Round trip over the link

What the host sends arrives as it was sent: the messages on the ingest bus, the bases as pulses,
the requests as snapshots, and a snapshot arrives at the host as it was latched.
-/

namespace ItchOrderbook.ObHost

open Rtl Rtl.BridgeState Framing

/-- Whether a command asks for a snapshot. -/
def Command.isSnapReq : Command → Bool
  | .snapReq => true
  | _ => false

/-- The messages of some commands, one behind the other. -/
def messageBytes (cs : List Command) : List UInt8 := (cs.filterMap Command.message).flatten

variable {cs : List Command} {bytes : List UInt8}

/-- A command that is framed feeds its message, if it is one. -/
theorem Command.Framed.fed_eq {c : Command} (h : c.Framed) :
    c.verdict.fed = c.message.elim [] id := by
  cases c with
  | itch msg => exact frame_drop_two (Nat.le_of_succ_le h.1) h.2.2
  | snapReq => rfl
  | setBand base => rfl

/-- It pulses its base, if it sets one. -/
theorem Command.Framed.base_eq {c : Command} (h : c.Framed) :
    c.verdict.base.map (fun b => (b.toNat : ℤ)) = c.base := by
  cases c with
  | itch msg => rfl
  | snapReq => rfl
  | setBand base =>
    obtain ⟨hpos, hlt⟩ := h
    have hnat : (UInt32.ofNat base.toNat).toNat = base.toNat := by
      rw [UInt32.toNat_ofNat']
      omega
    show some ((UInt32.ofNat base.toNat).toNat : ℤ) = some base
    rw [hnat, Int.toNat_of_nonneg hpos]

theorem fed_verdicts (h : send cs = .ok bytes) :
    (verdicts bytes).flatMap Verdict.fed = messageBytes cs := by
  have hall := (send_eq_ok.1 h).1
  rw [verdicts_send h, messageBytes]
  clear h
  induction cs with
  | nil => rfl
  | cons c cs ih =>
    obtain ⟨hc, hcs⟩ := List.forall_mem_cons.1 hall
    rw [List.map_cons, List.flatMap_cons, ih hcs, hc.fed_eq, List.filterMap_cons]
    cases c.message <;> rfl

theorem base_verdicts (h : send cs = .ok bytes) :
    ((verdicts bytes).filterMap Verdict.base).map (fun b => (b.toNat : ℤ)) =
      cs.filterMap Command.base := by
  have hall := (send_eq_ok.1 h).1
  rw [verdicts_send h, List.filterMap_map, List.map_filterMap]
  exact List.filterMap_congr fun c hc => (hall c hc).base_eq

theorem isBad_verdicts (h : send cs = .ok bytes) : (verdicts bytes).countP Verdict.isBad = 0 := by
  rw [verdicts_send h, List.countP_map, List.countP_eq_zero]
  intro c _
  cases c <;> exact Bool.false_ne_true

theorem isSnap_verdicts (h : send cs = .ok bytes) :
    (verdicts bytes).countP Verdict.isSnap = cs.countP Command.isSnapReq := by
  rw [verdicts_send h, List.countP_map]
  apply List.countP_congr
  intro c _
  cases c <;> exact Iff.rfl

/-! ## The round trip -/

/-- Over any run from reset in which the frames of the host arrive uncorrupted, no byte of them
while a message is fed or a snapshot answered: the ingest bus has taken the messages in order but
for what the feeder holds, each base is pulsed once, the error count stands and each request is
answered by the frame of what was latched. Once 48 ready cycles have passed without a byte the
messages and the pulses are all out. A frame that is sent is found by the host behind any bytes
without a preamble, and its fields are those that were latched. -/
theorem link_round_trip (hsend : send cs = .ok bytes) {s : BridgeState} {is : List BridgeIn}
    (hquiet : Quiet s.reset is) (harrived : arrived is = bytes) :
    (bridge.allGiven s.reset is).flatMap BridgeEvent.ingested ++
        (bridge.run s.reset is).rx.toFeed = messageBytes cs ∧
    ((bridge.allGiven s.reset is).flatMap BridgeEvent.pulsed ++
        (bridge.run s.reset is).rx.toPulse).map (fun b => (b.toNat : ℤ)) =
      cs.filterMap Command.base ∧
    (∀ js, arrived js = [] → 48 ≤ js.countP BridgeIn.inReady →
      (bridge.allGiven s.reset (is ++ js)).flatMap BridgeEvent.ingested = messageBytes cs ∧
      ((bridge.allGiven s.reset (is ++ js)).flatMap BridgeEvent.pulsed).map
        (fun b => (b.toNat : ℤ)) = cs.filterMap Command.base) ∧
    (bridge.run s.reset is).rx.frameErr = s.reset.rx.frameErr ∧
    ((bridge.allGiven s.reset is).flatMap BridgeEvent.latched).length +
        (bridge.run s.reset is).rx.snapGo.toNat = cs.countP Command.isSnapReq ∧
    (bridge.allGiven s.reset is).flatMap BridgeEvent.sent ++ (bridge.run s.reset is).tx.toSend =
      ((bridge.allGiven s.reset is).flatMap BridgeEvent.latched).flatMap latchFrame ∧
    ∀ (v : BookView) (frameErr : UInt32) (pre post : List UInt8) (reads : List (Option UInt8)),
      ¬ [0xA5, 0x5A] <:+: pre →
      reads.filterMap id = pre ++ latchFrame (v, frameErr) ++ post →
      readSnapshot reads = .ok (some (fields v frameErr)) := by
  -- what is seen of any quiet run in which these bytes arrive
  have hrun (is : List BridgeIn) (hq : Quiet s.reset is) (ha : arrived is = bytes) :
      (bridge.allGiven s.reset is).flatMap BridgeEvent.ingested ++
          (bridge.run s.reset is).rx.toFeed = messageBytes cs ∧
      ((bridge.allGiven s.reset is).flatMap BridgeEvent.pulsed ++
          (bridge.run s.reset is).rx.toPulse).map (fun b => (b.toNat : ℤ)) =
        cs.filterMap Command.base := by
    have h := heard_inv s is
    rw [hq.heard, ha] at h
    exact ⟨h.fed.trans (fed_verdicts hsend), by rw [h.pulsed, base_verdicts hsend]⟩
  have h := heard_inv s is
  rw [hquiet.heard, harrived] at h
  obtain ⟨hfed, hpulsed⟩ := hrun is hquiet harrived
  refine ⟨hfed, hpulsed, fun js hjs hready => ?_, ?_, ?_, h.sent, ?_⟩
  · have hall : arrived (is ++ js) = bytes := by rw [arrived_append, hjs, List.append_nil, harrived]
    obtain ⟨hfed', hpulsed'⟩ := hrun (is ++ js) (hquiet.append (Quiet.of_silent hjs)) hall
    have hnone : bridge.allTaken (bridge.run s.reset is) js = [] := by
      rw [(Quiet.of_silent hjs).heard, hjs]
    have hne : js ≠ [] := by
      rintro rfl
      exact absurd hready (by decide)
    rw [StreamMachine.run_append, fed_out h.stands hnone hready, List.append_nil] at hfed'
    rw [StreamMachine.run_append, pulsed_out h.stands hne hnone, List.append_nil] at hpulsed'
    exact ⟨hfed', hpulsed'⟩
  · rw [h.errs, isBad_verdicts hsend]
    rfl
  · rw [h.asked, isSnap_verdicts hsend]
  · intro v frameErr pre post reads hpre hreads
    exact readSnapshot_frame hpre hreads

/-- A message of three bytes, a base and a request. -/
def sampleCommands : List Command := [.setBand 70000, .itch [0, 1, 0x53], .snapReq]

/-- Their frames, a byte a cycle, with a pause behind the message in which it is fed. -/
def sampleRun : List BridgeIn :=
  match send sampleCommands with
  | .error _ => []
  | .ok bytes =>
    (bytes.take 104).map (fun b => ⟨some b, true, false, default⟩) ++
      List.replicate 4 ⟨none, true, false, default⟩ ++
        (bytes.drop 104).map fun b => ⟨some b, true, false, default⟩

theorem link_round_trip_sample :
    (bridge.allGiven (reset default) sampleRun).flatMap BridgeEvent.ingested ++
      (bridge.run (reset default) sampleRun).rx.toFeed = [0, 1, 0x53] := by
  have hsend : send sampleCommands = .ok (arrived sampleRun) := by decide +kernel
  have hquiet : Quiet (reset default) sampleRun := by decide +kernel
  exact (link_round_trip hsend hquiet rfl).1

end ItchOrderbook.ObHost
