import ItchOrderbook.Tools.LinkRoundTrip
import Mathlib.Data.List.Sublists

/-!
# A corrupted byte on the link

One byte of the frames of the host arrives as another. Behind the preamble the checksum always
finds it and the frame is dropped. In the preamble it makes the receiver hunt through the payload,
and what it takes for windows there is only held off by an eight-bit sum.
-/

namespace ItchOrderbook.ObHost

open Rtl Rtl.BridgeState Framing

/-! ## Windows that carry a message -/

/-- The message that a window carries to the ingest bus: its sum is right, its type that of a
message and its length prefix in range. -/
def carried (w : List UInt8) : Option (List UInt8) :=
  match verdict w with
  | .itch body => some (frame body)
  | _ => none

theorem flatMap_fed (ws : List (List UInt8)) :
    (ws.map verdict).flatMap Verdict.fed = (ws.filterMap carried).flatten := by
  induction ws with
  | nil => rfl
  | cons w ws ih =>
    rw [List.map_cons, List.flatMap_cons, ih, List.filterMap_cons, carried]
    cases verdict w <;> rfl

/-- A byte string that is a body behind its length. -/
def IsMessage (m : List UInt8) : Prop := ∃ body : List UInt8, body.length < 65536 ∧ m = frame body

theorem length_of_verdictOn {t c : UInt8} {pay body : List UInt8}
    (h : verdictOn t pay c = .itch body) : body.length ≤ 46 := by
  unfold verdictOn at h
  split at h
  · cases h
  · split at h
    · split at h
      · cases h
      · cases h
        have hle : ((pay.drop 2).take (announced pay)).length ≤ announced pay :=
          List.length_take_le ..
        omega
    · split at h
      · cases h
      · split at h <;> cases h

theorem carried_isMessage {w m : List UInt8} (h : carried w = some m) : IsMessage m := by
  unfold carried at h
  cases hv : verdict w with
  | bad => rw [hv] at h; cases h
  | snap => rw [hv] at h; cases h
  | band base => rw [hv] at h; cases h
  | itch body =>
    rw [hv] at h
    cases h
    refine ⟨body, ?_, rfl⟩
    cases w with
    | nil => cases hv
    | cons t rest =>
      have hle := length_of_verdictOn hv
      omega

/-- Messages one behind the other can be told apart. -/
theorem flatten_inj {xs ys : List (List UInt8)} (hx : ∀ m ∈ xs, IsMessage m)
    (hy : ∀ m ∈ ys, IsMessage m) (h : xs.flatten = ys.flatten) : xs = ys := by
  have hbodies (zs : List (List UInt8)) (hz : ∀ m ∈ zs, IsMessage m) :
      ∃ bodies : List (List UInt8), (∀ b ∈ bodies, b.length < 65536) ∧ zs = bodies.map frame := by
    induction zs with
    | nil => exact ⟨[], nofun, rfl⟩
    | cons z zs ih =>
      obtain ⟨⟨body, hlen, rfl⟩, hzs⟩ := List.forall_mem_cons.1 hz
      obtain ⟨bodies, hall, rfl⟩ := ih hzs
      exact ⟨body :: bodies, List.forall_mem_cons.2 ⟨hlen, hall⟩, rfl⟩
  obtain ⟨bx, hbx, rfl⟩ := hbodies xs hx
  obtain ⟨by', hby, rfl⟩ := hbodies ys hy
  have hsplit := congrArg split h
  rw [← List.flatMap_def, ← List.flatMap_def, split_flatMap hbx, split_flatMap hby] at hsplit
  rw [hsplit]

/-- The messages of framed commands. -/
theorem message_isMessage {cs : List Command} (hall : ∀ c ∈ cs, c.Framed) :
    ∀ m ∈ cs.filterMap Command.message, IsMessage m := by
  intro m hm
  obtain ⟨c, hc, hcm⟩ := List.mem_filterMap.1 hm
  cases c with
  | snapReq => cases hcm
  | setBand base => cases hcm
  | itch msg =>
    cases hcm
    obtain ⟨h3, h48, hlen⟩ := hall _ hc
    refine ⟨m.drop 2, ?_, (frame_drop_two (Nat.le_of_succ_le h3) hlen).symm⟩
    rw [List.length_drop]
    omega

theorem carried_window {c : Command} (h : c.Framed) : carried c.window = c.message := by
  unfold carried
  rw [h.verdict_window]
  cases c with
  | snapReq => rfl
  | setBand base => rfl
  | itch msg => exact congrArg some (frame_drop_two (Nat.le_of_succ_le h.1) h.2.2)

theorem carried_windows {cs : List Command} (hall : ∀ c ∈ cs, c.Framed) :
    (cs.map Command.window).filterMap carried = cs.filterMap Command.message := by
  rw [List.filterMap_map]
  exact List.filterMap_congr fun c hc => carried_window (hall c hc)

/-! ## The checksum -/

/-- A window whose last byte is not the sum of the others is bad. -/
theorem carried_of_ne_sum {body : List UInt8} {c : UInt8} (hne : body ≠ []) (hc : c ≠ body.sum) :
    carried (body ++ [c]) = none := by
  obtain ⟨t, pay, rfl⟩ := List.exists_cons_of_ne_nil hne
  unfold carried
  rw [List.cons_append, verdict_window, verdictOn, if_pos hc]

/-- One byte changed changes the sum. -/
theorem sum_set_ne {body : List UInt8} {i : ℕ} (hi : i < body.length) {x : UInt8}
    (hx : x ≠ body[i]) : (body.set i x).sum ≠ body.sum := by
  rw [List.sum_set', dif_pos hi]
  intro h
  have hzero : -body[i] + x = 0 := add_eq_left.mp h
  exact hx (neg_add_eq_zero.mp hzero).symm

/-- A frame with a byte changed behind the preamble is dropped. -/
theorem carried_set {c : Command} (h : c.Framed) {i : ℕ} (hi : i < 50) {x : UInt8}
    (hx : c.window[i]? ≠ some x) : carried (c.window.set i x) = none := by
  have hlen := h.body_length
  have hne : c.body ≠ [] := List.length_pos_iff.mp (by omega)
  rw [Command.window] at hx ⊢
  rcases Nat.lt_or_ge i c.body.length with hlt | hge
  · rw [List.getElem?_append_left hlt, List.getElem?_eq_getElem hlt] at hx
    have hbyte : x ≠ c.body[i] := fun heq => hx (congrArg some heq.symm)
    rw [List.set_append_left _ _ hlt]
    refine carried_of_ne_sum ?_ (sum_set_ne hlt hbyte).symm
    rwa [Ne, List.set_eq_nil_iff]
  · obtain rfl : i = c.body.length := by omega
    rw [List.getElem?_concat_length] at hx
    have hbyte : x ≠ c.body.sum := fun heq => hx (congrArg some heq.symm)
    rw [List.set_append_right _ _ (Nat.le_refl _), Nat.sub_self]
    exact carried_of_ne_sum hne hbyte

/-! ## What is heard -/

/-- The frames of some commands, one behind the other. -/
def framesOf (cs : List Command) : List UInt8 :=
  (cs.map Command.window).flatMap fun w => 0xA5 :: 0x5A :: w

variable {cs : List Command}

theorem framesOf_length (hall : ∀ c ∈ cs, c.Framed) : (framesOf cs).length = 52 * cs.length := by
  induction cs with
  | nil => rfl
  | cons c cs ih =>
    obtain ⟨hc, hcs⟩ := List.forall_mem_cons.1 hall
    have hrest := ih hcs
    rw [framesOf, List.map_cons, List.flatMap_cons, List.length_append]
    show c.window.length + 2 + (framesOf cs).length = _
    rw [hc.window_length, hrest, List.length_cons]
    omega

theorem framesOf_append (cs ds : List Command) :
    framesOf (cs ++ ds) = framesOf cs ++ framesOf ds := by
  rw [framesOf, List.map_append, List.flatMap_append]
  rfl

theorem linkWindows_framesOf (hall : ∀ c ∈ cs, c.Framed) (rest : List UInt8) :
    linkWindows .idle (framesOf cs ++ rest) =
      cs.map Command.window ++ linkWindows .idle rest := by
  have hlen : ∀ w ∈ cs.map Command.window, w.length = 50 := by
    intro w hw
    obtain ⟨c, hc, rfl⟩ := List.mem_map.1 hw
    exact (hall c hc).window_length
  have hpq : (0xA5 : UInt8) ≠ 0x5A := by decide
  rw [linkWindows, Hunt.windows_append, framesOf, (Hunt.windows_flatMap hpq (by decide) (.inl rfl)
    hlen).1, Hunt.after_flatMap hpq (by decide) hlen]

/-- The type byte does not continue a preamble. -/
theorem window_eq_cons (c : Command) : ∃ t w, c.window = t :: w ∧ t ≠ 0x5A ∧ t ≠ 0xA5 := by
  cases c with
  | itch msg => exact ⟨_, _, rfl, by decide, by decide⟩
  | snapReq => exact ⟨_, _, rfl, by decide, by decide⟩
  | setBand base => exact ⟨_, _, rfl, by decide, by decide⟩

/-- Behind a preamble with a byte changed the receiver hunts on from the type byte. -/
theorem linkWindows_lost (c : Command) (rest : List UInt8) {r : ℕ} (hr : r < 2) {x : UInt8}
    (hx : [0xA5, 0x5A][r]? ≠ some x) :
    linkWindows .idle ([0xA5, 0x5A].set r x ++ (c.window ++ rest)) =
      linkWindows .idle (c.window ++ rest) := by
  obtain ⟨t, w, hw, h5A, hA5⟩ := window_eq_cons c
  have hhalf : linkWindows .half (c.window ++ rest) = linkWindows .idle (c.window ++ rest) := by
    rw [hw]
    exact Hunt.windows_half h5A _
  match r, hr with
  | 0, _ =>
    have hne : x ≠ 0xA5 := fun h => hx (congrArg some h.symm)
    show Hunt.windows _ _ _ (if x = 0xA5 then .half else .idle) (0x5A :: (c.window ++ rest)) = _
    rw [if_neg hne]
    rfl
  | 1, _ =>
    have hne : x ≠ 0x5A := fun h => hx (congrArg some h.symm)
    show Hunt.windows _ _ _ (if x = 0x5A then .inside [] else if x = 0xA5 then .half else .idle)
      (c.window ++ rest) = _
    rw [if_neg hne]
    split
    · exact hhalf
    · rfl

/-! ## One byte changed -/

/-- Where the damage is harmless: behind a preamble, or in one behind which the windows that the
receiver cuts out (at each `A5 5A` the next 50 bytes) carry nothing but messages of this frame and
the later ones, in order. -/
def Harmless (cs : List Command) (bytes : List UInt8) (j : ℕ) : Prop :=
  2 ≤ j % 52 ∨ ∀ ws, Hunt.Cuts 0xA5 0x5A 50 (bytes.drop (52 * (j / 52) + 2)) ws →
    (ws.filterMap carried).Sublist ((cs.drop (j / 52)).filterMap Command.message)

/-- The messages carried by a stream that is damaged behind a preamble. -/
theorem carried_damaged (hall : ∀ c ∈ cs, c.Framed) {c : Command} (hc : c.Framed)
    {ds : List Command} (hds : ∀ d ∈ ds, d.Framed) {r : ℕ} (hr : r < 50) {x : UInt8}
    (hx : c.window[r]? ≠ some x) :
    (linkWindows .idle (framesOf cs ++ (0xA5 :: 0x5A :: c.window.set r x ++ framesOf ds))).filterMap
        carried = cs.filterMap Command.message ++ ds.filterMap Command.message := by
  have hpq : (0xA5 : UInt8) ≠ 0x5A := by decide
  have hlen : (c.window.set r x).length = 50 := by rw [List.length_set, hc.window_length]
  obtain ⟨hafter, hwins⟩ := Hunt.frame (s := .idle) hpq (by decide : 0 < 50) (.inl rfl) hlen
  have hrest := linkWindows_framesOf hds []
  rw [List.append_nil] at hrest
  rw [linkWindows_framesOf hall, linkWindows, Hunt.windows_append, hafter, hwins]
  show (_ ++ ([_] ++ linkWindows .idle (framesOf ds))).filterMap carried = _
  rw [hrest, List.filterMap_append, List.filterMap_append, carried_windows hall,
    List.filterMap_append, carried_windows hds]
  show _ ++ ([c.window.set r x].filterMap carried ++ (_ ++ [])) = _
  rw [List.filterMap_cons, carried_set hc hr hx, List.append_nil]
  rfl

/-- The bytes of some commands, around the frame of one of them. -/
theorem framesOf_split {k : ℕ} (hk : k < cs.length) :
    framesOf cs = framesOf (cs.take k) ++ (0xA5 :: 0x5A :: cs[k].window ++
      framesOf (cs.drop (k + 1))) := by
  conv_lhs => rw [← List.take_append_drop k cs, framesOf_append, List.drop_eq_getElem_cons hk]
  rfl

/-- What was fed is a subsequence of the messages exactly if what the windows carry is. -/
theorem fed_sublist_iff (hall : ∀ c ∈ cs, c.Framed) (ws : List (List UInt8)) :
    (∃ ms : List (List UInt8), ms.Sublist (cs.filterMap Command.message) ∧
      (ws.filterMap carried).flatten = ms.flatten) ↔
    (ws.filterMap carried).Sublist (cs.filterMap Command.message) := by
  constructor
  · rintro ⟨ms, hsub, hflat⟩
    have hws : ∀ m ∈ ws.filterMap carried, IsMessage m := by
      intro m hm
      obtain ⟨w, -, hw⟩ := List.mem_filterMap.1 hm
      exact carried_isMessage hw
    have hms : ∀ m ∈ ms, IsMessage m := fun m hm => message_isMessage hall m (hsub.subset hm)
    rwa [flatten_inj hws hms hflat]
  · intro hsub
    exact ⟨_, hsub, rfl⟩

/-- A damaged frame is dropped, the others are carried. -/
theorem damaged_behind (hall : ∀ c ∈ cs, c.Framed) {k r : ℕ} (hk : k < cs.length) (hr : r < 50)
    {x : UInt8} (hx : cs[k].window[r]? ≠ some x) :
    ((linkWindows .idle (framesOf (cs.take k) ++
      (0xA5 :: 0x5A :: cs[k].window.set r x ++ framesOf (cs.drop (k + 1))))).filterMap
        carried).Sublist (cs.filterMap Command.message) := by
  have htake : ∀ c ∈ cs.take k, c.Framed := fun c hc => hall c (List.mem_of_mem_take hc)
  have hdrop : ∀ c ∈ cs.drop (k + 1), c.Framed := fun c hc => hall c (List.mem_of_mem_drop hc)
  rw [carried_damaged htake (hall _ (List.getElem_mem hk)) hdrop hr hx, ← List.filterMap_append]
  apply List.Sublist.filterMap
  have hsub : (cs.drop (k + 1)).Sublist (cs.drop k) := by
    rw [List.drop_eq_getElem_cons hk]
    exact List.sublist_cons_self _ _
  have hboth := (List.Sublist.refl (cs.take k)).append hsub
  rwa [List.take_append_drop] at hboth

/-- A damaged preamble loses the frame, and what the stray windows carry comes in its place. -/
theorem damaged_preamble (hall : ∀ c ∈ cs, c.Framed) {k r : ℕ} (hr : r < 2) {x : UInt8}
    (hx : [0xA5, 0x5A][r]? ≠ some x) {rest : List UInt8} {c : Command} {tail : List UInt8}
    (hrest : rest = c.window ++ tail) :
    ((linkWindows .idle (framesOf (cs.take k) ++ ([0xA5, 0x5A].set r x ++ rest))).filterMap
        carried).Sublist (cs.filterMap Command.message) ↔
    ∀ ws, Hunt.Cuts 0xA5 0x5A 50 rest ws →
      (ws.filterMap carried).Sublist ((cs.drop k).filterMap Command.message) := by
  subst hrest
  have htake : ∀ c ∈ cs.take k, c.Framed := fun c hc => hall c (List.mem_of_mem_take hc)
  have hmessages : cs.filterMap Command.message =
      (cs.take k).filterMap Command.message ++ (cs.drop k).filterMap Command.message := by
    rw [← List.filterMap_append, List.take_append_drop]
  have hcuts (ws : List (List UInt8)) : Hunt.Cuts 0xA5 0x5A 50 (c.window ++ tail) ws ↔
      linkWindows .idle (c.window ++ tail) = ws := Hunt.cuts_iff (by decide) (by decide)
  rw [linkWindows_framesOf htake, linkWindows_lost c tail hr hx, List.filterMap_append,
    carried_windows htake, hmessages, List.append_sublist_append_left]
  constructor
  · intro h ws hws
    rwa [← (hcuts ws).1 hws]
  · intro h
    exact h _ ((hcuts _).2 rfl)

/-- Damage is harmless in a frame that has no preamble inside: no stray window is cut out of it, and
the windows of the later frames are their own. -/
theorem harmless_of_no_preamble {bytes : List UInt8} (hsend : send cs = .ok bytes) {j : ℕ}
    {c : Command} (hc : cs[j / 52]? = some c) (hnone : ¬ [0xA5, 0x5A] <:+: c.window) :
    Harmless cs bytes j := by
  obtain ⟨hall, hbytes⟩ := send_eq_ok.1 hsend
  change bytes = framesOf cs at hbytes
  obtain ⟨hk, rfl⟩ := List.getElem?_eq_some_iff.1 hc
  have hlen : (framesOf (cs.take (j / 52)) ++ [0xA5, 0x5A]).length = 52 * (j / 52) + 2 := by
    rw [List.length_append, framesOf_length fun c hc => hall c (List.mem_of_mem_take hc),
      List.length_take_of_le (Nat.le_of_lt hk)]
    rfl
  have hdrop : bytes.drop (52 * (j / 52) + 2) =
      cs[j / 52].window ++ framesOf (cs.drop (j / 52 + 1)) := by
    have hsplit : framesOf (cs.take (j / 52)) ++ (0xA5 :: 0x5A :: cs[j / 52].window ++
        framesOf (cs.drop (j / 52 + 1))) = framesOf (cs.take (j / 52)) ++ [0xA5, 0x5A] ++
          (cs[j / 52].window ++ framesOf (cs.drop (j / 52 + 1))) := by
      rw [List.append_assoc]
      rfl
    rw [hbytes, framesOf_split hk, hsplit, List.drop_left' hlen]
  have hlater : ∀ d ∈ cs.drop (j / 52 + 1), d.Framed := fun d hd => hall d (List.mem_of_mem_drop hd)
  have hwindows : ∀ w ∈ (cs.drop (j / 52 + 1)).map Command.window, w.length = 50 := by
    intro w hw
    obtain ⟨d, hd, rfl⟩ := List.mem_map.1 hw
    exact (hlater d hd).window_length
  refine .inr fun ws hws => ?_
  rw [hdrop] at hws
  have hcut := hws.windows_eq (by decide) (by decide)
  rw [Hunt.windows_append, Hunt.windows_of_no_preamble hnone, framesOf, (Hunt.windows_flatMap
    (by decide) (by decide) (Hunt.hunting_of_no_preamble hnone) hwindows).1, List.nil_append] at hcut
  rw [← hcut, carried_windows hlater, List.drop_eq_getElem_cons hk]
  exact (List.sublist_cons_self _ _).filterMap _

/-- For every list of frames sent back to back and every byte replaced by another, over every run
from reset in which no byte arrives while a message is fed or a snapshot answered: what the feeder
gives, with what it holds, is a subsequence of the messages that were sent exactly if the damage
is harmless. -/
theorem corrupted_link_iff {bytes : List UInt8} (hsend : send cs = .ok bytes) {j : ℕ}
    (hj : j < bytes.length) {x : UInt8} (hx : x ≠ bytes[j]) {s : BridgeState} {is : List BridgeIn}
    (hquiet : Quiet s.reset is) (harrived : arrived is = bytes.set j x) :
    (∃ ms : List (List UInt8), ms.Sublist (cs.filterMap Command.message) ∧
      (bridge.allGiven s.reset is).flatMap BridgeEvent.ingested ++
        (bridge.run s.reset is).rx.toFeed = ms.flatten) ↔ Harmless cs bytes j := by
  obtain ⟨hall, hbytes⟩ := send_eq_ok.1 hsend
  change bytes = framesOf cs at hbytes
  have hk : j / 52 < cs.length := by
    rw [hbytes, framesOf_length hall] at hj
    omega
  have hsplit := framesOf_split hk
  rw [← hbytes] at hsplit
  have hlen : (framesOf (cs.take (j / 52))).length = 52 * (j / 52) := by
    rw [framesOf_length fun c hc => hall c (List.mem_of_mem_take hc),
      List.length_take_of_le (Nat.le_of_lt hk)]
  have hmod : j - 52 * (j / 52) = j % 52 := by omega
  -- what was fed is what the windows of the damaged stream carry
  have hfed := (heard_inv s is).fed
  rw [hquiet.heard, harrived, verdicts, flatMap_fed] at hfed
  rw [hfed, fed_sublist_iff hall]
  -- the damage is in the frame of command `j / 52`
  have hbyte : bytes[j]? ≠ some x := by
    rw [List.getElem?_eq_getElem hj]
    exact fun h => hx (Option.some.inj h).symm
  have hin : framesOf (cs.take (j / 52)) ++ (0xA5 :: 0x5A :: cs[j / 52].window ++
      framesOf (cs.drop (j / 52 + 1))) = framesOf (cs.take (j / 52)) ++
        ([0xA5, 0x5A] ++ (cs[j / 52].window ++ framesOf (cs.drop (j / 52 + 1)))) := rfl
  rw [hsplit, hin, List.getElem?_append_right (by omega), hlen, hmod] at hbyte
  rw [Harmless, hsplit, hin, List.set_append_right _ _ (by omega), hlen, hmod]
  rcases Nat.lt_or_ge (j % 52) 2 with hlt | hge
  · rw [List.getElem?_append_left hlt] at hbyte
    rw [List.set_append_left _ _ hlt, damaged_preamble hall hlt hbyte rfl]
    have hdrop : (framesOf (cs.take (j / 52)) ++ ([0xA5, 0x5A] ++ (cs[j / 52].window ++
        framesOf (cs.drop (j / 52 + 1))))).drop (52 * (j / 52) + 2) =
        cs[j / 52].window ++ framesOf (cs.drop (j / 52 + 1)) := by
      rw [← hlen, List.drop_length_add_append]
      rfl
    rw [hdrop]
    exact (or_iff_right (Nat.not_le_of_lt hlt)).symm
  · have hw : cs[j / 52].window.length = 50 := (hall _ (List.getElem_mem hk)).window_length
    have hr : j % 52 - 2 < 50 := by omega
    rw [List.getElem?_append_right hge, List.length_cons, List.length_singleton,
      List.getElem?_append_left (by omega)] at hbyte
    rw [List.set_append_right _ _ hge, List.length_cons, List.length_singleton,
      List.set_append_left _ _ (by omega)]
    exact iff_of_true (damaged_behind hall hk hr hbyte) (.inl hge)

/-- An Add whose order reference begins with `A5 5A 01 00 01`. -/
def addWithPreamble : List UInt8 :=
  [0, 38, 65, 0, 1, 0, 0, 0, 0, 0, 0, 0, 0, 3, 232, 0xA5, 0x5A, 1, 0, 1, 83, 0, 0, 66, 0, 0, 0, 100,
    65, 65, 80, 76, 32, 32, 32, 32, 0, 9, 39, 192]

/-- The Add behind it, whose timestamp ends in the sum of the stray window. -/
def addBehind : List UInt8 :=
  [0, 38, 65, 0, 1, 0, 0, 0, 0, 0, 0, 0, 0, 4, 209, 0, 0, 0, 0, 0, 0, 0, 2, 66, 0, 0, 0, 100,
    65, 65, 80, 76, 32, 32, 32, 32, 0, 9, 39, 192]

/-- Some bytes, one a cycle, with a pause behind the first `n`. -/
def pausedRun (bytes : List UInt8) (n : ℕ) : List BridgeIn :=
  (bytes.take n).map (fun b => ⟨some b, true, false, default⟩) ++
    List.replicate 4 ⟨none, true, false, default⟩ ++
      (bytes.drop n).map fun b => ⟨some b, true, false, default⟩

/-- The bytes of the two Adds. -/
def twoAdds : List UInt8 := framesOf [.itch addWithPreamble, .itch addBehind]

/-- With its first preamble byte lost, three bytes from inside a frame are fed as a message. -/
theorem corrupted_preamble_leaks :
    send [.itch addWithPreamble, .itch addBehind] = .ok twoAdds ∧
    Quiet (reset default) (pausedRun (twoAdds.set 0 0xFF) 70) ∧
    arrived (pausedRun (twoAdds.set 0 0xFF) 70) = twoAdds.set 0 0xFF ∧
    (bridge.allGiven (reset default) (pausedRun (twoAdds.set 0 0xFF) 70)).flatMap
        BridgeEvent.ingested = [0, 1, 83] ∧
    ¬ ∃ ms : List (List UInt8), ms.Sublist [addWithPreamble, addBehind] ∧
      (bridge.allGiven (reset default) (pausedRun (twoAdds.set 0 0xFF) 70)).flatMap
          BridgeEvent.ingested ++
        (bridge.run (reset default) (pausedRun (twoAdds.set 0 0xFF) 70)).rx.toFeed =
          ms.flatten := by
  have hfed : (bridge.allGiven (reset default) (pausedRun (twoAdds.set 0 0xFF) 70)).flatMap
      BridgeEvent.ingested = [0, 1, 83] := by decide +kernel
  refine ⟨by decide +kernel, by decide +kernel, by decide +kernel, hfed, ?_⟩
  rintro ⟨ms, hsub, heq⟩
  have hnone : ∀ ms ∈ [addWithPreamble, addBehind].sublists,
      (bridge.allGiven (reset default) (pausedRun (twoAdds.set 0 0xFF) 70)).flatMap
          BridgeEvent.ingested ++
        (bridge.run (reset default) (pausedRun (twoAdds.set 0 0xFF) 70)).rx.toFeed ≠
          ms.flatten := by decide +kernel
  exact hnone ms (List.mem_sublists.2 hsub) heq

/-- The bytes of two short messages. -/
def shortMessages : List UInt8 := framesOf [.itch [0, 1, 83], .itch [0, 1, 84]]

/-- The first preamble is lost, with no other inside its frame. -/
theorem corrupted_link_iff_preamble :
    ∃ ms : List (List UInt8), ms.Sublist [[0, 1, 83], [0, 1, 84]] ∧
      (bridge.allGiven (reset default) (pausedRun (shortMessages.set 0 0xFF) 52)).flatMap
          BridgeEvent.ingested ++
        (bridge.run (reset default) (pausedRun (shortMessages.set 0 0xFF) 52)).rx.toFeed =
          ms.flatten := by
  have hsend : send [.itch [0, 1, 83], .itch [0, 1, 84]] = .ok shortMessages := by decide +kernel
  have hquiet : Quiet (reset default) (pausedRun (shortMessages.set 0 0xFF) 52) := by
    decide +kernel
  have hj : 0 < shortMessages.length := by decide +kernel
  have hget : shortMessages[0]? ≠ some 0xFF := by decide +kernel
  have hx : (0xFF : UInt8) ≠ shortMessages[0] := by
    intro h
    rw [List.getElem?_eq_getElem hj, ← h] at hget
    exact hget rfl
  have harrived : arrived (pausedRun (shortMessages.set 0 0xFF) 52) =
      shortMessages.set 0 0xFF := by decide +kernel
  have hnone : ¬ [0xA5, 0x5A] <:+: (Command.itch [0, 1, 83]).window := by decide +kernel
  exact (corrupted_link_iff hsend hj hx hquiet harrived).2
    (harmless_of_no_preamble hsend rfl hnone)

end ItchOrderbook.ObHost
