import ItchOrderbook.Trade.OrderManagerCalls

/-!
# Turning a passive entry

A flat manager whose signals turn round at every bar cancels its entry and submits one the other
way, bar by bar (`Turning.bar`). As long as nothing trades, each bar takes one reference.
-/

namespace ItchOrderbook

open FloatOps

/-- No price crosses, so nothing is taken. -/
theorem sweep_no_cross {opposite : UInt32 → UInt32} {crosses : UInt32 → Bool}
    {next : UInt32 → UInt32} {taker : FillRec} {p remaining : UInt32} (h : crosses p = false)
    (fuel : ℕ) : sweep opposite crosses next taker fuel p remaining = ([], remaining) := by
  cases fuel with
  | zero => rfl
  | succ fuel => exact if_pos (Or.inr (Or.inr h))

/-- A limit short of the other side's best price takes nothing. -/
theorem FillEngine.sweepBook_passive {b : OrderBook} {code : UInt8} {px : UInt32}
    (h : if code = sideBuy then px < b.bestAsk else b.bestBid < px) (taker : FillRec)
    (shares : UInt32) : sweepBook (some b) code px taker shares = ([], shares) := by
  unfold sweepBook
  dsimp only
  split at h
  · rw [if_pos ‹_›]
    exact sweep_no_cross (decide_eq_false (UInt32.not_le.mpr h)) _
  · rw [if_neg ‹_›]
    exact sweep_no_cross (decide_eq_false (UInt32.not_le.mpr h)) _

namespace OrderManager

variable {F : Type} [FloatOps F] {om : OrderManager F}

/-- The signal to enter in a direction, and in no other. -/
def entrySignal (dir : ℤ) (size : F) : Signals F :=
  { (Signals.initial : Signals F) with el := decide (0 < dir), es := decide (dir < 0), size }

/-- A flat manager whose only order, if any, is an entry the other way. -/
structure Turning (om : OrderManager F) (dir : ℤ) (w : Option OpenOrder) : Prop where
  passive : om.cfg.entryCross = false
  flat : om.side = 0
  noExit : om.exitRef = 0
  taken : om.fe.fills = []
  opens : om.fe.openOrders = w.toList
  order : ∀ o ∈ w, o.ref = om.entryRef ∧ om.entryRef ≠ 0 ∧ om.entryDir = -dir
  none : w = none → om.entryRef = 0

omit [FloatOps F] in
/-- The entry the other way is cancelled. -/
theorem Turning.cancel {dir : ℤ} {w : Option OpenOrder} (h : om.Turning dir w) :
    om.cancelWorkingEntry = { om with fe := { om.fe with openOrders := [] }, entryRef := 0 } := by
  unfold cancelWorkingEntry
  cases w with
  | none =>
    have hentry := h.none rfl
    rw [if_pos hentry, ← show om.fe.openOrders = [] from h.opens, ← hentry]
  | some o =>
    obtain ⟨href, hne, -⟩ := h.order o rfl
    rw [if_neg hne, FillEngine.cancel_single h.opens fun o' ho' => by cases ho'; exact href]


variable {T : Type}

/-- The manager with an entry that rests and nothing filled. -/
def resting (om : OrderManager F) (o : OpenOrder) (t : ℤ) (subs : List Submission) :
    OrderManager F :=
  { om with
    fe := { om.fe with
      nextRef := om.fe.nextRef + 1
      nextSeq := om.fe.nextSeq + 1
      openOrders := [o] }
    entryRef := o.ref
    cfgStop := zero
    cfgTp := zero
    cfgTrail := zero
    curBar := t + 1
    submissions := subs }

omit [FloatOps F] in
/-- With or without an order to cancel, no order is left before the new entry. -/
theorem Turning.flip {dir : ℤ} {w : Option OpenOrder} (h : om.Turning dir w) (flip : Bool)
    (hflip : ∀ o ∈ w, flip = true) : (if flip then om.cancelWorkingEntry else om)
      = { om with fe := { om.fe with openOrders := [] }, entryRef := 0 } := by
  cases flip with
  | true => exact h.cancel
  | false =>
    cases w with
    | none =>
      rw [← h.cancel]
      unfold cancelWorkingEntry
      rw [if_pos (h.none rfl)]
      rfl
    | some o => exact absurd (hflip o rfl) Bool.false_ne_true

/-- The signal block cancels, and works the new entry. -/
theorem Turning.arbitrate {dir : ℤ} {w : Option OpenOrder} (h : om.Turning dir w)
    (hdir : dir = 1 ∨ dir = -1) (eng : BookEngine T) (size : F) (ts : UInt64)
    {px shares : UInt32} (hpx : om.entryPrice eng dir = px) (hpx0 : px ≠ 0)
    (hshares : om.entrySize size px = shares) (hshares0 : shares ≠ 0) :
    om.arbitrate eng (entrySignal dir size) ts =
      workEntry { om with
        fe := { om.fe with openOrders := [] }
        entryRef := 0
        entryDir := dir } eng .entry px shares ts := by
  have henter : ∀ flip : Bool, (∀ o ∈ w, flip = true) →
      om.enterOnSignal eng dir flip size ts = workEntry { om with
        fe := { om.fe with openOrders := [] }
        entryRef := 0
        entryDir := dir } eng .entry px shares ts := by
    intro flip hflip
    have hpx' : entryPrice { om with
        fe := { om.fe with openOrders := [] }, entryRef := 0, entryDir := dir } eng dir = px := hpx
    have hshares' : entrySize { om with
        fe := { om.fe with openOrders := [] }, entryRef := 0, entryDir := dir } size px = shares :=
      hshares
    rw [enterOnSignal, h.flip flip hflip, enterIfFree, if_pos rfl, submitEntry, hpx']
    dsimp only
    rw [if_neg hpx0, hshares', if_neg hshares0]
  have hflat := h.flat
  unfold OrderManager.arbitrate
  rw [if_neg (fun hlong => absurd hlong.1 (by rw [hflat]; decide)),
    if_neg (fun hshort => absurd hshort.1 (by rw [hflat]; decide)), if_pos ⟨hflat, h.noExit⟩]
  rcases hdir with rfl | rfl
  · rw [if_pos ⟨rfl, rfl⟩]
    refine henter _ fun o ho => ?_
    rw [(h.order o ho).2.2]
    rfl
  · rw [if_neg (fun hlong => absurd hlong.1 Bool.false_ne_true), if_pos ⟨rfl, rfl⟩]
    refine henter _ fun o ho => ?_
    rw [(h.order o ho).2.2]
    rfl

/-- An entry that crosses nothing rests. -/
theorem workEntry_rests (hopen : om.fe.openOrders = []) (htaken : om.fe.fills = [])
    (eng : BookEngine T) (purpose : Purpose) {px shares : UInt32} (ts : UInt64)
    (hshares0 : shares ≠ 0)
    (hsweep : ∀ taker, FillEngine.sweepBook (eng.books om.fe.locate) (entryCode om.entryDir) px
      taker shares = ([], shares)) :
    ∃ sub, om.workEntry eng purpose px shares ts =
      { om with
        fe := { om.fe with
          nextRef := om.fe.nextRef + 1
          nextSeq := om.fe.nextSeq + 1
          openOrders := [⟨om.fe.nextRef, entryCode om.entryDir, px, shares, shares,
            (FillEngine.displayed (eng.books om.fe.locate) (entryCode om.entryDir) px).toUInt64,
            om.fe.maxMarketRef, om.fe.nextSeq⟩] }
        entryRef := om.fe.nextRef
        submissions := om.submissions ++ [sub] } := by
  have hsubmit : om.fe.submitLimit eng (entryCode om.entryDir) px shares ts =
      (om.fe.nextRef, { om.fe with
        nextRef := om.fe.nextRef + 1
        nextSeq := om.fe.nextSeq + 1
        openOrders := [⟨om.fe.nextRef, entryCode om.entryDir, px, shares, shares,
          (FillEngine.displayed (eng.books om.fe.locate) (entryCode om.entryDir) px).toUInt64,
          om.fe.maxMarketRef, om.fe.nextSeq⟩] }) := by
    unfold FillEngine.submitLimit
    simp only [hsweep, List.append_nil, hopen, List.nil_append, FillEngine.queueSnapshot,
      List.foldl_nil]
    rw [if_pos hshares0]
  unfold OrderManager.workEntry OrderManager.submitLimit
  simp only [hsubmit]
  refine ⟨{ purpose, ts, shares
            code := entryCode om.entryDir
            price := px
            ref := om.fe.nextRef
            side := om.side
            qty := om.qty
            book := eng.books om.fe.locate }, ?_⟩
  unfold OrderManager.pollFills FillEngine.takeFills
  simp only [htaken, List.foldl_nil]
  unfold forgetEntry
  simp [FillEngine.find]

/-- An entry at the touch stays where it is. -/
theorem repeg_at_touch (eng : BookEngine T) (ts : UInt64)
    (htouch : ∃ o, om.fe.openOrders = [o] ∧ o.ref = om.entryRef
      ∧ o.price = om.entryPrice eng om.entryDir) : om.repeg eng ts = om := by
  obtain ⟨o, hopens, href, hprice⟩ := htouch
  have hfind : om.fe.find om.entryRef = some o :=
    FillEngine.find_working (w := some o) hopens fun o' ho' => by cases ho'; exact href
  unfold repeg
  split
  · rw [hfind]
    exact if_neg fun hmove => hmove.2 hprice.symm
  · rfl

/-- A bar that turns the manager: its order is cancelled, and an entry rests the other way. -/
theorem Turning.bar {dir : ℤ} {w : Option OpenOrder} (h : om.Turning dir w)
    (hdir : dir = 1 ∨ dir = -1) (eng : BookEngine T) (size : F) (t : ℤ) (ts : UInt64)
    {px shares : UInt32} (hpx : om.entryPrice eng dir = px) (hpx0 : px ≠ 0)
    (hshares : om.entrySize size px = shares) (hshares0 : shares ≠ 0)
    (hsweep : ∀ taker, FillEngine.sweepBook (eng.books om.fe.locate) (entryCode dir) px taker
      shares = ([], shares)) :
    ∃ subs, subs.length = om.submissions.length + 1 ∧
      (om.onSignals eng (entrySignal dir size) ts).endBar eng t ts =
        resting { om with entryDir := dir }
          ⟨om.fe.nextRef, entryCode dir, px, shares, shares,
            (FillEngine.displayed (eng.books om.fe.locate) (entryCode dir) px).toUInt64,
            om.fe.maxMarketRef, om.fe.nextSeq⟩ t subs := by
  have hlatched : Turning { om with cfgStop := zero, cfgTp := zero, cfgTrail := zero } dir w :=
    ⟨h.passive, h.flat, h.noExit, h.taken, h.opens, h.order, h.none⟩
  have harb := hlatched.arbitrate hdir eng size ts hpx hpx0 hshares hshares0
  obtain ⟨sub, hwork⟩ := @workEntry_rests F _ { om with
      cfgStop := zero
      cfgTp := zero
      cfgTrail := zero
      fe := { om.fe with openOrders := [] }
      entryRef := 0
      entryDir := dir } T rfl h.taken eng .entry px shares ts hshares0 hsweep
  refine ⟨om.submissions ++ [sub], by rw [List.length_append, List.length_singleton], ?_⟩
  have hsignals : om.onSignals eng (entrySignal dir size) ts = _ := harb.trans hwork
  rw [hsignals, endBar, repeg_at_touch]
  · rfl
  · exact ⟨_, rfl, rfl, hpx.symm⟩

end OrderManager

end ItchOrderbook
