import ItchOrderbook.Trade.OrderManagerSpec

/-!
# The calls of the order manager

What each call keeps, when it starts with all fills applied (`Ready`). Every call that submits
polls the fills before it returns, so it ends that way again.
-/

namespace ItchOrderbook

open FloatOps
open FillSim (nthRef)

/-- References are not 0 before they come round. -/
theorem FillSim.nthRef_ne_zero {n : ℕ} (h : n + 1 < 2 ^ 63) : nthRef n ≠ 0 := by
  intro hzero
  have hval := congrArg UInt64.toNat hzero
  rw [nthRef, UInt64.toNat_add, UInt64.toNat_ofNat_of_lt' (show n < 2 ^ 64 by omega),
    show (ourRefBit ||| 1).toNat = 2 ^ 63 + 1 from rfl, UInt64.toNat_zero] at hval
  omega

namespace OrderManager

variable {F : Type} [FloatOps F]

/-! ## What is submitted -/

/-- Nothing is submitted, and the configuration stays. -/
structure Same (om om' : OrderManager F) : Prop where
  submissions : om'.submissions = om.submissions
  cfg : om'.cfg = om.cfg

/-- What is submitted is noted at the end, and the configuration stays. -/
structure Extends (om om' : OrderManager F) : Prop where
  submissions : om.submissions <+: om'.submissions
  cfg : om'.cfg = om.cfg

section Submissions

variable {om om' om'' : OrderManager F}

omit [FloatOps F]

theorem Same.refl (om : OrderManager F) : Same om om := ⟨rfl, rfl⟩

theorem Same.trans (h : Same om om') (h' : Same om' om'') : Same om om'' :=
  ⟨h'.submissions.trans h.submissions, h'.cfg.trans h.cfg⟩

theorem Same.extends (h : Same om om') : Extends om om' :=
  ⟨by rw [h.submissions], h.cfg⟩

theorem Extends.refl (om : OrderManager F) : Extends om om := (Same.refl om).extends

theorem Extends.trans (h : Extends om om') (h' : Extends om' om'') : Extends om om'' :=
  ⟨h.submissions.trans h'.submissions, h'.cfg.trans h.cfg⟩

theorem same_forgetEntry (om : OrderManager F) : Same om om.forgetEntry := by
  unfold forgetEntry
  split
  · exact ⟨rfl, rfl⟩
  · exact Same.refl om

theorem same_cancelWorkingEntry (om : OrderManager F) : Same om om.cancelWorkingEntry := by
  unfold cancelWorkingEntry
  split
  · exact Same.refl om
  · exact ⟨rfl, rfl⟩

theorem same_cancelWorkingExit (om : OrderManager F) : Same om om.cancelWorkingExit := by
  unfold cancelWorkingExit
  split
  · exact ⟨rfl, rfl⟩
  · exact Same.refl om

end Submissions

section Submissions

variable (om : OrderManager F)

theorem same_openPosition (f : FillRec) : Same om (om.openPosition f) := by
  unfold openPosition
  split
  · exact ⟨rfl, rfl⟩
  · exact Same.refl om

theorem same_settleExit : Same om om.settleExit := by
  unfold settleExit
  split
  · dsimp only
    split
    · exact ⟨rfl, rfl⟩
    · exact ⟨rfl, rfl⟩
  · split
    · exact ⟨rfl, rfl⟩
    · exact Same.refl om

/-- Applying a fill submits nothing. -/
theorem same_applyFill (f : FillRec) : Same om (om.applyFill f) := by
  have hcharge : Same om (om.charge f) := ⟨rfl, rfl⟩
  unfold applyFill
  dsimp only
  split
  · have hopen := hcharge.trans (same_openPosition (om.charge f) f)
    unfold entryFill
    exact ⟨(same_forgetEntry _).submissions.trans hopen.submissions,
      (same_forgetEntry _).cfg.trans hopen.cfg⟩
  · split
    · unfold exitFill
      exact ⟨(same_settleExit _).submissions, (same_settleExit _).cfg⟩
    · exact hcharge

theorem same_foldl_applyFill (fills : List FillRec) : Same om (fills.foldl applyFill om) := by
  induction fills generalizing om with
  | nil => exact Same.refl om
  | cons f fills ih => exact (same_applyFill om f).trans (ih (om.applyFill f))

theorem same_pollFills : Same om om.pollFills := by
  have hfills := same_foldl_applyFill { om with fe := om.fe.takeFills.2 } om.fe.takeFills.1
  exact ⟨hfills.submissions, hfills.cfg⟩

theorem same_moveAnchor (px : F) : Same om (om.moveAnchor px) := by
  unfold moveAnchor
  split
  · split
    · exact ⟨rfl, rfl⟩
    · exact Same.refl om
  · split
    · exact ⟨rfl, rfl⟩
    · exact Same.refl om

variable {T : Type} (eng : BookEngine T)

/-- Working an entry submits one order. -/
theorem submissions_workEntry (purpose : Purpose) (price shares : UInt32) (ts : UInt64) :
    (om.workEntry eng purpose price shares ts).cfg = om.cfg ∧
      ∃ sub, (om.workEntry eng purpose price shares ts).submissions = om.submissions ++ [sub] := by
  obtain ⟨hsubs, hcfg⟩ := Same.trans (same_pollFills _) (same_forgetEntry
    (pollFills { (om.submitLimit eng purpose (entryCode om.entryDir) price shares ts).2 with
      entryRef := (om.submitLimit eng purpose (entryCode om.entryDir) price shares ts).1 }))
  exact ⟨hcfg, _, hsubs⟩

/-- So does working an exit. -/
theorem submissions_workExit (price : UInt32) (ts : UInt64) :
    (om.workExit eng price ts).cfg = om.cfg ∧
      ∃ sub, (om.workExit eng price ts).submissions = om.submissions ++ [sub] := by
  obtain ⟨hsubs, hcfg⟩ := same_pollFills
    { (om.submitLimit eng .exit (exitCode om.side) price om.qty ts).2 with
      exitRef := (om.submitLimit eng .exit (exitCode om.side) price om.qty ts).1 }
  exact ⟨hcfg, _, hsubs⟩

theorem extends_submitEntry (dir : ℤ) (sizeFrac : F) (ts : UInt64) :
    Extends om (om.submitEntry eng dir sizeFrac ts) := by
  unfold submitEntry
  dsimp only
  split
  · exact Extends.refl om
  · split
    · exact Extends.refl om
    · obtain ⟨hcfg, sub, hsub⟩ := submissions_workEntry { om with entryDir := dir } eng .entry
        (om.entryPrice eng dir) (om.entrySize sizeFrac (om.entryPrice eng dir)) ts
      exact ⟨hsub ▸ List.prefix_append _ _, hcfg⟩

theorem extends_submitExit (reason : Reason) (ts : UInt64) :
    Extends om (om.submitExit eng reason ts) := by
  unfold submitExit
  dsimp only
  split
  · exact Extends.refl om
  · split
    · exact Extends.refl om
    · obtain ⟨hcfg, sub, hsub⟩ := submissions_workExit { om with exitReason := reason } eng
        (om.exitPrice eng) ts
      exact ⟨hsub ▸ List.prefix_append _ _, hcfg⟩

theorem extends_onTradePrint (price : UInt32) (ts : UInt64) :
    Extends om (om.onTradePrint eng price ts) := by
  have hprint : Extends om { om with lastPrint := price } := ⟨List.prefix_rfl, rfl⟩
  unfold onTradePrint
  dsimp only
  split
  · exact hprint
  · have hmoved := hprint.trans (same_moveAnchor { om with lastPrint := price }
      (ofUInt32 price)).extends
    split
    · exact hmoved
    · exact (hmoved.trans (same_cancelWorkingEntry _).extends).trans (extends_submitExit _ eng _ ts)

theorem extends_exitOnSignal (ts : UInt64) : Extends om (om.exitOnSignal eng ts) := by
  have hcancel := (same_cancelWorkingEntry om).extends
  unfold exitOnSignal
  dsimp only
  split
  · exact hcancel.trans (extends_submitExit _ eng .signal ts)
  · exact hcancel

theorem extends_enterIfFree (dir : ℤ) (sizeFrac : F) (ts : UInt64) :
    Extends om (om.enterIfFree eng dir sizeFrac ts) := by
  have hdirected : Extends om { om with entryDir := dir } := ⟨List.prefix_rfl, rfl⟩
  unfold enterIfFree
  split
  · exact hdirected.trans (extends_submitEntry _ eng dir sizeFrac ts)
  · exact Extends.refl om

theorem extends_enterOnSignal (dir : ℤ) (flip : Bool) (sizeFrac : F) (ts : UInt64) :
    Extends om (om.enterOnSignal eng dir flip sizeFrac ts) := by
  unfold enterOnSignal
  split
  · exact (same_cancelWorkingEntry om).extends.trans (extends_enterIfFree _ eng dir sizeFrac ts)
  · exact extends_enterIfFree om eng dir sizeFrac ts

theorem extends_arbitrate (sig : Signals F) (ts : UInt64) :
    Extends om (om.arbitrate eng sig ts) := by
  unfold arbitrate
  split
  · exact extends_exitOnSignal om eng ts
  · split
    · exact extends_exitOnSignal om eng ts
    · split
      · split
        · exact extends_enterOnSignal ..
        · split
          · exact extends_enterOnSignal ..
          · exact Extends.refl om
      · exact Extends.refl om

theorem extends_repeg (ts : UInt64) : Extends om (om.repeg eng ts) := by
  unfold repeg
  split
  · split
    · exact ⟨List.prefix_rfl, rfl⟩
    · rename_i o _
      dsimp only
      split
      · obtain ⟨hcfg, sub, hsub⟩ := submissions_workEntry
          { om with fe := (om.fe.cancel om.entryRef).2 } eng (.repeg o)
          (om.entryPrice eng om.entryDir) o.remaining ts
        exact ⟨hsub ▸ List.prefix_append _ _, hcfg⟩
      · exact Extends.refl om
  · exact Extends.refl om

theorem extends_onSignals (sig : Signals F) (ts : UInt64) :
    Extends om (om.onSignals eng sig ts) := by
  have hlatched : Extends om
      { om with cfgStop := sig.stop, cfgTp := sig.tp, cfgTrail := sig.trail } :=
    ⟨List.prefix_rfl, rfl⟩
  exact hlatched.trans (extends_arbitrate _ eng sig ts)

theorem extends_endBar (t : ℤ) (ts : UInt64) : Extends om (om.endBar eng t ts) :=
  ⟨(extends_repeg om eng ts).submissions, (extends_repeg om eng ts).cfg⟩

/-- At the end of the stream nothing is submitted. -/
theorem same_finish (ts : UInt64) : Same om (om.finish ts) := by
  have hclose : ∀ om : OrderManager F, Same om (om.forceClose ts) := by
    intro om
    unfold forceClose
    split
    · exact ⟨rfl, rfl⟩
    · exact Same.refl om
  exact ((same_cancelWorkingEntry om).trans (same_cancelWorkingExit _)).trans (hclose _)

end Submissions

/-! ## Polling -/

/-- All fills are applied. -/
structure Ready (om : OrderManager F) : Prop extends om.Inv [] where
  taken : om.fe.fills = []

section Calls

variable {om : OrderManager F}

omit [FloatOps F] in
/-- The fills that are noted, the stops, the anchor and the clock concern no order. -/
theorem Working.frame {ps : List FillRec} (h : om.Working ps) (fills : List FillRec)
    (lastPrint : UInt32) (anchor cfgStop cfgTp cfgTrail : F) (curBar : ℤ) :
    Working { om with
      fe := { om.fe with fills }
      lastPrint, anchor, cfgStop, cfgTp, cfgTrail, curBar } ps := by
  cases h with
  | idle h₁ h₂ h₃ h₄ h₅ h₆ => exact .idle h₁ h₂ h₃ h₄ h₅ h₆
  | entering n w h₁ h₂ h₃ h₄ h₅ h₆ h₇ h₈ h₉ h₁₀ =>
    exact .entering n w h₁ h₂ h₃ h₄ h₅ h₆ h₇ h₈ h₉ h₁₀
  | exiting w h₁ h₂ h₃ h₄ h₅ h₆ => exact .exiting w h₁ h₂ h₃ h₄ h₅ h₆

/-- A batch of fills is applied. Induction on the batch. -/
theorem Inv.foldl_applyFill {ps : List FillRec} (h : om.Inv ps) :
    (ps.foldl OrderManager.applyFill om).fe = om.fe
      ∧ (ps.foldl OrderManager.applyFill om).Inv [] := by
  induction ps generalizing om with
  | nil => exact ⟨rfl, h⟩
  | cons f ps ih =>
    obtain ⟨hframe, hinv⟩ := h.applyFill
    obtain ⟨hfe, hinv'⟩ := ih hinv
    exact ⟨hfe.trans hframe.fe, hinv'⟩

/-- After a poll all fills are applied. -/
theorem Inv.pollFills (h : om.Inv om.fe.fills) : om.pollFills.Ready := by
  have hdrained : Inv { om with fe := { om.fe with fills := [] } } om.fe.fills :=
    ⟨h.working.frame .., h.accounts.frame .., h.proper, h.nextRef⟩
  obtain ⟨hfe, hinv⟩ := hdrained.foldl_applyFill
  exact { hinv with taken := congrArg FillEngine.fills hfe }

/-- Without fills to come, a working order is open. -/
theorem Ready.noneOpen (h : om.Ready) (hentry : om.entryRef = 0) (hexit : om.exitRef = 0) :
    om.fe.openOrders = [] := by
  cases h.working with
  | idle _ _ hopens => exact hopens
  | entering _ _ hisRef => exact absurd hentry hisRef
  | exiting _ _ hisRef => exact absurd hexit hisRef

/-- The working entry, when all fills are applied. -/
theorem Ready.entry_open (h : om.Ready) (hentry : om.entryRef ≠ 0) :
    ∃ o, om.fe.openOrders = [o] ∧ o.ref = om.entryRef ∧ o.side = entryCode om.entryDir
      ∧ o.remaining ≠ 0 ∧ om.exitRef = 0 ∧ (om.entryDir = 1 ∨ om.entryDir = -1)
      ∧ (om.side = 0 ∨ om.side = om.entryDir) ∧ om.exitShares = 0
      ∧ om.entryShares.toNat + o.remaining.toNat < 2 ^ 32 := by
  cases h.working with
  | idle hnone => exact absurd hnone hentry
  | exiting _ hnone => exact absurd hnone hentry
  | entering n w _ hexit hopens hsplit hmore hdir hsame hnoExits hfits =>
    have htotal := hsplit.total
    cases w with
    | none => exact absurd htotal.symm hmore
    | some o =>
      obtain ⟨href, hcode, hrem⟩ := hsplit.order o rfl
      rw [fillTotal_nil, Nat.zero_add] at htotal
      exact ⟨o, hopens, href, hcode, hrem, hexit, hdir, hsame, hnoExits, by
        rw [show o.remaining.toNat = n from htotal]
        exact hfits⟩

/-- The working exit, when all fills are applied: it is for the whole position. -/
theorem Ready.exit_open (h : om.Ready) (hexit : om.exitRef ≠ 0) :
    ∃ o, om.fe.openOrders = [o] ∧ o.ref = om.exitRef ∧ o.side = exitCode om.side
      ∧ o.remaining = om.qty ∧ om.entryRef = 0 ∧ om.side ≠ 0 := by
  cases h.working with
  | idle _ hnone => exact absurd hnone hexit
  | entering _ _ _ hnone => exact absurd hnone hexit
  | exiting w hentry _ hopens hsplit hheld =>
    have htotal := hsplit.total
    rw [fillTotal_nil, Nat.zero_add] at htotal
    cases w with
    | none =>
      have hqty : om.qty = 0 := UInt32.toNat_inj.mp htotal.symm
      exact absurd (h.accounts.flat.mpr hqty) hheld
    | some o =>
      obtain ⟨href, hcode, -⟩ := hsplit.order o rfl
      exact ⟨o, hopens, href, hcode, UInt32.toNat_inj.mp htotal, hentry, hheld⟩

/-- An entry that works is found. -/
theorem Ready.forgetEntry_eq (h : om.Ready) : om.forgetEntry = om := by
  by_cases hentry : om.entryRef = 0
  · unfold forgetEntry
    split
    · rw [← hentry]
    · rfl
  · obtain ⟨o, hopens, href, -⟩ := h.entry_open hentry
    have hfind : om.fe.find om.entryRef = some o :=
      FillEngine.find_working (w := some o) hopens fun o' ho' => by
        cases ho'
        exact href
    exact forgetEntry_some hfind

/-- The stops, the anchor and the clock concern no order. -/
theorem Ready.frame (h : om.Ready) (lastPrint : UInt32) (anchor cfgStop cfgTp cfgTrail : F)
    (curBar : ℤ) : Ready { om with lastPrint, anchor, cfgStop, cfgTp, cfgTrail, curBar } where
  working := h.working.frame ..
  accounts := h.accounts.frame ..
  proper := h.proper
  nextRef := h.nextRef
  taken := h.taken

/-! ## Cancelling -/

/-- The entry is cancelled: after it no entry works. -/
theorem Ready.cancelWorkingEntry (h : om.Ready) : om.cancelWorkingEntry.Ready
    ∧ om.cancelWorkingEntry.entryRef = 0 ∧ om.cancelWorkingEntry.exitRef = om.exitRef
    ∧ om.cancelWorkingEntry.side = om.side ∧ om.cancelWorkingEntry.qty = om.qty := by
  unfold OrderManager.cancelWorkingEntry
  split
  · exact ⟨h, ‹_›, rfl, rfl, rfl⟩
  · rename_i hentry
    obtain ⟨o, hopens, href, -, -, hexit, -⟩ := h.entry_open hentry
    have hcancel : (om.fe.cancel om.entryRef).2 = { om.fe with openOrders := [] } :=
      FillEngine.cancel_single (w := some o) hopens fun o' ho' => by
        cases ho'
        exact href
    rw [hcancel]
    refine ⟨⟨⟨?_, h.accounts.frame .., h.proper, h.nextRef⟩, h.taken⟩, rfl, rfl, rfl, rfl⟩
    exact .idle rfl hexit rfl (fun _ hg => absurd hg List.not_mem_nil)
      (fun hne => absurd rfl hne) (fun _ => rfl)

/-- So is the exit at the end of the stream. -/
theorem Ready.cancelWorkingExit (h : om.Ready) : om.cancelWorkingExit.Ready
    ∧ om.cancelWorkingExit.entryRef = om.entryRef ∧ om.cancelWorkingExit.exitRef = 0 := by
  unfold OrderManager.cancelWorkingExit
  split
  · rename_i hexit
    obtain ⟨o, hopens, href, -, -, hentry, -⟩ := h.exit_open hexit.1
    have hcancel : (om.fe.cancel om.exitRef).2 = { om.fe with openOrders := [] } :=
      FillEngine.cancel_single (w := some o) hopens fun o' ho' => by
        cases ho'
        exact href
    rw [hcancel]
    refine ⟨⟨⟨?_, h.accounts.frame .., h.proper, h.nextRef⟩, h.taken⟩, rfl, rfl⟩
    exact .idle hentry rfl rfl (fun _ hg => absurd hg List.not_mem_nil)
      (fun hne => absurd rfl hne) (fun _ => rfl)
  · rename_i hnot
    refine ⟨h, rfl, ?_⟩
    by_contra hexit
    obtain ⟨o, hopens, href, -⟩ := h.exit_open hexit
    have hfind : om.fe.find om.exitRef = some o :=
      FillEngine.find_working (w := some o) hopens fun o' ho' => by
        cases ho'
        exact href
    exact hnot ⟨hexit, by rw [hfind]; rfl⟩

/-! ## Submitting -/

variable {T : Type}

/-- No order is open, and all fills are applied. -/
structure Vacant (om : OrderManager F) : Prop where
  opens : om.fe.openOrders = []
  taken : om.fe.fills = []
  nextRef : om.fe.nextRef = nthRef om.submissions.length
  proper : ∀ sub ∈ om.submissions, sub.Proper
  accounts : om.Accounts

theorem Ready.vacant (h : om.Ready) (hentry : om.entryRef = 0) (hexit : om.exitRef = 0) :
    om.Vacant :=
  ⟨h.noneOpen hentry hexit, h.taken, h.nextRef, h.proper, h.accounts⟩

/-- A new order in an empty engine, from the manager's side: its reference is not 0, and it is
open or filled under it. -/
structure Placed (om : OrderManager F) (code : UInt8) (shares : UInt32) (sub : Submission)
    (fe : FillEngine) : Prop where
  ref : sub.ref ≠ 0
  opens : ∃ w, fe.openOrders = w.toList ∧ Split sub.ref code shares.toNat w fe.fills
    ∧ (sub.SweepsOnce → w = none → fe.fills.length ≤ 1)
  nextRef : fe.nextRef = nthRef (om.submissions ++ [sub]).length

/-- What a manager without open orders gets from `submit_limit`. -/
theorem Vacant.submitLimit (h : om.Vacant) (hlen : om.submissions.length + 1 < 2 ^ 63)
    (eng : BookEngine T) (purpose : Purpose) (code : UInt8) (price shares : UInt32)
    (ts : UInt64) :
    ∃ sub fe, sub.purpose = purpose ∧ sub.code = code ∧ sub.shares = shares
      ∧ sub.side = om.side ∧ sub.qty = om.qty ∧ Placed om code shares sub fe
      ∧ om.submitLimit eng purpose code price shares ts
        = (sub.ref, { om with fe, submissions := om.submissions ++ [sub] }) := by
  obtain ⟨href, hnext, hfills, w, hopens, hsplit, hleft⟩ :=
    FillEngine.submitLimit_single h.opens h.taken eng code price shares ts
  refine ⟨{ purpose, code, price, shares, ts
            ref := (om.fe.submitLimit eng code price shares ts).1
            side := om.side
            qty := om.qty
            book := eng.books om.fe.locate },
    (om.fe.submitLimit eng code price shares ts).2, rfl, rfl, rfl, rfl, rfl, ⟨?_, ?_, ?_⟩, rfl⟩
  · show (om.fe.submitLimit eng code price shares ts).1 ≠ 0
    rw [href, h.nextRef]
    exact FillSim.nthRef_ne_zero hlen
  · rw [href]
    refine ⟨w, hopens, hsplit, fun honce hw => ?_⟩
    -- nothing is left, so the sweep took one level
    rw [hfills]
    rcases honce with hne | hlevel
    · exact absurd (hleft hw) hne
    · exact hlevel
  · rw [List.length_append, List.length_singleton, hnext, h.nextRef, FillSim.nthRef_succ]

theorem proper_append {subs : List Submission} (h : ∀ sub ∈ subs, sub.Proper) {sub : Submission}
    (hsub : sub.Proper) : ∀ sub' ∈ subs ++ [sub], sub'.Proper := by
  intro sub' hmem
  rcases List.mem_append.mp hmem with hmem | hmem
  · exact h sub' hmem
  · rw [List.mem_singleton.mp hmem]
    exact hsub

/-- An entry is put to work: a new one, or what is left of one, as long as no exit was filled. -/
theorem Vacant.workEntry (h : om.Vacant) (hexit : om.exitRef = 0)
    (hdir : om.entryDir = 1 ∨ om.entryDir = -1) (hsame : om.side = 0 ∨ om.side = om.entryDir)
    (hnoExits : om.exitShares = 0) {shares : UInt32} (hshares : shares ≠ 0)
    (hfits : om.entryShares.toNat + shares.toNat < 2 ^ 32) (eng : BookEngine T)
    (purpose : Purpose) (price : UInt32) (ts : UInt64)
    (hproper : ∀ sub : Submission, sub.purpose = purpose → sub.code = entryCode om.entryDir →
      sub.shares = shares → sub.side = om.side → sub.qty = om.qty → sub.Proper)
    (hlen : (om.workEntry eng purpose price shares ts).submissions.length < 2 ^ 63) :
    (om.workEntry eng purpose price shares ts).Ready := by
  obtain ⟨-, _, hsubs⟩ := submissions_workEntry om eng purpose price shares ts
  rw [hsubs, List.length_append, List.length_singleton] at hlen
  obtain ⟨sub, fe, h₁, h₂, h₃, h₄, h₅, hplaced, heq⟩ :=
    h.submitLimit hlen eng purpose (entryCode om.entryDir) price shares ts
  obtain ⟨w, hopens, hsplit, honce⟩ := hplaced.opens
  have hsubmitted : Inv { om with fe, submissions := om.submissions ++ [sub], entryRef := sub.ref }
      fe.fills :=
    { working := .entering shares.toNat w hplaced.ref hexit hopens hsplit
        (Split.toNat_ne_zero hshares) hdir hsame hnoExits hfits
        fun hall => honce (hall sub (List.mem_append_right _ List.mem_cons_self))
      accounts := (h.accounts.submit sub).frame ..
      proper := proper_append h.proper (hproper sub h₁ h₂ h₃ h₄ h₅)
      nextRef := hplaced.nextRef }
  have hready := Inv.pollFills hsubmitted
  unfold OrderManager.workEntry
  rw [heq]
  show (OrderManager.pollFills _).forgetEntry.Ready
  rw [hready.forgetEntry_eq]
  exact hready

/-- An exit is put to work. -/
theorem Vacant.workExit (h : om.Vacant) (hentry : om.entryRef = 0) (hheld : om.side ≠ 0)
    (eng : BookEngine T) (price : UInt32) (ts : UInt64)
    (hlen : (om.workExit eng price ts).submissions.length < 2 ^ 63) :
    (om.workExit eng price ts).Ready := by
  obtain ⟨-, _, hsubs⟩ := submissions_workExit om eng price ts
  rw [hsubs, List.length_append, List.length_singleton] at hlen
  obtain ⟨sub, fe, h₁, h₂, h₃, h₄, h₅, hplaced, heq⟩ :=
    h.submitLimit hlen eng .exit (exitCode om.side) price om.qty ts
  obtain ⟨w, hopens, hsplit, honce⟩ := hplaced.opens
  have hproper : sub.Proper := by
    unfold Submission.Proper
    rw [h₁]
    exact ⟨h₄ ▸ hheld, h₄ ▸ h₂, h₃.trans h₅.symm⟩
  have hsubmitted : Inv { om with fe, submissions := om.submissions ++ [sub], exitRef := sub.ref }
      fe.fills :=
    { working := .exiting w hentry hplaced.ref hopens hsplit hheld
        fun hall => honce (hall sub (List.mem_append_right _ List.mem_cons_self))
      accounts := (h.accounts.submit sub).frame ..
      proper := proper_append h.proper hproper
      nextRef := hplaced.nextRef }
  unfold OrderManager.workExit
  rw [heq]
  exact Inv.pollFills hsubmitted

/-- A new entry of a manager that is flat and has no order. -/
theorem Ready.submitEntry (h : om.Ready) (hentry : om.entryRef = 0) (hexit : om.exitRef = 0)
    (hflat : om.side = 0) {dir : ℤ} (hdir : dir = 1 ∨ dir = -1) (eng : BookEngine T)
    (sizeFrac : F) (ts : UInt64)
    (hlen : (om.submitEntry eng dir sizeFrac ts).submissions.length < 2 ^ 63) :
    (om.submitEntry eng dir sizeFrac ts).Ready := by
  unfold OrderManager.submitEntry at hlen ⊢
  dsimp only at hlen ⊢
  split at hlen
  · rw [if_pos ‹_›]
    exact h
  · rename_i hpx
    rw [if_neg hpx]
    split at hlen
    · rw [if_pos ‹_›]
      exact h
    · rename_i hshares
      rw [if_neg hshares]
      obtain ⟨hnoEntries, -⟩ := h.accounts.clean hflat
      have hnoExits : om.exitShares = 0 := by
        have hbalance := h.accounts.balance
        rw [hnoEntries, UInt32.toNat_zero] at hbalance
        exact UInt32.toNat_inj.mp (show om.exitShares.toNat = 0 by omega)
      have hvacant := h.vacant hentry hexit
      have hdirected : Vacant { om with entryDir := dir } :=
        ⟨hvacant.opens, hvacant.taken, hvacant.nextRef, hvacant.proper, h.accounts.frame ..⟩
      refine hdirected.workEntry hexit hdir (Or.inl hflat) hnoExits hshares ?_ eng .entry _ ts
        (fun sub h₁ _ _ h₄ h₅ => ?_) hlen
      · show om.entryShares.toNat + _ < 2 ^ 32
        rw [hnoEntries, UInt32.toNat_zero, Nat.zero_add]
        exact UInt32.toNat_lt _
      · unfold Submission.Proper
        rw [h₁]
        exact ⟨h₄.trans hflat, h₅.trans (h.accounts.flat.mp hflat)⟩

/-- An exit of a manager that has no order. -/
theorem Ready.submitExit (h : om.Ready) (hentry : om.entryRef = 0) (hexit : om.exitRef = 0)
    (eng : BookEngine T) (reason : Reason) (ts : UInt64)
    (hlen : (om.submitExit eng reason ts).submissions.length < 2 ^ 63) :
    (om.submitExit eng reason ts).Ready := by
  unfold OrderManager.submitExit at hlen ⊢
  dsimp only at hlen ⊢
  split at hlen
  · rw [if_pos ‹_›]
    exact h
  · rename_i hheld
    rw [if_neg hheld]
    split at hlen
    · rw [if_pos ‹_›]
      exact h
    · rename_i hpx
      rw [if_neg hpx]
      have hvacant := h.vacant hentry hexit
      have hreasoned : Vacant { om with exitReason := reason } :=
        ⟨hvacant.opens, hvacant.taken, hvacant.nextRef, hvacant.proper, h.accounts.frame ..⟩
      exact hreasoned.workExit hentry (fun hflat => hheld (Or.inl hflat)) eng _ ts hlen

/-! ## The calls -/

/-- The anchor concerns no order. -/
theorem Ready.moveAnchor (h : om.Ready) (px : F) : (om.moveAnchor px).Ready
    ∧ (om.moveAnchor px).exitRef = om.exitRef := by
  unfold OrderManager.moveAnchor
  split
  · split
    · exact ⟨h.frame .., rfl⟩
    · exact ⟨h, rfl⟩
  · split
    · exact ⟨h.frame .., rfl⟩
    · exact ⟨h, rfl⟩

/-- `on_trade_print`. -/
theorem Ready.onTradePrint (h : om.Ready) (eng : BookEngine T) (price : UInt32) (ts : UInt64)
    (hlen : (om.onTradePrint eng price ts).submissions.length < 2 ^ 63) :
    (om.onTradePrint eng price ts).Ready := by
  have hprinted : Ready { om with lastPrint := price } := h.frame ..
  unfold OrderManager.onTradePrint at hlen ⊢
  dsimp only at hlen ⊢
  split at hlen
  · rw [if_pos ‹_›]
    exact hprinted
  · rename_i hact
    rw [if_neg hact]
    rw [not_or, not_not] at hact
    obtain ⟨hmoved, hexit⟩ := hprinted.moveAnchor (ofUInt32 price)
    split at hlen
    · exact hmoved
    · obtain ⟨hcancelled, hentry, hexit', -⟩ := hmoved.cancelWorkingEntry
      exact hcancelled.submitExit hentry (hexit'.trans (hexit.trans hact.2)) eng _ ts hlen

theorem Ready.exitOnSignal (h : om.Ready) (eng : BookEngine T) (ts : UInt64)
    (hlen : (om.exitOnSignal eng ts).submissions.length < 2 ^ 63) :
    (om.exitOnSignal eng ts).Ready := by
  obtain ⟨hcancelled, hentry, -⟩ := h.cancelWorkingEntry
  unfold OrderManager.exitOnSignal at hlen ⊢
  dsimp only at hlen ⊢
  split at hlen
  · rename_i hexit
    rw [if_pos hexit]
    exact hcancelled.submitExit hentry hexit eng .signal ts hlen
  · rw [if_neg ‹_›]
    exact hcancelled

theorem Ready.enterIfFree (h : om.Ready) (hexit : om.exitRef = 0) (hflat : om.side = 0) {dir : ℤ}
    (hdir : dir = 1 ∨ dir = -1) (eng : BookEngine T) (sizeFrac : F) (ts : UInt64)
    (hlen : (om.enterIfFree eng dir sizeFrac ts).submissions.length < 2 ^ 63) :
    (om.enterIfFree eng dir sizeFrac ts).Ready := by
  unfold OrderManager.enterIfFree at hlen ⊢
  split at hlen
  · rename_i hentry
    rw [if_pos hentry]
    have hdirected : Ready { om with entryDir := dir } :=
      { working := .idle hentry hexit (h.noneOpen hentry hexit)
          (fun _ hg => absurd hg List.not_mem_nil) (fun hne => absurd rfl hne) (fun _ => rfl)
        accounts := h.accounts.frame ..
        proper := h.proper
        nextRef := h.nextRef
        taken := h.taken }
    exact hdirected.submitEntry hentry hexit hflat hdir eng sizeFrac ts hlen
  · rw [if_neg ‹_›]
    exact h

theorem Ready.enterOnSignal (h : om.Ready) (hexit : om.exitRef = 0) (hflat : om.side = 0)
    {dir : ℤ} (hdir : dir = 1 ∨ dir = -1) (flip : Bool) (eng : BookEngine T) (sizeFrac : F)
    (ts : UInt64)
    (hlen : (om.enterOnSignal eng dir flip sizeFrac ts).submissions.length < 2 ^ 63) :
    (om.enterOnSignal eng dir flip sizeFrac ts).Ready := by
  unfold OrderManager.enterOnSignal at hlen ⊢
  split at hlen
  · rw [if_pos ‹_›]
    obtain ⟨hcancelled, -, hexit', hside, -⟩ := h.cancelWorkingEntry
    exact hcancelled.enterIfFree (hexit'.trans hexit) (hside.trans hflat) hdir eng sizeFrac ts hlen
  · rw [if_neg ‹_›]
    exact h.enterIfFree hexit hflat hdir eng sizeFrac ts hlen

/-- The signal block: an entry is submitted by a flat manager only. -/
theorem Ready.arbitrate (h : om.Ready) (eng : BookEngine T) (sig : Signals F) (ts : UInt64)
    (hlen : (om.arbitrate eng sig ts).submissions.length < 2 ^ 63) :
    (om.arbitrate eng sig ts).Ready := by
  unfold OrderManager.arbitrate at hlen ⊢
  split at hlen
  · rw [if_pos ‹_›]
    exact h.exitOnSignal eng ts hlen
  rw [if_neg ‹_›]
  split at hlen
  · rw [if_pos ‹_›]
    exact h.exitOnSignal eng ts hlen
  rw [if_neg ‹_›]
  split at hlen
  · rename_i hfree
    rw [if_pos hfree]
    split at hlen
    · rw [if_pos ‹_›]
      exact h.enterOnSignal hfree.2 hfree.1 (Or.inl rfl) _ eng _ ts hlen
    rw [if_neg ‹_›]
    split at hlen
    · rw [if_pos ‹_›]
      exact h.enterOnSignal hfree.2 hfree.1 (Or.inr rfl) _ eng _ ts hlen
    · rw [if_neg ‹_›]
      exact h
  · rw [if_neg ‹_›]
    exact h

/-- The re-peg: what is left of the working entry goes to the touch. -/
theorem Ready.repeg (h : om.Ready) (eng : BookEngine T) (ts : UInt64)
    (hlen : (om.repeg eng ts).submissions.length < 2 ^ 63) : (om.repeg eng ts).Ready := by
  unfold OrderManager.repeg at hlen ⊢
  split at hlen
  · rename_i hact
    rw [if_pos hact]
    obtain ⟨o, hopens, href, hcode, hrem, hexit, hdir, hsame, hnoExits, hfits⟩ :=
      h.entry_open hact.1
    have hfind : om.fe.find om.entryRef = some o :=
      FillEngine.find_working (w := some o) hopens fun o' ho' => by
        cases ho'
        exact href
    have hcancel : (om.fe.cancel om.entryRef).2 = { om.fe with openOrders := [] } :=
      FillEngine.cancel_single (w := some o) hopens fun o' ho' => by
        cases ho'
        exact href
    have hvacant : Vacant { om with fe := (om.fe.cancel om.entryRef).2 } := by
      rw [hcancel]
      exact ⟨rfl, h.taken, h.nextRef, h.proper, h.accounts.frame ..⟩
    rw [hfind] at hlen ⊢
    dsimp only at hlen ⊢
    split at hlen
    · rw [if_pos ‹_›]
      refine hvacant.workEntry hexit hdir hsame hnoExits hrem hfits eng _ _ ts
        (fun sub h₁ h₂ h₃ _ _ => ?_) hlen
      unfold Submission.Proper
      rw [h₁]
      exact ⟨h₂.trans hcode.symm, h₃⟩
    · rw [if_neg ‹_›]
      exact h
  · rw [if_neg ‹_›]
    exact h

/-- The first part of `on_bar`. -/
theorem Ready.onSignals (h : om.Ready) (eng : BookEngine T) (sig : Signals F) (ts : UInt64)
    (hlen : (om.onSignals eng sig ts).submissions.length < 2 ^ 63) :
    (om.onSignals eng sig ts).Ready := by
  have hlatched : Ready { om with cfgStop := sig.stop, cfgTp := sig.tp, cfgTrail := sig.trail } :=
    h.frame ..
  exact hlatched.arbitrate eng sig ts hlen

/-- The second part. -/
theorem Ready.endBar (h : om.Ready) (eng : BookEngine T) (t : ℤ) (ts : UInt64)
    (hlen : (om.endBar eng t ts).submissions.length < 2 ^ 63) : (om.endBar eng t ts).Ready :=
  (h.repeg eng ts hlen).frame ..

theorem Accounts.closing_markOut (h : om.Accounts) (hheld : om.side ≠ 0) (ts : UInt64) :
    (om.markOut ts).Closing := by
  have hunit := h.unit_of_held hheld
  have hbalance := h.balance
  have hlt := om.entryShares.toNat_lt
  refine ⟨hunit, ?_, fun v hv => ?_, h.closed, h.even, fun hall => ?_⟩
  · show (om.exitShares + om.qty).toNat + 0 = om.entryShares.toNat
    rw [UInt32.toNat_add]
    omega
  · show v (om.cash + _ - _) = v om.cfg.equity0 + (om.trades.map fun tr => v tr.pnl).sum
      + om.side * (v (om.exitNotional + _) - v om.entryNotional) - v (om.feesOpen + _)
    rw [hv.sub, hv.add, hv.add, hv.add, hv.mul (ofInt _), hv.ofInt, h.ledger v hv]
    ring
  · have hrec := h.reconciled hall
    show netShares (om.fillsLog ++ [_]) = om.side * 0
    rw [netShares_append, hrec, signed_exit hunit rfl]
    ring

/-- The forced close: whatever is held is closed at the mark. -/
theorem Ready.forceClose (h : om.Ready) (hentry : om.entryRef = 0) (hexit : om.exitRef = 0)
    (ts : UInt64) : (om.forceClose ts).Ready ∧ (om.forceClose ts).side = 0
      ∧ (om.forceClose ts).entryRef = 0 ∧ (om.forceClose ts).exitRef = 0 := by
  unfold OrderManager.forceClose
  split
  · rename_i hheld
    have haccounts := (h.accounts.closing_markOut hheld.1 ts).closeRoundTrip rfl .eod
    refine ⟨⟨⟨?_, haccounts, h.proper, h.nextRef⟩, h.taken⟩, rfl, hentry, hexit⟩
    exact .idle hentry hexit (h.noneOpen hentry hexit) (fun _ hg => absurd hg List.not_mem_nil)
      (fun hne => absurd rfl hne) (fun _ => rfl)
  · rename_i hflat
    refine ⟨h, ?_, hentry, hexit⟩
    by_contra hheld
    refine hflat ⟨hheld, UInt32.pos_iff_ne_zero.mpr fun hnone => ?_⟩
    exact hheld (h.accounts.flat.mpr hnone)

/-- `finish`: no order works and nothing is held. -/
theorem Ready.finish (h : om.Ready) (ts : UInt64) : (om.finish ts).Ready
    ∧ (om.finish ts).fe.openOrders = [] ∧ (om.finish ts).side = 0 ∧ (om.finish ts).qty = 0 := by
  obtain ⟨h₁, hentry, -⟩ := h.cancelWorkingEntry
  obtain ⟨h₂, hentry', hexit⟩ := h₁.cancelWorkingExit
  obtain ⟨h₃, hflat, hentry'', hexit'⟩ := h₂.forceClose (hentry'.trans hentry) hexit ts
  exact ⟨h₃, h₃.noneOpen hentry'' hexit', hflat, h₃.accounts.flat.mp hflat⟩

end Calls

end OrderManager

end ItchOrderbook
