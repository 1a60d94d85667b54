import ItchOrderbook.Trade.TurningEntry

/-!
# Runs of a session (`run_session`, `sw/trade/session.hpp`)

A session is a book engine and an order manager with its fill engine. For each message the fill
engine sees it first, the book engine applies it and the fills are polled; trade prints and
completed bars may follow, with any prices and signals; `finish` is the last call. The order of the
calls is all that is taken from `run_session`: `Runs` has a run for every sequence of messages,
prints, bars and signals. A bar is two steps of a run, since `on_bar` polls fills in the middle.

The engine counts references in 64 bits, from `OUR_REF_BIT | 1` on, and the manager takes the
reference 0 for no order: what holds of its orders, it holds of runs with fewer than `2^63`.
-/

namespace ItchOrderbook

open FloatOps

/-- The engines and the manager. -/
structure Session (F : Type) where
  eng : BookEngine RefMap
  om : OrderManager F

/-- Where a run stands: between two calls, with the fills of a message to poll, in the middle of
the call of `on_bar` for a bar at a time, or at its end. -/
inductive Stage where
  | ready
  | pending
  | midBar (t : ℤ) (ts : UInt64)
  | done
  deriving DecidableEq, Repr

namespace Session

variable {F : Type} [FloatOps F]

/-- Both engines empty. -/
def new (priceLevels : UInt32) (capacity : ℕ) (feLocate locate : UInt16) (cfg : OmConfig F) :
    Session F where
  eng := .new priceLevels (RefMap.new capacity)
  om := .new { locate := feLocate } locate cfg

/-- A market message: the fill engine sees it before the book engine applies it. -/
def onMessage (s : Session F) (m : DecodedMessage) : Session F where
  eng := s.eng.next m
  om := { s.om with fe := s.om.fe.onMarketMessage s.eng m }

/-- The fills are polled. -/
def pollFills (s : Session F) : Session F := { s with om := s.om.pollFills }

/-- A trade print. -/
def onTradePrint (s : Session F) (price : UInt32) (ts : UInt64) : Session F :=
  { s with om := s.om.onTradePrint s.eng price ts }

/-- The signals of a completed bar. -/
def onSignals (s : Session F) (sig : Signals F) (ts : UInt64) : Session F :=
  { s with om := s.om.onSignals s.eng sig ts }

/-- The rest of the call of `on_bar`. -/
def endBar (s : Session F) (t : ℤ) (ts : UInt64) : Session F :=
  { s with om := s.om.endBar s.eng t ts }

/-- The end of the stream. -/
def finish (s : Session F) (ts : UInt64) : Session F := { s with om := s.om.finish ts }

/-- The states a run reaches, call by call. -/
inductive Runs (s₀ : Session F) : Stage → Session F → Prop where
  | start : Runs s₀ .ready s₀
  | message {s : Session F} (m : DecodedMessage) (h : Runs s₀ .ready s) :
      Runs s₀ .pending (s.onMessage m)
  | poll {s : Session F} (h : Runs s₀ .pending s) : Runs s₀ .ready s.pollFills
  | print {s : Session F} (price : UInt32) (ts : UInt64) (h : Runs s₀ .ready s) :
      Runs s₀ .ready (s.onTradePrint price ts)
  | signals {s : Session F} (t : ℤ) (sig : Signals F) (ts : UInt64) (h : Runs s₀ .ready s) :
      Runs s₀ (.midBar t ts) (s.onSignals sig ts)
  | bar {s : Session F} {t : ℤ} {ts : UInt64} (h : Runs s₀ (.midBar t ts) s) :
      Runs s₀ .ready (s.endBar t ts)
  | finish {s : Session F} (ts : UInt64) (h : Runs s₀ .ready s) : Runs s₀ .done (s.finish ts)

end Session

namespace OrderManager

variable {F : Type} [FloatOps F] {om : OrderManager F}

/-! ## Messages -/

/-- A message, seen by the fill engine: a working order is filled at most once. -/
theorem Ready.onMessage (h : om.Ready) (eng : BookEngine RefMap) (m : DecodedMessage) :
    Inv { om with fe := om.fe.onMarketMessage eng m } (om.fe.onMarketMessage eng m).fills where
  accounts := h.accounts.frame ..
  proper := h.proper
  nextRef := (om.fe.onMarketMessage_step eng m).nextRef.trans h.nextRef
  working := by
    by_cases hentry : om.entryRef = 0
    · by_cases hexit : om.exitRef = 0
      · have hnone : FillEngine.OneFill none (om.fe.onMarketMessage eng m) :=
          FillEngine.onMarketMessage_single (h.noneOpen hentry hexit) h.taken
            (fun _ ho => by cases ho) eng m
        obtain ⟨hopens, hfills⟩ := hnone
        refine .idle hentry hexit hopens (fun f hf => ?_) (fun hne => absurd hfills hne)
          fun _ => hfills
        rw [hfills] at hf
        cases hf
      · obtain ⟨o, hopens, href, hcode, hrem, -, hheld⟩ := h.exit_open hexit
        have hqty : om.qty ≠ 0 := fun hnone => hheld (h.accounts.flat.mpr hnone)
        have hone : FillEngine.OneFill (some o) (om.fe.onMarketMessage eng m) :=
          FillEngine.onMarketMessage_single hopens h.taken
            (fun o' ho' => by cases ho'; exact hrem ▸ hqty) eng m
        obtain ⟨w, hopens', hsplit, honce⟩ := hone
        rw [href, hcode, hrem] at hsplit
        exact .exiting w hentry hexit hopens' hsplit hheld fun _ _ => honce
    · obtain ⟨o, hopens, href, hcode, hrem, hexit, hdir, hsame, hnoExits, hfits⟩ :=
        h.entry_open hentry
      have hone : FillEngine.OneFill (some o) (om.fe.onMarketMessage eng m) :=
        FillEngine.onMarketMessage_single hopens h.taken
          (fun o' ho' => by cases ho'; exact hrem) eng m
      obtain ⟨w, hopens', hsplit, honce⟩ := hone
      rw [href, hcode] at hsplit
      exact .entering o.remaining.toNat w hentry hexit hopens' hsplit
        (Split.toNat_ne_zero hrem) hdir hsame hnoExits hfits fun _ _ => honce

/-! ## What the situations say about open orders -/

omit [FloatOps F] in
/-- Each open order is the working entry or the working exit, and there is never one of each. -/
theorem Working.open_known {ps : List FillRec} (h : om.Working ps) :
    (∀ o ∈ om.fe.openOrders, o.ref ≠ 0 ∧ (o.ref = om.entryRef ∨ o.ref = om.exitRef))
      ∧ (om.entryRef = 0 ∨ om.exitRef = 0) := by
  cases h with
  | idle hentry hexit hopens =>
    rw [hopens]
    exact ⟨fun _ ho => absurd ho List.not_mem_nil, Or.inl hentry⟩
  | entering n w hisRef hexit hopens hsplit =>
    rw [hopens]
    refine ⟨fun o ho => ?_, Or.inr hexit⟩
    have href := (hsplit.order o (Option.mem_toList.mp ho)).1
    exact ⟨href ▸ hisRef, Or.inl href⟩
  | exiting w hentry hisRef hopens hsplit =>
    rw [hopens]
    refine ⟨fun o ho => ?_, Or.inl hentry⟩
    have href := (hsplit.order o (Option.mem_toList.mp ho)).1
    exact ⟨href ▸ hisRef, Or.inr href⟩

omit [FloatOps F] in
/-- An open exit closes a position, and no more than is held. -/
theorem Working.exit_closes {ps : List FillRec} (h : om.Working ps) {o : OpenOrder}
    (ho : o ∈ om.fe.openOrders) (hexit : o.ref = om.exitRef) :
    om.side ≠ 0 ∧ o.side = exitCode om.side ∧ o.remaining ≤ om.qty := by
  cases h with
  | idle _ _ hopens =>
    rw [hopens] at ho
    cases ho
  | entering n w hisRef hnoExit hopens hsplit =>
    rw [hopens] at ho
    have href := (hsplit.order o (Option.mem_toList.mp ho)).1
    exact absurd (href.symm.trans (hexit.trans hnoExit)) hisRef
  | exiting w _ _ hopens hsplit hheld =>
    rw [hopens] at ho
    have hw : w = some o := Option.mem_toList.mp ho
    exact ⟨hheld, (hsplit.order o hw).2.1,
      UInt32.le_iff_toNat_le.mpr ((hw ▸ hsplit).rest_le).2⟩

end OrderManager

namespace Session

variable {F : Type} [FloatOps F]

/-! ## Whole runs -/

/-- What holds of a state of a run at a stage. -/
structure Holds (cfg : OmConfig F) (stage : Stage) (s : Session F) : Prop where
  inv : s.om.Inv s.om.fe.fills
  cfg : s.om.cfg = cfg
  polled : stage ≠ .pending → s.om.fe.fills = []
  ended : stage = .done → s.om.fe.openOrders = [] ∧ s.om.side = 0 ∧ s.om.qty = 0

theorem Holds.ready {cfg : OmConfig F} {stage : Stage} {s : Session F} (h : Holds cfg stage s)
    (hstage : stage ≠ .pending) : s.om.Ready :=
  { (h.polled hstage ▸ h.inv : s.om.Inv []) with taken := h.polled hstage }

theorem holds_of_ready {cfg : OmConfig F} {stage : Stage} {s : Session F} (h : s.om.Ready)
    (hcfg : s.om.cfg = cfg) (hstage : stage ≠ .done) : Holds cfg stage s where
  inv := by
    rw [h.taken]
    exact h.toInv
  cfg := hcfg
  polled _ := h.taken
  ended hdone := absurd hdone hstage

theorem holds_new (priceLevels : UInt32) (capacity : ℕ) (feLocate locate : UInt16)
    (cfg : OmConfig F) : Holds cfg .ready (new priceLevels capacity feLocate locate cfg) := by
  refine holds_of_ready ⟨⟨?_, ?_, fun _ hsub => absurd hsub List.not_mem_nil, ?_⟩, rfl⟩ rfl
    (by decide)
  · exact .idle rfl rfl rfl (fun _ hf => absurd hf List.not_mem_nil) (fun hne => absurd rfl hne)
      fun _ => rfl
  · refine ⟨Or.inl rfl, ⟨fun _ => rfl, fun _ => rfl⟩, rfl, fun _ => ⟨rfl, rfl, rfl, rfl⟩,
      fun v hv => ?_, rfl, fun _ hc => absurd hc List.not_mem_nil, fun _ => ?_⟩
    · show v cfg.equity0 = v cfg.equity0 + 0 + ((0 : ℤ) : ℚ) * (v (zero : F) - v (zero : F))
        - v (zero : F)
      rw [hv.zero]
      ring
    · show (0 : ℤ) = 0 * _
      rw [zero_mul]
  · show ourRefBit ||| 1 = FillSim.nthRef 0
    decide

/-- Every state of a run holds what is above, while references last. Induction on the run. -/
theorem Runs.holds {priceLevels : UInt32} {capacity : ℕ} {feLocate locate : UInt16}
    {cfg : OmConfig F} {stage : Stage} {s : Session F}
    (h : Runs (new priceLevels capacity feLocate locate cfg) stage s)
    (hlen : s.om.submissions.length < 2 ^ 63) : Holds cfg stage s := by
  induction h with
  | start => exact holds_new priceLevels capacity feLocate locate cfg
  | @message s m _ ih =>
    have hbefore := ih hlen
    exact
      { inv := (hbefore.ready (by decide)).onMessage s.eng m
        cfg := hbefore.cfg
        polled := fun hstage => absurd rfl hstage
        ended := fun hstage => by cases hstage }
  | @poll s _ ih =>
    have hsame := OrderManager.same_pollFills s.om
    have hbefore := ih (hsame.submissions ▸ hlen)
    exact holds_of_ready hbefore.inv.pollFills (hsame.cfg.trans hbefore.cfg) (by decide)
  | @print s price ts _ ih =>
    have hext := OrderManager.extends_onTradePrint s.om s.eng price ts
    have hbefore := ih (lt_of_le_of_lt hext.submissions.length_le hlen)
    exact holds_of_ready ((hbefore.ready (by decide)).onTradePrint s.eng price ts hlen)
      (hext.cfg.trans hbefore.cfg) (by decide)
  | @signals s t sig ts _ ih =>
    have hext := OrderManager.extends_onSignals s.om s.eng sig ts
    have hbefore := ih (lt_of_le_of_lt hext.submissions.length_le hlen)
    exact holds_of_ready ((hbefore.ready (by decide)).onSignals s.eng sig ts hlen)
      (hext.cfg.trans hbefore.cfg) (fun hstage => by cases hstage)
  | @bar s t ts _ ih =>
    have hext := OrderManager.extends_endBar s.om s.eng t ts
    have hbefore := ih (lt_of_le_of_lt hext.submissions.length_le hlen)
    exact holds_of_ready
      ((hbefore.ready fun hstage => by cases hstage).endBar s.eng t ts hlen)
      (hext.cfg.trans hbefore.cfg) (by decide)
  | @finish s ts _ ih =>
    have hsame := OrderManager.same_finish s.om ts
    have hbefore := ih (hsame.submissions ▸ hlen)
    obtain ⟨hready, hended⟩ := (hbefore.ready (by decide)).finish ts
    exact
      { inv := by
          show (s.om.finish ts).Inv (s.om.finish ts).fe.fills
          rw [hready.taken]
          exact hready.toInv
        cfg := hsame.cfg.trans hbefore.cfg
        polled := fun _ => hready.taken
        ended := fun _ => hended }

/-! ### Reconciliation -/

/-- **Position reconciliation.** In every run whose orders each leave a remainder to rest or are
filled at one price, and after every poll of it, the signed position is the shares bought minus
the shares sold in `fills()`. -/
theorem runs_reconciled (priceLevels : UInt32) (capacity : ℕ) (feLocate locate : UInt16)
    (cfg : OmConfig F) {stage : Stage} {s : Session F}
    (h : Runs (new priceLevels capacity feLocate locate cfg) stage s)
    (hlen : s.om.submissions.length < 2 ^ 63)
    (honce : ∀ sub ∈ s.om.submissions, sub.SweepsOnce) :
    s.om.side * s.om.qty.toNat = netShares s.om.fillsLog :=
  ((h.holds hlen).inv.accounts.reconciled honce).symm

/-- Entries cross the spread. -/
def crossConfig : OmConfig ℚ :=
  { fee := 1 / 1000, equity0 := 100000, entryCross := true, crossTicks := 2 }

/-- The book of the runs below: 10 shares at 5010 and 100 at 5011, to sell. -/
def twoAsks : Session ℚ :=
  let ask (ref : UInt64) (price shares : UInt32) : DecodedMessage :=
    { type := .addOrder, orderRef := ref, stockLocate := 1, side := sideSell, price, shares }
  let s := new 8192 16 1 1 crossConfig
  (((s.onMessage (ask 1 5010 10)).pollFills).onMessage (ask 2 5011 100)).pollFills

/-- An entry signal. -/
def enterLong (size : ℚ) : Signals ℚ := { (Signals.initial : Signals ℚ) with el := true, size }

theorem runs_twoAsks : Runs (new 8192 16 1 1 crossConfig) .ready twoAsks :=
  (((Runs.start.message _).poll).message _).poll

/-- Half of the equity buys 9 shares, all at 5010. -/
theorem runs_reconciled_half :
    let s := twoAsks.onSignals (enterLong (1 / 2)) 3
    s.om.fillsLog ≠ [] ∧ s.om.side * s.om.qty.toNat = netShares s.om.fillsLog := by
  intro s
  have hbought : s.om.fillsLog ≠ [] ∧ s.om.submissions.length < 2 ^ 63
      ∧ ∀ sub ∈ s.om.submissions, sub.SweepsOnce := by decide +kernel
  obtain ⟨hfills, hlen, honce⟩ := hbought
  exact ⟨hfills, runs_reconciled 8192 16 1 1 crossConfig
    (runs_twoAsks.signals 0 (enterLong (1 / 2)) 3) hlen honce⟩

/-- All of it buys 19, of which 9 at 5011: the manager forgets the order after the first fill, and
holds 10. -/
theorem runs_unreconciled :
    ∃ (stage : Stage) (s : Session ℚ), Runs (new 8192 16 1 1 crossConfig) stage s
      ∧ s.om.submissions.length = 1
      ∧ s.om.fillsLog = [⟨3, ourRefBit ||| 1, sideBuy, 5010, 10, false⟩,
          ⟨3, ourRefBit ||| 1, sideBuy, 5011, 9, false⟩]
      ∧ netShares s.om.fillsLog = 19 ∧ s.om.side = 1 ∧ s.om.qty = 10 :=
  ⟨.midBar 0 3, twoAsks.onSignals (enterLong 1) 3, runs_twoAsks.signals 0 (enterLong 1) 3,
    by decide +kernel⟩

/-- The run that bought 19 shares, to its end. -/
def soldOut : Session ℚ := ((twoAsks.onSignals (enterLong 1) 3).endBar 0 3).finish 4

theorem runs_soldOut : Runs (new 8192 16 1 1 crossConfig) .done soldOut :=
  ((runs_twoAsks.signals 0 (enterLong 1) 3).bar).finish 4

theorem soldOut_counts :
    soldOut.om.submissions.length = 1 ∧ soldOut.om.trades.length = 1 := by decide +kernel

theorem soldOut_short : soldOut.om.submissions.length < 2 ^ 63 := by
  rw [soldOut_counts.1]
  norm_num

/-! ### References that come round -/

/-- Entries join the touch. -/
def joinConfig : OmConfig ℚ :=
  { fee := 0, equity0 := 100 * 2 ^ 31, entryCross := false, crossTicks := 2 }

/-- One share on each side of the book, at 100 and at 200. -/
def twoSided : Session ℚ :=
  let add (ref : UInt64) (side : UInt8) (price : UInt32) : DecodedMessage :=
    { type := .addOrder, orderRef := ref, stockLocate := 1, side, price, shares := 1 }
  let s := new 8192 16 1 1 joinConfig
  (((s.onMessage (add 1 sideBuy 100)).pollFills).onMessage (add 2 sideSell 200)).pollFills

theorem runs_twoSided : Runs (new 8192 16 1 1 joinConfig) .ready twoSided :=
  (((Runs.start.message _).poll).message _).poll

/-- The touch an entry joins there. -/
def touchOf (dir : ℤ) : UInt32 := if 0 < dir then 100 else 200

/-- The shares of an entry for all of the equity. -/
def sharesOf (dir : ℤ) : UInt32 := if 0 < dir then 2 ^ 31 else 2 ^ 30

/-- The entry after `n` others, which were all cancelled. -/
def entryAt (dir : ℤ) (n : ℕ) : OpenOrder :=
  ⟨FillSim.nthRef n, OrderManager.entryCode dir, touchOf dir, sharesOf dir, sharesOf dir, 1, 2,
    UInt64.ofNat n⟩

/-- The session with it. -/
def turned (dir : ℤ) (n : ℕ) (subs : List Submission) : Session ℚ where
  eng := twoSided.eng
  om := OrderManager.resting { twoSided.om with
    entryDir := dir
    fe := { twoSided.om.fe with nextRef := FillSim.nthRef n, nextSeq := UInt64.ofNat n } }
    (entryAt dir n) 0 subs

/-- Nothing has been submitted there, and the book shows one share on each side. -/
theorem twoSided_idle :
    twoSided.om.side = 0 ∧ twoSided.om.exitRef = 0 ∧ twoSided.om.fe.fills = []
      ∧ twoSided.om.fe.openOrders = [] ∧ twoSided.om.entryRef = 0
      ∧ twoSided.om.fe.nextRef = FillSim.nthRef 0 ∧ twoSided.om.fe.nextSeq = 0
      ∧ twoSided.om.fe.maxMarketRef = 2 ∧ twoSided.om.submissions.length = 0
      ∧ (twoSided.eng.books 1).map (fun b => (b.bestBid, b.bestAsk)) = some (100, 200)
      ∧ ∀ dir : ℤ, dir = 1 ∨ dir = -1 →
        twoSided.om.entryPrice twoSided.eng dir = touchOf dir ∧ touchOf dir ≠ 0
          ∧ twoSided.om.entrySize 1 (touchOf dir) = sharesOf dir ∧ sharesOf dir ≠ 0
          ∧ (FillEngine.displayed (twoSided.eng.books 1) (OrderManager.entryCode dir)
            (touchOf dir)).toUInt64 = 1 := by
  simp only [forall_eq_or_imp, forall_eq]
  decide +kernel

/-- What the book there gives an entry. -/
theorem twoSided_entry {dir : ℤ} (hdir : dir = 1 ∨ dir = -1) :
    twoSided.om.entryPrice twoSided.eng dir = touchOf dir ∧ touchOf dir ≠ 0
      ∧ twoSided.om.entrySize 1 (touchOf dir) = sharesOf dir ∧ sharesOf dir ≠ 0
      ∧ (FillEngine.displayed (twoSided.eng.books 1) (OrderManager.entryCode dir)
        (touchOf dir)).toUInt64 = 1 := by
  obtain ⟨-, -, -, -, -, -, -, -, -, -, hentry⟩ := twoSided_idle
  exact hentry dir hdir

theorem twoSided_sweep {dir : ℤ} (hdir : dir = 1 ∨ dir = -1) (taker : FillRec) :
    FillEngine.sweepBook (twoSided.eng.books 1) (OrderManager.entryCode dir) (touchOf dir) taker
      (sharesOf dir) = ([], sharesOf dir) := by
  obtain ⟨-, -, -, -, -, -, -, -, -, hbook, -⟩ := twoSided_idle
  obtain ⟨b, hb, hbest⟩ := Option.map_eq_some_iff.mp hbook
  obtain ⟨hbid, hask⟩ := Prod.mk.inj hbest
  rw [hb]
  apply FillEngine.sweepBook_passive
  rw [hbid, hask]
  rcases hdir with rfl | rfl
  · decide
  · decide

/-- A bar turns the session round. -/
theorem runs_turned {s₀ : Session ℚ} {dir : ℤ} (hdir : dir = 1 ∨ dir = -1) {n : ℕ}
    {subs : List Submission} (h : Runs s₀ .ready (turned (-dir) n subs)) (hn : n + 1 < 2 ^ 63) :
    ∃ subs', subs'.length = subs.length + 1 ∧ Runs s₀ .ready (turned dir (n + 1) subs') := by
  obtain ⟨hside, hexit, hfills, -, -, -, -, hmax, -⟩ := twoSided_idle
  have hturning : OrderManager.Turning (turned (-dir) n subs).om dir (some (entryAt (-dir) n)) :=
    { passive := rfl
      flat := hside
      noExit := hexit
      taken := hfills
      opens := rfl
      order := fun o ho => by
        cases ho
        exact ⟨rfl, FillSim.nthRef_ne_zero hn, rfl⟩
      none := fun hnone => by cases hnone }
  obtain ⟨hpx, hpx0, hshares, hshares0, hdisplayed⟩ := twoSided_entry hdir
  obtain ⟨subs', hlen, hbar⟩ := hturning.bar hdir twoSided.eng 1 0 0 hpx hpx0 hshares hshares0
    (twoSided_sweep hdir)
  refine ⟨subs', hlen, ?_⟩
  have hrun := (h.signals 0 (OrderManager.entrySignal dir 1) 0).bar
  have horder : (⟨FillSim.nthRef n + 1, OrderManager.entryCode dir, touchOf dir, sharesOf dir,
      sharesOf dir, (FillEngine.displayed (twoSided.eng.books 1) (OrderManager.entryCode dir)
        (touchOf dir)).toUInt64, twoSided.om.fe.maxMarketRef, UInt64.ofNat n + 1⟩ : OpenOrder)
      = entryAt dir (n + 1) := by
    rw [hdisplayed, hmax]
    unfold entryAt
    rw [FillSim.nthRef_succ, UInt64.ofNat_add]
    rfl
  have hturn : ((turned (-dir) n subs).om.onSignals twoSided.eng (OrderManager.entrySignal dir 1)
      0).endBar twoSided.eng 0 0 = (turned dir (n + 1) subs').om := by
    refine hbar.trans ?_
    show OrderManager.resting _ _ 0 subs' = OrderManager.resting _ (entryAt dir (n + 1)) 0 subs'
    rw [← horder, FillSim.nthRef_succ, UInt64.ofNat_add]
    rfl
  have heq : ((turned (-dir) n subs).onSignals (OrderManager.entrySignal dir 1) 0).endBar 0 0
      = turned dir (n + 1) subs' := congrArg (Session.mk twoSided.eng) hturn
  exact heq ▸ hrun

/-- The first bar of all. -/
theorem runs_turned_first : ∃ subs, subs.length = 1
    ∧ Runs (new 8192 16 1 1 joinConfig) .ready (turned (-1) 0 subs) := by
  obtain ⟨hside, hexit, hfills, hopens, hentry, hnext, hseq, hmax, hsubs, -⟩ := twoSided_idle
  have hturning : OrderManager.Turning twoSided.om (-1) none :=
    { passive := rfl
      flat := hside
      noExit := hexit
      taken := hfills
      opens := hopens
      order := fun o ho => by cases ho
      none := fun _ => hentry }
  obtain ⟨hpx, hpx0, hshares, hshares0, hdisplayed⟩ := twoSided_entry (Or.inr rfl)
  obtain ⟨subs, hlen, hbar⟩ := hturning.bar (Or.inr rfl) twoSided.eng 1 0 0 hpx hpx0 hshares
    hshares0 (twoSided_sweep (Or.inr rfl))
  refine ⟨subs, by rw [hlen, hsubs], ?_⟩
  have hrun := (runs_twoSided.signals 0 (OrderManager.entrySignal (-1) 1) 0).bar
  have horder : (⟨twoSided.om.fe.nextRef, OrderManager.entryCode (-1), touchOf (-1), sharesOf (-1),
      sharesOf (-1), (FillEngine.displayed (twoSided.eng.books 1) (OrderManager.entryCode (-1))
        (touchOf (-1))).toUInt64, twoSided.om.fe.maxMarketRef, twoSided.om.fe.nextSeq⟩ : OpenOrder)
      = entryAt (-1) 0 := by
    rw [hdisplayed, hmax, hnext, hseq]
    rfl
  have hturn : (twoSided.om.onSignals twoSided.eng (OrderManager.entrySignal (-1) 1) 0).endBar
      twoSided.eng 0 0 = (turned (-1) 0 subs).om := by
    refine hbar.trans ?_
    show OrderManager.resting _ _ 0 subs = OrderManager.resting _ (entryAt (-1) 0) 0 subs
    rw [← horder, ← hnext, show UInt64.ofNat 0 = twoSided.om.fe.nextSeq from hseq.symm]
    rfl
  have heq : (twoSided.onSignals (OrderManager.entrySignal (-1) 1) 0).endBar 0 0
      = turned (-1) 0 subs := congrArg (Session.mk twoSided.eng) hturn
  exact heq ▸ hrun

/-- Bar by bar an entry to buy is reached under every second reference. Induction on the bars. -/
theorem runs_turned_often (k : ℕ) (hk : 2 * k + 1 < 2 ^ 63) : ∃ subs, subs.length = 2 * k + 2
    ∧ Runs (new 8192 16 1 1 joinConfig) .ready (turned 1 (2 * k + 1) subs) := by
  induction k with
  | zero =>
    obtain ⟨subs, hlen, hrun⟩ := runs_turned_first
    obtain ⟨subs', hlen', hrun'⟩ := runs_turned (Or.inl rfl) hrun (by omega)
    exact ⟨subs', by rw [hlen', hlen], hrun'⟩
  | succ k ih =>
    obtain ⟨subs, hlen, hrun⟩ := ih (by omega)
    have hsell : Runs _ .ready (turned (-(-1)) (2 * k + 1) subs) := hrun
    obtain ⟨subs', hlen', hrun'⟩ := runs_turned (Or.inr rfl) hsell (by omega)
    obtain ⟨subs'', hlen'', hrun''⟩ := runs_turned (Or.inl rfl) hrun' (by omega)
    exact ⟨subs'', by omega, hrun''⟩

/-- What is noted on the way to the entry to buy that gets the reference 0. -/
theorem runs_cameRound_exists : ∃ subs : List Submission, subs.length = 2 ^ 63
    ∧ Runs (new 8192 16 1 1 joinConfig) .ready (turned 1 (2 ^ 63 - 1) subs) := by
  have hindex : 2 * (2 ^ 62 - 1) + 1 = 2 ^ 63 - 1 := by norm_num
  obtain ⟨subs, hlen, hrun⟩ := runs_turned_often (2 ^ 62 - 1) (by norm_num)
  rw [hindex] at hrun
  exact ⟨subs, hlen.trans (by norm_num), hrun⟩

/-- The session with that entry. -/
noncomputable def cameRound : Session ℚ := turned 1 (2 ^ 63 - 1) runs_cameRound_exists.choose

theorem runs_cameRound : Runs (new 8192 16 1 1 joinConfig) .ready cameRound :=
  runs_cameRound_exists.choose_spec.2

theorem length_cameRound : cameRound.om.submissions.length = 2 ^ 63 :=
  runs_cameRound_exists.choose_spec.1

/-! ### Cash -/

/-- **Cash identity**, in exact arithmetic. In every state of a run the cash is the equity it
started from, the gains of the closed trades, what the open round trip has paid and received, less
its fees; entry shares less exit shares are the shares held; each closed trade has as many exit as
entry shares; and a manager that is flat, as it is after `finish`, has the cash it started from
and the gains. -/
theorem runs_cash_identity (priceLevels : UInt32) (capacity : ℕ) (feLocate locate : UInt16)
    (cfg : OmConfig ℚ) {stage : Stage} {s : Session ℚ}
    (h : Runs (new priceLevels capacity feLocate locate cfg) stage s)
    (hlen : s.om.submissions.length < 2 ^ 63) :
    s.om.cash = cfg.equity0 + (s.om.trades.map TradeRecT.pnl).sum
        + s.om.side * (s.om.exitNotional - s.om.entryNotional) - s.om.feesOpen
      ∧ s.om.exitShares.toNat + s.om.qty.toNat = s.om.entryShares.toNat
      ∧ (s.om.side = 0 ↔ s.om.qty = 0)
      ∧ s.om.trades.map TradeRecT.qty = s.om.closed.map (fun c => ofUInt32 c.1)
      ∧ (∀ c ∈ s.om.closed, c.1 = c.2)
      ∧ (s.om.side = 0 → s.om.cash = cfg.equity0 + (s.om.trades.map TradeRecT.pnl).sum)
      ∧ (stage = .done →
          s.om.side = 0 ∧ s.om.cash = cfg.equity0 + (s.om.trades.map TradeRecT.pnl).sum) := by
  have hholds := h.holds hlen
  have haccounts := hholds.inv.accounts
  have hledger : s.om.cash = s.om.cfg.equity0 + (s.om.trades.map TradeRecT.pnl).sum
      + s.om.side * (s.om.exitNotional - s.om.entryNotional) - s.om.feesOpen :=
    haccounts.ledger id exact_id
  rw [hholds.cfg] at hledger
  have hflat : s.om.side = 0 → s.om.cash = cfg.equity0 + (s.om.trades.map TradeRecT.pnl).sum := by
    intro hside
    obtain ⟨-, hentry, hexit, hfees⟩ := haccounts.clean hside
    rw [hledger, hentry, hexit, hfees, show (zero : ℚ) = 0 from exact_id.zero]
    ring
  exact ⟨hledger, haccounts.balance, haccounts.flat, haccounts.closed, haccounts.even, hflat,
    fun hdone => ⟨(hholds.ended hdone).2.1, hflat (hholds.ended hdone).2.1⟩⟩

/-- The run that bought 19 shares, to its end: it sold the 10 it knew of. -/
theorem runs_cash_identity_cross :
    let s := ((twoAsks.onSignals (enterLong 1) 3).endBar 0 3).finish 4
    s.om.trades.length = 1
      ∧ s.om.cash = crossConfig.equity0 + (s.om.trades.map TradeRecT.pnl).sum := by
  exact ⟨soldOut_counts.2, ((runs_cash_identity 8192 16 1 1 crossConfig runs_soldOut
    soldOut_short).2.2.2.2.2.2 rfl).2⟩

/-- When references have come round, a second entry is submitted beside the one under the reference
0; both are filled, and the shares held come round to 0 themselves. -/
theorem runs_cash_identity_round :
    ∃ s, Runs (new 8192 16 1 1 joinConfig) .ready s ∧ ¬(s.om.side = 0 ↔ s.om.qty = 0) := by
  let bid (ref : UInt64) (price shares : UInt32) : DecodedMessage :=
    { type := .addOrder, orderRef := ref, stockLocate := 1, side := sideBuy, price, shares }
  let exec : DecodedMessage := { type := .orderExecuted, orderRef := 4, shares := 2 ^ 31 }
  let s₁ := (cameRound.onMessage (bid 3 101 1)).pollFills
  let s₂ := (s₁.onSignals (OrderManager.entrySignal 1 (101 / 100)) 0).endBar 1 0
  let s₃ := (s₂.onMessage (bid 4 100 (2 ^ 31))).pollFills
  let s₄ := (s₃.onMessage exec).pollFills
  refine ⟨s₄, ?_, ?_⟩
  · have h₁ : Runs _ .ready s₁ := (runs_cameRound.message (bid 3 101 1)).poll
    have h₂ : Runs _ .ready s₂ := (h₁.signals 1 (OrderManager.entrySignal 1 (101 / 100)) 0).bar
    have h₃ : Runs _ .ready s₃ := (h₂.message (bid 4 100 (2 ^ 31))).poll
    exact (h₃.message exec).poll
  · decide +kernel

/-! ### Open orders -/

/-- **No ghost orders.** In every state of a run each open order is the manager's entry or its
exit, never one of each; an open exit is on the other side of the position and for no more than
is held; every submission is noted, a new entry only while flat and what is put back of an entry
is the rest of it on its side; and after `finish` no order is open and nothing is held. -/
theorem runs_no_ghost_orders (priceLevels : UInt32) (capacity : ℕ) (feLocate locate : UInt16)
    (cfg : OmConfig F) {stage : Stage} {s : Session F}
    (h : Runs (new priceLevels capacity feLocate locate cfg) stage s)
    (hlen : s.om.submissions.length < 2 ^ 63) :
    (∀ o ∈ s.om.fe.openOrders,
        o.ref ≠ 0 ∧ (o.ref = s.om.entryRef ∨ o.ref = s.om.exitRef))
      ∧ (s.om.entryRef = 0 ∨ s.om.exitRef = 0)
      ∧ (∀ o ∈ s.om.fe.openOrders, o.ref = s.om.exitRef →
          s.om.side ≠ 0 ∧ o.side = OrderManager.exitCode s.om.side ∧ o.remaining ≤ s.om.qty)
      ∧ s.om.fe.nextRef = FillSim.nthRef s.om.submissions.length
      ∧ (∀ sub ∈ s.om.submissions, sub.purpose = .entry → sub.side = 0 ∧ sub.qty = 0)
      ∧ (∀ sub ∈ s.om.submissions, ∀ o, sub.purpose = .repeg o →
          sub.code = o.side ∧ sub.shares = o.remaining)
      ∧ (stage = .done → s.om.fe.openOrders = [] ∧ s.om.side = 0 ∧ s.om.qty = 0) := by
  have hholds := h.holds hlen
  obtain ⟨hknown, hone⟩ := hholds.inv.working.open_known
  refine ⟨hknown, hone, fun o ho hexit => hholds.inv.working.exit_closes ho hexit,
    hholds.inv.nextRef, fun sub hsub hpurpose => ?_, fun sub hsub o hpurpose => ?_,
    hholds.ended⟩
  · have hproper := hholds.inv.proper sub hsub
    unfold Submission.Proper at hproper
    rwa [hpurpose] at hproper
  · have hproper := hholds.inv.proper sub hsub
    unfold Submission.Proper at hproper
    rwa [hpurpose] at hproper

/-- The run that bought 19 shares: the order is gone. -/
theorem runs_no_ghost_orders_cross :
    let s := ((twoAsks.onSignals (enterLong 1) 3).endBar 0 3).finish 4
    s.om.submissions.length = 1 ∧ s.om.fe.openOrders = [] ∧ s.om.side = 0 ∧ s.om.qty = 0 := by
  exact ⟨soldOut_counts.1, (runs_no_ghost_orders 8192 16 1 1 crossConfig runs_soldOut
    soldOut_short).2.2.2.2.2.2 rfl⟩

/-- The entry that got the reference 0, the `2 ^ 63`rd of the run, is still open after `finish`. -/
theorem runs_no_ghost_orders_round :
    ∃ s, Runs (new 8192 16 1 1 joinConfig) .done s ∧ s.om.submissions.length = 2 ^ 63
      ∧ s.om.fe.openOrders ≠ [] := by
  refine ⟨cameRound.finish 0, runs_cameRound.finish 0, ?_, by decide +kernel⟩
  have hsame : (cameRound.finish 0).om.submissions = cameRound.om.submissions :=
    (OrderManager.same_finish cameRound.om 0).submissions
  rw [hsame]
  exact length_cameRound

end Session

end ItchOrderbook
