import ItchOrderbook.Trade.FillRun
import ItchOrderbook.Trade.OrderManager
import ItchOrderbook.Trade.SingleOrder

/-!
# What the order manager keeps

At most one order is open at a time, and the manager is in one of three situations: it has no
order (`idle`), an entry works and no exit has been filled (`entering`), or an exit for the whole
position works (`exiting`). `Working` is the situation while a batch of fills is still to be
applied; a fill that matches no working order can only be left of an order that was filled whole,
at a second level or a later one. `Accounts` is what the position, the cash and the trades keep
between two fills.
-/

namespace ItchOrderbook

open FloatOps

/-! ## Position and fills -/

/-- Bought shares count up, sold shares down. -/
def FillRec.signed (f : FillRec) : ℤ :=
  if f.side = sideBuy then f.shares.toNat else -f.shares.toNat

/-- Shares bought minus shares sold. -/
def netShares (fills : List FillRec) : ℤ := (fills.map FillRec.signed).sum

@[simp] theorem netShares_append (fills : List FillRec) (f : FillRec) :
    netShares (fills ++ [f]) = netShares fills + f.signed := by
  simp [netShares]

namespace OrderManager

theorem signed_entry {f : FillRec} {dir : ℤ} (hdir : dir = 1 ∨ dir = -1)
    (hcode : f.side = entryCode dir) : f.signed = dir * f.shares.toNat := by
  rcases hdir with rfl | rfl
  · rw [FillRec.signed, hcode, one_mul]
    rfl
  · rw [FillRec.signed, hcode, neg_one_mul]
    rfl

theorem signed_exit {f : FillRec} {side : ℤ} (hside : side = 1 ∨ side = -1)
    (hcode : f.side = exitCode side) : f.signed = -(side * f.shares.toNat) := by
  rcases hside with rfl | rfl
  · rw [FillRec.signed, hcode, one_mul]
    rfl
  · rw [FillRec.signed, hcode, neg_one_mul, neg_neg]
    rfl

end OrderManager

/-- The order, against the book displayed when it was submitted: it is not filled whole, or it
is filled at one price. -/
def Submission.SweepsOnce (sub : Submission) : Prop :=
  let swept := FillEngine.sweepBook sub.book sub.code sub.price
    { ts := sub.ts, ourRef := sub.ref, side := sub.code, maker := false } sub.shares
  swept.2 ≠ 0 ∨ swept.1.length ≤ 1

instance (sub : Submission) : Decidable sub.SweepsOnce := by
  unfold Submission.SweepsOnce
  infer_instance

/-- What an order is submitted for: an entry while flat, the rest of a working entry on the same
side, an exit for the whole position. -/
def Submission.Proper (sub : Submission) : Prop :=
  match sub.purpose with
  | .entry => sub.side = 0 ∧ sub.qty = 0
  | .repeg o => sub.code = o.side ∧ sub.shares = o.remaining
  | .exit => sub.side ≠ 0 ∧ sub.code = OrderManager.exitCode sub.side ∧ sub.shares = sub.qty

/-! ## Exact arithmetic -/

/-- Values that are read as rationals by `v` are computed with exactly. -/
structure FloatOps.Exact {F : Type} [FloatOps F] (v : F → ℚ) : Prop where
  zero : v zero = 0
  add : ∀ x y, v (x + y) = v x + v y
  sub : ∀ x y, v (x - y) = v x - v y
  mul : ∀ x y, v (x * y) = v x * v y
  ofInt : ∀ n, v (ofInt n) = n

theorem FloatOps.exact_id : FloatOps.Exact (id : ℚ → ℚ) where
  zero := by decide +kernel
  add _ _ := rfl
  sub _ _ := rfl
  mul _ _ := rfl
  ofInt _ := rfl

namespace OrderManager

variable {F : Type} [FloatOps F]

/-! ## The invariants -/

/-- Every order submitted so far was filled at one price if it was filled whole on entry. -/
def AllOnce (om : OrderManager F) : Prop := ∀ sub ∈ om.submissions, sub.SweepsOnce

/-- What the position, the cash and the trades keep. -/
structure Accounts (om : OrderManager F) : Prop where
  unit : om.side = 0 ∨ om.side = 1 ∨ om.side = -1
  flat : om.side = 0 ↔ om.qty = 0
  balance : om.exitShares.toNat + om.qty.toNat = om.entryShares.toNat
  clean : om.side = 0 → om.entryShares = 0 ∧ om.entryNotional = zero ∧ om.exitNotional = zero
    ∧ om.feesOpen = zero
  ledger : ∀ v : F → ℚ, Exact v → v om.cash = v om.cfg.equity0
    + (om.trades.map fun tr => v tr.pnl).sum
    + om.side * (v om.exitNotional - v om.entryNotional) - v om.feesOpen
  closed : om.trades.map TradeRecT.qty = om.closed.map fun c => ofUInt32 c.1
  even : ∀ c ∈ om.closed, c.1 = c.2
  reconciled : om.AllOnce → netShares om.fillsLog = om.side * om.qty.toNat

/-- The orders of the manager, while the fills `ps` are still to be applied. -/
inductive Working (om : OrderManager F) (ps : List FillRec) : Prop where
  /-- No order. Fills that are left match none. -/
  | idle (noEntry : om.entryRef = 0) (noExit : om.exitRef = 0)
      (opens : om.fe.openOrders = []) (unmatched : ∀ f ∈ ps, f.ourRef ≠ 0)
      (held : ps ≠ [] → om.side ≠ 0) (once : om.AllOnce → ps = [])
  /-- An entry with `n` shares to go, open or filled. -/
  | entering (n : ℕ) (w : Option OpenOrder) (isRef : om.entryRef ≠ 0) (noExit : om.exitRef = 0)
      (opens : om.fe.openOrders = w.toList)
      (split : Split om.entryRef (entryCode om.entryDir) n w ps) (more : n ≠ 0)
      (dir : om.entryDir = 1 ∨ om.entryDir = -1) (same : om.side = 0 ∨ om.side = om.entryDir)
      (noExits : om.exitShares = 0) (fits : om.entryShares.toNat + n < 2 ^ 32)
      (once : om.AllOnce → w = none → ps.length ≤ 1)
  /-- An exit for the whole position, open or filled. -/
  | exiting (w : Option OpenOrder) (noEntry : om.entryRef = 0) (isRef : om.exitRef ≠ 0)
      (opens : om.fe.openOrders = w.toList)
      (split : Split om.exitRef (exitCode om.side) om.qty.toNat w ps) (held : om.side ≠ 0)
      (once : om.AllOnce → w = none → ps.length ≤ 1)

/-- What holds of the manager while the fills `ps` are still to be applied. -/
structure Inv (om : OrderManager F) (ps : List FillRec) : Prop where
  working : om.Working ps
  accounts : om.Accounts
  proper : ∀ sub ∈ om.submissions, sub.Proper
  nextRef : om.fe.nextRef = FillSim.nthRef om.submissions.length

theorem Accounts.unit_of_held {om : OrderManager F} (h : om.Accounts) (hheld : om.side ≠ 0) :
    om.side = 1 ∨ om.side = -1 := h.unit.resolve_left hheld

/-- The accounts do not look at the orders, the stops or the clock. -/
theorem Accounts.frame {om : OrderManager F} (h : om.Accounts) (fe : FillEngine) (lastPrint : UInt32)
    (anchor cfgStop cfgTp cfgTrail : F) (entryRef exitRef : UInt64) (entryDir curBar : ℤ)
    (exitReason : Reason) :
    Accounts { om with
      fe, lastPrint, anchor, cfgStop, cfgTp, cfgTrail, entryRef, exitRef, entryDir, curBar
      exitReason } :=
  ⟨h.unit, h.flat, h.balance, h.clean, h.ledger, h.closed, h.even, h.reconciled⟩

/-- Submitting an order changes no account. -/
theorem Accounts.submit {om : OrderManager F} (h : om.Accounts) (sub : Submission) :
    Accounts { om with submissions := om.submissions ++ [sub] } :=
  ⟨h.unit, h.flat, h.balance, h.clean, h.ledger, h.closed, h.even,
    fun hall => h.reconciled fun sub' hmem => hall sub' (List.mem_append_left _ hmem)⟩

/-! ## One fill -/

section Fill

variable {om : OrderManager F} {f : FillRec} {ps : List FillRec}

/-- A fill that matches no working order is logged and charged for. -/
theorem applyFill_unmatched (hentry : f.ourRef ≠ om.entryRef) (hexit : f.ourRef ≠ om.exitRef) :
    om.applyFill f = om.charge f := by
  unfold applyFill
  rw [if_neg (show ¬f.ourRef = (om.charge f).entryRef from hentry),
    if_neg (show ¬f.ourRef = (om.charge f).exitRef from hexit)]

/-- A fee moves from the cash to the fees of the open round trip. -/
theorem accounts_charge (h : om.Accounts) (hheld : om.side ≠ 0) (honce : ¬om.AllOnce) :
    (om.charge f).Accounts where
  unit := h.unit
  flat := h.flat
  balance := h.balance
  clean hflat := absurd hflat hheld
  ledger v hv := by
    have hledger := h.ledger v hv
    show v (om.cash - _) = v om.cfg.equity0 + (om.trades.map fun tr => v tr.pnl).sum
      + om.side * (v om.exitNotional - v om.entryNotional) - v (om.feesOpen + _)
    rw [hv.sub, hv.add, hledger]
    ring
  closed := h.closed
  even := h.even
  reconciled hall := absurd hall honce

/-- A fill of the entry opens the position or adds to it. -/
def enteredBy (om : OrderManager F) (f : FillRec) : OrderManager F :=
  { om.charge f with
    side := om.entryDir
    entryBar := if om.side = 0 then om.curBar else om.entryBar
    anchor := if om.side = 0 then ofUInt32 f.price else om.anchor
    qty := om.qty + f.shares
    entryShares := om.entryShares + f.shares
    entryNotional := om.entryNotional + ofUInt32 f.price * ofUInt32 f.shares
    cash := (om.charge f).cash - ofInt om.entryDir * (ofUInt32 f.price * ofUInt32 f.shares) }

theorem openPosition_charge (hsame : om.side = 0 ∨ om.side = om.entryDir) :
    (om.charge f).openPosition f =
      { om.charge f with
        side := om.entryDir
        entryBar := if om.side = 0 then om.curBar else om.entryBar
        anchor := if om.side = 0 then ofUInt32 f.price else om.anchor } := by
  unfold openPosition
  rw [show (om.charge f).side = om.side from rfl]
  split
  · rfl
  · rename_i hside
    rw [← hsame.resolve_left hside]
    rfl

/-- After a fill of the entry, the entry is forgotten once it is gone. -/
theorem applyFill_entry (hmatch : f.ourRef = om.entryRef)
    (hsame : om.side = 0 ∨ om.side = om.entryDir) :
    om.applyFill f = (om.enteredBy f).forgetEntry := by
  unfold applyFill
  rw [if_pos (show f.ourRef = (om.charge f).entryRef from hmatch)]
  unfold entryFill
  rw [openPosition_charge hsame]
  rfl

/-- The accounts after a fill of the entry. -/
theorem accounts_enteredBy (h : om.Accounts) (hsame : om.side = 0 ∨ om.side = om.entryDir)
    (hdir : om.entryDir = 1 ∨ om.entryDir = -1) (hcode : f.side = entryCode om.entryDir)
    (hshares : f.shares ≠ 0) (hnoExits : om.exitShares = 0)
    (hfits : om.entryShares.toNat + f.shares.toNat < 2 ^ 32) : (om.enteredBy f).Accounts := by
  have hqty : om.qty.toNat = om.entryShares.toNat := by
    have := h.balance
    rw [hnoExits, UInt32.toNat_zero] at this
    omega
  have hpos := Split.toNat_ne_zero hshares
  have hadd : (om.qty + f.shares).toNat = om.qty.toNat + f.shares.toNat := by
    rw [UInt32.toNat_add]
    omega
  have hadd' : (om.entryShares + f.shares).toNat = om.entryShares.toNat + f.shares.toNat := by
    rw [UInt32.toNat_add]
    omega
  have hheld : om.entryDir ≠ 0 := by
    rcases hdir with hd | hd
    · rw [hd]
      decide
    · rw [hd]
      decide
  refine ⟨Or.inr hdir, ⟨fun hflat => absurd hflat hheld, fun hnone => ?_⟩, ?_,
    fun hflat => absurd hflat hheld, fun v hv => ?_, h.closed, h.even, fun hall => ?_⟩
  · have := congrArg UInt32.toNat (show om.qty + f.shares = 0 from hnone)
    rw [hadd, UInt32.toNat_zero] at this
    omega
  · show om.exitShares.toNat + (om.qty + f.shares).toNat = (om.entryShares + f.shares).toNat
    rw [hadd, hadd', hnoExits, UInt32.toNat_zero]
    omega
  · have hledger := h.ledger v hv
    show v (om.cash - _ - _) = v om.cfg.equity0 + (om.trades.map fun tr => v tr.pnl).sum
      + om.entryDir * (v om.exitNotional - v (om.entryNotional + _)) - v (om.feesOpen + _)
    rw [hv.sub, hv.sub, hv.add, hv.add, hv.mul (ofInt _), hv.ofInt, hledger]
    -- before the first fill there are no notionals
    have hturn : (om.side : ℚ) * (v om.exitNotional - v om.entryNotional)
        = om.entryDir * (v om.exitNotional - v om.entryNotional) := by
      rcases hsame with hflat | hsame
      · obtain ⟨-, hentry, hexit, -⟩ := h.clean hflat
        rw [hentry, hexit, sub_self, mul_zero, mul_zero]
      · rw [hsame]
    rw [hturn]
    ring
  · have hrec := h.reconciled hall
    show netShares (om.fillsLog ++ [f]) = om.entryDir * ((om.qty + f.shares).toNat : ℤ)
    rw [netShares_append, hrec, signed_entry hdir hcode, hadd]
    have hturn : om.side * (om.qty.toNat : ℤ) = om.entryDir * om.qty.toNat := by
      rcases hsame with hflat | hsame
      · rw [h.flat.mp hflat, UInt32.toNat_zero, Nat.cast_zero, mul_zero, mul_zero]
      · rw [hsame]
    rw [hturn]
    push_cast
    ring

/-- A fill of the exit for no more than the position, before the round trip is looked at. -/
def reducedBy (om : OrderManager F) (f : FillRec) : OrderManager F :=
  { om.charge f with
    qty := om.qty - f.shares
    exitShares := om.exitShares + f.shares
    exitNotional := om.exitNotional + ofUInt32 f.price * ofUInt32 f.shares
    cash := (om.charge f).cash + ofInt om.side * ofUInt32 f.price * ofUInt32 f.shares }

theorem applyFill_exit (hentry : f.ourRef ≠ om.entryRef) (hmatch : f.ourRef = om.exitRef)
    (hle : f.shares ≤ om.qty) : om.applyFill f = (om.reducedBy f).settleExit := by
  unfold applyFill
  rw [if_neg (show ¬f.ourRef = (om.charge f).entryRef from hentry),
    if_pos (show f.ourRef = (om.charge f).exitRef from hmatch)]
  unfold exitFill
  rw [if_pos (show f.shares ≤ (om.charge f).qty from hle)]
  rfl

/-- What the accounts keep while a round trip may be about to close: all but that a flat manager
has no shares and no fees open. -/
structure Closing (om : OrderManager F) : Prop where
  unit : om.side = 1 ∨ om.side = -1
  balance : om.exitShares.toNat + om.qty.toNat = om.entryShares.toNat
  ledger : ∀ v : F → ℚ, Exact v → v om.cash = v om.cfg.equity0
    + (om.trades.map fun tr => v tr.pnl).sum
    + om.side * (v om.exitNotional - v om.entryNotional) - v om.feesOpen
  closed : om.trades.map TradeRecT.qty = om.closed.map fun c => ofUInt32 c.1
  even : ∀ c ∈ om.closed, c.1 = c.2
  reconciled : om.AllOnce → netShares om.fillsLog = om.side * om.qty.toNat

theorem Closing.held (h : om.Closing) : om.side ≠ 0 := by
  rcases h.unit with hs | hs
  · rw [hs]
    decide
  · rw [hs]
    decide

/-- With shares left the round trip stays open. -/
theorem Closing.accounts (h : om.Closing) (hqty : om.qty ≠ 0) : om.Accounts where
  unit := Or.inr h.unit
  flat := ⟨fun hflat => absurd hflat h.held, fun hnone => absurd hnone hqty⟩
  balance := h.balance
  clean hflat := absurd hflat h.held
  ledger := h.ledger
  closed := h.closed
  even := h.even
  reconciled := h.reconciled

/-- With none left it is closed: what it gained is what the cash gained. -/
theorem Closing.closeRoundTrip (h : om.Closing) (hqty : om.qty = 0) (reason : Reason) :
    (om.closeRoundTrip reason).Accounts where
  unit := Or.inl rfl
  flat := ⟨fun _ => rfl, fun _ => rfl⟩
  balance := rfl
  clean _ := ⟨rfl, rfl, rfl, rfl⟩
  ledger v hv := by
    show v om.cash = v om.cfg.equity0 + ((om.trades ++ [_]).map _).sum
      + ((0 : ℤ) : ℚ) * (v (zero : F) - v (zero : F)) - v (zero : F)
    rw [List.map_append, List.sum_append, List.map_singleton, List.sum_singleton, hv.sub, hv.mul,
      hv.ofInt, hv.sub, hv.zero, h.ledger v hv]
    ring
  closed := by
    show (om.trades ++ [_]).map TradeRecT.qty = (om.closed ++ [_]).map _
    rw [List.map_append, List.map_append, h.closed]
    rfl
  even c hc := by
    rcases List.mem_append.mp hc with hc | hc
    · exact h.even c hc
    · rw [List.mem_singleton.mp hc]
      have hbalance := h.balance
      rw [hqty, UInt32.toNat_zero] at hbalance
      exact UInt32.toNat_inj.mp hbalance.symm
  reconciled hall := by
    have hrec := h.reconciled hall
    rw [hqty] at hrec
    show netShares om.fillsLog = 0 * _
    rw [hrec, UInt32.toNat_zero, Nat.cast_zero, mul_zero, zero_mul]

theorem closing_reducedBy (h : om.Accounts) (hheld : om.side ≠ 0) (hle : f.shares ≤ om.qty)
    (hcode : f.side = exitCode om.side) : (om.reducedBy f).Closing := by
  have hle' := UInt32.le_iff_toNat_le.mp hle
  have hbalance := h.balance
  have hlt := om.entryShares.toNat_lt
  have hsub : (om.qty - f.shares).toNat = om.qty.toNat - f.shares.toNat :=
    UInt32.toNat_sub_of_le _ _ hle
  refine ⟨h.unit_of_held hheld, ?_, fun v hv => ?_, h.closed, h.even, fun hall => ?_⟩
  · show (om.exitShares + f.shares).toNat + (om.qty - f.shares).toNat = om.entryShares.toNat
    rw [hsub, UInt32.toNat_add]
    omega
  · show v (om.cash - _ + _) = v om.cfg.equity0 + (om.trades.map fun tr => v tr.pnl).sum
      + om.side * (v (om.exitNotional + _) - v om.entryNotional) - v (om.feesOpen + _)
    rw [hv.add, hv.sub, hv.add, hv.add, hv.mul (ofInt _ * _), hv.mul (ofInt _), hv.ofInt,
      hv.mul (ofUInt32 f.price) (ofUInt32 f.shares), h.ledger v hv]
    ring
  · have hrec := h.reconciled hall
    show netShares (om.fillsLog ++ [f]) = om.side * ((om.qty - f.shares).toNat : ℤ)
    rw [netShares_append, hrec, signed_exit (h.unit_of_held hheld) hcode, hsub,
      Nat.cast_sub hle']
    ring

/-! ### A fill in each situation -/

omit [FloatOps F] in
/-- The entry is forgotten when it is gone. -/
theorem forgetEntry_none (h : om.fe.find om.entryRef = none) :
    om.forgetEntry = { om with entryRef := 0 } := by
  unfold forgetEntry
  rw [h]
  rfl

omit [FloatOps F] in
theorem forgetEntry_some {o : OpenOrder} (h : om.fe.find om.entryRef = some o) :
    om.forgetEntry = om := by
  unfold forgetEntry
  rw [h]
  rfl

/-- Nothing is left to exit: the round trip is closed. -/
theorem settleExit_closed (hqty : om.qty = 0) (hgone : om.fe.find om.exitRef = none) :
    om.settleExit = closeRoundTrip { om with exitRef := 0 } om.exitReason := by
  unfold settleExit
  rw [if_pos hqty, hgone]
  rfl

/-- The exit is forgotten when it is gone. -/
theorem settleExit_none (hqty : om.qty ≠ 0) (hgone : om.fe.find om.exitRef = none) :
    om.settleExit = { om with exitRef := 0 } := by
  unfold settleExit
  rw [if_neg hqty, hgone]
  rfl

theorem settleExit_some {o : OpenOrder} (hqty : om.qty ≠ 0)
    (hopen : om.fe.find om.exitRef = some o) : om.settleExit = om := by
  unfold settleExit
  rw [if_neg hqty, hopen]
  rfl

/-- A batch of one fill leaves none behind. -/
theorem eq_nil_of_once {w : Option OpenOrder} (hw : w = none) {P : Prop}
    (honce : P → w = none → (f :: ps).length ≤ 1) (h : P) : ps = [] := by
  have := honce h hw
  rw [List.length_cons] at this
  exact List.length_eq_zero_iff.mp (by omega)

/-- What a fill leaves in place. -/
structure FillFrame (om om' : OrderManager F) : Prop where
  fe : om'.fe = om.fe
  submissions : om'.submissions = om.submissions

theorem inv_of_frame {om' : OrderManager F} {ps' : List FillRec} (h : om.Inv ps')
    (hframe : FillFrame om om') (hworking : om'.Working ps) (haccounts : om'.Accounts) :
    om'.Inv ps where
  working := hworking
  accounts := haccounts
  proper := hframe.submissions ▸ h.proper
  nextRef := by rw [hframe.fe, hframe.submissions, h.nextRef]

/-- A fill while no order works. -/
theorem fill_idle (h : om.Inv (f :: ps)) (hentry : om.entryRef = 0) (hexit : om.exitRef = 0)
    (hopens : om.fe.openOrders = []) (hunmatched : ∀ g ∈ f :: ps, g.ourRef ≠ 0)
    (hheld : om.side ≠ 0) (honce : ¬om.AllOnce) :
    FillFrame om (om.applyFill f) ∧ (om.applyFill f).Working ps ∧ (om.applyFill f).Accounts := by
  have href := hunmatched f List.mem_cons_self
  rw [applyFill_unmatched (hentry ▸ href) (hexit ▸ href)]
  exact ⟨⟨rfl, rfl⟩,
    .idle hentry hexit hopens (fun g hg => hunmatched g (List.mem_cons_of_mem _ hg))
      (fun _ => hheld) (fun hall => absurd hall honce),
    accounts_charge h.accounts hheld honce⟩

/-- A fill of the working entry. -/
theorem fill_entering (h : om.Inv (f :: ps)) {n : ℕ} {w : Option OpenOrder}
    (hisRef : om.entryRef ≠ 0) (hexit : om.exitRef = 0) (hopens : om.fe.openOrders = w.toList)
    (hsplit : Split om.entryRef (entryCode om.entryDir) n w (f :: ps))
    (hdir : om.entryDir = 1 ∨ om.entryDir = -1) (hsame : om.side = 0 ∨ om.side = om.entryDir)
    (hnoExits : om.exitShares = 0) (hfits : om.entryShares.toNat + n < 2 ^ 32)
    (honce : om.AllOnce → w = none → (f :: ps).length ≤ 1) :
    FillFrame om (om.applyFill f) ∧ (om.applyFill f).Working ps ∧ (om.applyFill f).Accounts := by
  obtain ⟨hmatch, hcode, hshares⟩ := hsplit.fills f List.mem_cons_self
  have hle := hsplit.head_le
  have haccounts : (om.enteredBy f).Accounts :=
    accounts_enteredBy h.accounts hsame hdir hcode hshares hnoExits (by omega)
  have hfind : om.fe.find om.entryRef = w :=
    FillEngine.find_working hopens fun o ho => (hsplit.order o ho).1
  have hheld : om.entryDir ≠ 0 := by
    rcases hdir with hd | hd
    · rw [hd]
      decide
    · rw [hd]
      decide
  rw [applyFill_entry hmatch hsame]
  cases hw : w with
  | none =>
    rw [forgetEntry_none (show (om.enteredBy f).fe.find _ = none from hfind.trans hw)]
    refine ⟨⟨rfl, rfl⟩, .idle rfl hexit ?_ (fun g hg => ?_) (fun _ => hheld)
      (eq_nil_of_once hw honce), haccounts.frame ..⟩
    · exact hopens.trans (by rw [hw]; rfl)
    · rw [(hsplit.fills g (List.mem_cons_of_mem _ hg)).1]
      exact hisRef
  | some o =>
    have hrest := (hw ▸ hsplit.tail).rest_le
    rw [forgetEntry_some (show (om.enteredBy f).fe.find _ = some o from hfind.trans hw)]
    refine ⟨⟨rfl, rfl⟩, .entering (n - f.shares.toNat) w hisRef hexit hopens hsplit.tail
      (by omega) hdir (Or.inr rfl) hnoExits ?_ (fun _ hnone => ?_), haccounts⟩
    · show (om.entryShares + f.shares).toNat + (n - f.shares.toNat) < 2 ^ 32
      rw [UInt32.toNat_add]
      omega
    · rw [hw] at hnone
      cases hnone

/-- A fill of the working exit. -/
theorem fill_exiting (h : om.Inv (f :: ps)) {w : Option OpenOrder} (hentry : om.entryRef = 0)
    (hisRef : om.exitRef ≠ 0) (hopens : om.fe.openOrders = w.toList)
    (hsplit : Split om.exitRef (exitCode om.side) om.qty.toNat w (f :: ps))
    (hheld : om.side ≠ 0) (honce : om.AllOnce → w = none → (f :: ps).length ≤ 1) :
    FillFrame om (om.applyFill f) ∧ (om.applyFill f).Working ps ∧ (om.applyFill f).Accounts := by
  obtain ⟨hmatch, hcode, -⟩ := hsplit.fills f List.mem_cons_self
  have hle : f.shares ≤ om.qty := UInt32.le_iff_toNat_le.mpr hsplit.head_le
  have hclosing : (om.reducedBy f).Closing := closing_reducedBy h.accounts hheld hle hcode
  have hfind : om.fe.find om.exitRef = w :=
    FillEngine.find_working hopens fun o ho => (hsplit.order o ho).1
  have hsub : (om.qty - f.shares).toNat = om.qty.toNat - f.shares.toNat :=
    UInt32.toNat_sub_of_le _ _ hle
  have htail := hsplit.tail
  rw [← hsub] at htail
  have hne : f.ourRef ≠ om.entryRef := by
    rw [hmatch, hentry]
    exact hisRef
  rw [applyFill_exit hne hmatch hle]
  by_cases hqty : (om.reducedBy f).qty = 0
  · -- the position is closed, so the order is gone and nothing is left to report
    have htail₀ := htail
    rw [show om.qty - f.shares = 0 from hqty, UInt32.toNat_zero] at htail₀
    obtain ⟨hw, hps⟩ := htail₀.eq_none
    rw [settleExit_closed hqty (show (om.reducedBy f).fe.find _ = none from hfind.trans hw)]
    have hclosing₀ : Closing { om.reducedBy f with exitRef := 0 } :=
      ⟨hclosing.unit, hclosing.balance, hclosing.ledger, hclosing.closed, hclosing.even,
        hclosing.reconciled⟩
    refine ⟨⟨rfl, rfl⟩, ?_, hclosing₀.closeRoundTrip hqty _⟩
    rw [hps]
    exact .idle hentry rfl (hopens.trans (by rw [hw]; rfl)) (fun _ hg => absurd hg List.not_mem_nil)
      (fun hne => absurd rfl hne) (fun _ => rfl)
  · have haccounts := hclosing.accounts hqty
    cases hw : w with
    | none =>
      rw [settleExit_none hqty (show (om.reducedBy f).fe.find _ = none from hfind.trans hw)]
      refine ⟨⟨rfl, rfl⟩, .idle hentry rfl ?_ (fun g hg => ?_) (fun _ => hheld)
        (eq_nil_of_once hw honce), haccounts.frame ..⟩
      · exact hopens.trans (by rw [hw]; rfl)
      · rw [(hsplit.fills g (List.mem_cons_of_mem _ hg)).1]
        exact hisRef
    | some o =>
      rw [settleExit_some hqty (show (om.reducedBy f).fe.find _ = some o from hfind.trans hw)]
      refine ⟨⟨rfl, rfl⟩, .exiting w hentry hisRef hopens htail hheld (fun _ hnone => ?_),
        haccounts⟩
      rw [hw] at hnone
      cases hnone

/-- A fill is applied: one case for each situation. -/
theorem Inv.applyFill (h : om.Inv (f :: ps)) :
    FillFrame om (om.applyFill f) ∧ (om.applyFill f).Inv ps := by
  have hfill : FillFrame om (om.applyFill f) ∧ (om.applyFill f).Working ps
      ∧ (om.applyFill f).Accounts := by
    cases h.working with
    | idle hentry hexit hopens hunmatched hheld honce =>
      exact fill_idle h hentry hexit hopens hunmatched (hheld (List.cons_ne_nil f ps))
        fun hall => absurd (honce hall) (List.cons_ne_nil f ps)
    | entering n w hisRef hexit hopens hsplit _ hdir hsame hnoExits hfits honce =>
      exact fill_entering h hisRef hexit hopens hsplit hdir hsame hnoExits hfits honce
    | exiting w hentry hisRef hopens hsplit hheld honce =>
      exact fill_exiting h hentry hisRef hopens hsplit hheld honce
  obtain ⟨hframe, hworking, haccounts⟩ := hfill
  exact ⟨hframe, inv_of_frame h hframe hworking haccounts⟩

end Fill

end OrderManager

end ItchOrderbook
