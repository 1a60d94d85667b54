import ItchOrderbook.Trade.FillRun

/-!
# Every share of a synthetic order is accounted for

Read off the invariant of runs: while no reference is given out twice, the fills of an order
and what is open of it or was taken back by a cancel make up what was submitted; fills stop
when the order is gone; and an open order only moves up in its queue. References come from a
64-bit counter, so they are distinct for `2 ^ 64` orders and no more (`refs_wrap`).
-/

namespace ItchOrderbook

open VectorLoop (sum_map_of_nodup sum_map_of_absent)
open OpenOrder (Evolves)

namespace FillSim

/-! ## One order's account -/

/-- The account of an order: its fills, with what is open of it or what a cancel took back, are
its shares. -/
structure Accounts (s : FillSim) (is : Issue) : Prop where
  opened : ∀ o ∈ s.fe.openOrders, o.ref = is.ref →
    filledShares s.fills is.ref + o.remaining.toNat = is.shares.toNat
  cancelled : ∀ c ∈ s.cancelled, c.1 = is.ref →
    filledShares s.fills is.ref + c.2.toNat = is.shares.toNat
  filled : (∀ o ∈ s.fe.openOrders, o.ref ≠ is.ref) → (∀ c ∈ s.cancelled, c.1 ≠ is.ref) →
    filledShares s.fills is.ref = is.shares.toNat

theorem Inv.accounts {s : FillSim} (h : s.Inv) (hle : s.issued.length ≤ 2 ^ 64) {is : Issue}
    (his : is ∈ s.issued) : s.Accounts is := by
  have hissued : s.issuedShares is.ref = is.shares.toNat :=
    sum_map_of_nodup Issue.ref (fun is => is.shares.toNat) (h.issued_nodup hle) his
  have hconserved := h.conserved is.ref
  rw [hissued] at hconserved
  have hnodup := List.nodup_append.mp h.nodup
  -- a reference is not both open and cancelled
  have hapart : ∀ o ∈ s.fe.openOrders, ∀ c ∈ s.cancelled, c.1 ≠ o.ref := fun o ho c hc =>
    hnodup.2.2 _ (List.mem_map_of_mem hc) _ (List.mem_map_of_mem ho)
  refine ⟨fun o ho href => ?_, fun c hc href => ?_, fun hopen hgone => ?_⟩
  · have hopen : openShares s.fe.openOrders is.ref = o.remaining.toNat :=
      href ▸ sum_map_of_nodup OpenOrder.ref (fun o => o.remaining.toNat) hnodup.2.1 ho
    have hgone : s.cancelledShares is.ref = 0 :=
      sum_map_of_absent Prod.fst (fun c : UInt64 × UInt32 => c.2.toNat)
        fun c hc => href ▸ hapart o ho c hc
    omega
  · have hgone : s.cancelledShares is.ref = c.2.toNat :=
      href ▸ sum_map_of_nodup Prod.fst (fun c : UInt64 × UInt32 => c.2.toNat) hnodup.1 hc
    have hopen : openShares s.fe.openOrders is.ref = 0 :=
      sum_map_of_absent OpenOrder.ref (fun o => o.remaining.toNat)
        fun o ho => href ▸ (hapart o ho c hc).symm
    omega
  · have hgone : s.cancelledShares is.ref = 0 :=
      sum_map_of_absent Prod.fst (fun c : UInt64 × UInt32 => c.2.toNat) hgone
    have hopen : openShares s.fe.openOrders is.ref = 0 :=
      sum_map_of_absent OpenOrder.ref (fun o => o.remaining.toNat) hopen
    omega

/-! ## The fills of one step -/

/-- What the fills of a step may be: an order on entry takes displayed opposite prices, best
first and none worse than its limit; a cancel fills nothing; a market message fills open orders
as makers, at their limit prices. -/
def StepFills (s : FillSim) (new : List FillRec) : SimOp → Prop
  | .submit side price shares ts =>
    ∃ left, Takes (s.eng.bookOf s.fe.locate) side price shares
      { ts, ourRef := s.fe.nextRef, side := side.code, maker := false } new left
  | .cancel _ => new = []
  | .market _ => ∀ f ∈ new, ∃ o ∈ s.fe.openOrders, f.IsMakerOf o

theorem Inv.stepFills {s : FillSim} (h : s.Inv) (op : SimOp) :
    ∃ new, (s.step op).fills = s.fills ++ new ∧ s.StepFills new op := by
  cases op with
  | submit side price shares ts =>
    obtain ⟨fe, taken, left, hsub, heq⟩ := step_submit s h.toSound side price shares ts
    exact ⟨taken, by rw [heq], left, hsub.takes⟩
  | cancel ref =>
    refine ⟨[], ?_, rfl⟩
    rcases step_cancel s h.toSound ref with ⟨-, heq⟩ | ⟨o, before, behind, -, -, heq⟩
    · rw [heq, List.append_nil]
    · rw [heq, List.append_nil]
  | market m =>
    obtain ⟨orders, htrades, -⟩ := (s.fe.onMarketMessage_step s.eng m).trades
    obtain ⟨new, hfills, hnew⟩ := htrades.makers
    rw [h.taken, List.nil_append] at hfills
    refine ⟨new, ?_, hnew⟩
    show s.fills ++ (s.fe.onMarketMessage s.eng m).fills = s.fills ++ new
    rw [hfills]

/-! ## Whole runs -/

/-- **Order conservation.** In every run of at most `2 ^ 64` submissions, with any cancels and
any market messages, valid or not: references are distinct; each order's account adds up; every
maker fill is at its order's limit; every step's fills are as `StepFills` says; and however the
run goes on, an order that is gone has no further fill, and an open one never has more ahead. -/
theorem run_conserves_orders (priceLevels : UInt32) (capacity : ℕ) (locate : UInt16)
    (ops more : List SimOp) (h : submits ops + submits more ≤ 2 ^ 64) :
    let s := (new priceLevels capacity locate).run ops
    let t := s.run more
    (s.issued.map Issue.ref).Nodup
      ∧ (∀ is ∈ s.issued, s.Accounts is)
      ∧ (∀ f ∈ s.fills, f.maker = true → ∃ is ∈ s.issued,
          f.ourRef = is.ref ∧ f.side = is.s.code ∧ f.price = is.price)
      ∧ (∀ op, ∃ new, (s.step op).fills = s.fills ++ new ∧ s.StepFills new op)
      ∧ (∃ new, t.fills = s.fills ++ new ∧ ∀ is ∈ s.issued,
          (∀ o ∈ s.fe.openOrders, o.ref ≠ is.ref) → ∀ f ∈ new, f.ourRef ≠ is.ref)
      ∧ (∀ o ∈ s.fe.openOrders, ∀ o' ∈ t.fe.openOrders, o'.ref = o.ref →
          o'.queueAhead ≤ o.queueAhead) := by
  intro s t
  have hnew := inv_new priceLevels capacity locate
  have hlen : s.issued.length = 0 + submits ops := (hnew.toNumbered.run ops).2
  have hs : s.Inv := (hnew.run ops (by show 0 + submits ops ≤ 2 ^ 64; omega)).1
  have hle : s.issued.length ≤ 2 ^ 64 := by omega
  have hcont : Continues s t := (hs.run more (by omega)).2
  have hopen_nodup := (List.nodup_append.mp hs.nodup).2.1
  refine ⟨hs.issued_nodup hle, fun is his => hs.accounts hle his, hs.makers, hs.stepFills, ?_, ?_⟩
  · obtain ⟨new, heq, hfills⟩ := hcont.filled
    refine ⟨new, heq, fun is his hgone f hf href => ?_⟩
    rcases hfills f hf with ⟨o, ho, hof⟩ | hfresh
    · exact hgone o ho (hof.symm.trans href)
    · exact hfresh (href ▸ List.mem_map_of_mem his)
  · intro o ho o' ho' href
    rcases hcont.opened o' ho' with ⟨o₁, ho₁, hev⟩ | hfresh
    · have hsame : o₁ = o :=
        List.inj_on_of_nodup_map hopen_nodup ho₁ ho (hev.ref.symm.trans href)
      exact hsame ▸ hev.queueAhead
    · obtain ⟨is, his, hknown, -⟩ := hs.known o ho
      exact absurd (href ▸ hknown ▸ List.mem_map_of_mem his) hfresh

/-- A bid of 30 against 20 displayed: it takes 20 and rests with 10, which a cancel takes back. -/
theorem run_conserves_orders_sweep :
    let add : DecodedMessage :=
      { type := .addOrder, orderRef := 10, stockLocate := 1, side := sideSell, price := 5,
        shares := 20 }
    let s := (new 16 4 1).run [.market add, .submit .buy 6 30 7, .cancel (nthRef 0)]
    s.fills = [⟨7, nthRef 0, sideBuy, 5, 20, false⟩] ∧ s.cancelled = [(nthRef 0, 10)]
      ∧ ∀ is ∈ s.issued, s.Accounts is := by
  intro add s
  refine ⟨by decide, by decide, ?_⟩
  exact (run_conserves_orders 16 4 1 [.market add, .submit .buy 6 30 7, .cancel (nthRef 0)] []
    (by decide)).2.1

/-- With more than `2 ^ 64` submissions the first reference is given out again. -/
theorem refs_wrap_of_lt {n : ℕ} (hn : 2 ^ 64 < n) :
    ¬(((new 16 4 1).run (List.replicate n (.submit .buy 1 0 0))).issued.map Issue.ref).Nodup := by
  obtain ⟨hnum, hlen⟩ := (inv_new 16 4 1).toNumbered.run (List.replicate n (.submit .buy 1 0 0))
  have hcount : submits (List.replicate n (.submit .buy 1 0 0)) = n := by
    simp [submits, List.countP_replicate]
  have hzero : (new 16 4 1).issued.length = 0 := rfl
  rw [hcount, hzero, Nat.zero_add] at hlen
  rw [hnum.issued_refs, hlen]
  intro hnodup
  have hsame : nthRef 0 = nthRef (2 ^ 64) := by decide
  have h := List.inj_on_of_nodup_map hnodup (List.mem_range.mpr (Nat.lt_trans (by decide) hn))
    (List.mem_range.mpr hn) hsame
  exact absurd h (by decide)

/-- `2 ^ 64 + 1` submissions, of no shares each: two have the same reference. -/
theorem refs_wrap :
    ¬(((new 16 4 1).run (List.replicate (2 ^ 64 + 1)
      (.submit .buy 1 0 0))).issued.map Issue.ref).Nodup :=
  refs_wrap_of_lt (Nat.lt_succ_self _)

end FillSim

end ItchOrderbook
