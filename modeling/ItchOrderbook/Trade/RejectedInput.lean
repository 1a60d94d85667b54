import ItchOrderbook.Trade.FillRun

/-!
# Market messages that the book rejects

The fill engine sees a message before the book judges it. Most rejected messages leave it alone:
they name no live order, bring no shares, or are adds, which concern no own order. Two kinds do
not. An execution or a cancel of more shares than rest is clamped to what rests, where the book
rejects it; the fill engine then acts as on the message with the clamped quantity, which the
book would have applied (`clamped_reduce`). And a replace of a live order drains the queues of
the order's level whatever the book makes of it; it fills nothing (`replace_fills_none`).
-/

namespace ItchOrderbook

open VectorLoop (forEach forEach_invariant)
open OpenOrder (Evolves)
open BookEngine (RejectReason Outcome)

/-! ## Nothing executed, nothing removed -/

theorem OpenOrder.drainQueue_zero (o : OpenOrder) : o.drainQueue 0 = o := by
  have htaken : o.taken 0 = 0 := UInt64.toNat_inj.mp (by
    rw [toNat_taken, UInt32.toNat_zero, UInt64.toNat_zero, Nat.zero_min])
  rw [drainQueue, htaken, UInt64.sub_zero]

namespace ExecState

variable {st : ExecState} {i : ℕ} {o : OpenOrder} (ts : UInt64)

/-- Writing an order back as it was. -/
theorem set_unfilled (h : st.orders[i]? = some o) :
    st.orders.set i (fill st.fills o 0 o.price true ts).1 = st.orders := by
  rw [fill_fst, UInt32.sub_zero]
  obtain ⟨hlt, rfl⟩ := List.getElem?_eq_some_iff.mp h
  exact List.set_getElem_self hlt

/-- An empty budget fills nothing. -/
theorem fillFromBudget_empty (h : st.orders[i]? = some o) (h0 : st.budget = 0) :
    st.fillFromBudget i o ts = st := by
  have hnone : umin st.budget o.remaining = 0 := UInt32.toNat_inj.mp (by
    rw [toNat_umin, h0, UInt32.toNat_zero, Nat.zero_min])
  have hset := set_unfilled ts h
  unfold fillFromBudget
  simp only [hnone, hset, UInt32.sub_zero, ne_eq, not_true, if_false]
  rfl

/-- No shares drain nothing. -/
theorem drainAhead_none (h : st.orders[i]? = some o) : st.drainAhead i o 0 ts = st := by
  have hnone : umin (0 - (o.taken 0).toUInt32) o.remaining = 0 := UInt32.toNat_inj.mp (by
    rw [toNat_umin, OpenOrder.toNat_leftover, UInt32.toNat_zero, Nat.zero_sub, Nat.zero_min])
  have hset := set_unfilled ts h
  unfold drainAhead
  simp only [OpenOrder.drainQueue_zero, hnone, hset]
  rfl

end ExecState

namespace FillEngine

/-- An execution of no shares changes nothing. -/
theorem handleExec_none {fe : FillEngine} (hpos : ∀ o ∈ fe.openOrders, o.remaining ≠ 0)
    (r : UInt64) (side : UInt8) (price : UInt32) (ts : UInt64) :
    fe.handleExec r side price 0 ts = fe := by
  have hfirst : forEach fe.openOrders.length (priceThroughAt side price ts)
      ⟨fe.openOrders, 0, fe.fills⟩ = ⟨fe.openOrders, 0, fe.fills⟩ := by
    refine forEach_invariant (fun _ (t : ExecState) => t = ⟨fe.openOrders, 0, fe.fills⟩) rfl
      fun k _ t ht => ?_
    rcases priceThroughAt_cases side price ts t k with ⟨heq, -⟩ | ⟨o, ho, -, -, -, heq⟩
    · exact heq.trans ht
    · rw [heq, ExecState.fillFromBudget_empty ts ho (by rw [ht])]
      exact ht
  have hsecond : forEach fe.openOrders.length (atLevelAt r side price 0 ts)
      ⟨fe.openOrders, 0, fe.fills⟩ = ⟨fe.openOrders, 0, fe.fills⟩ := by
    refine forEach_invariant (fun _ (t : ExecState) => t = ⟨fe.openOrders, 0, fe.fills⟩) rfl
      fun k _ t ht => ?_
    rcases atLevelAt_cases r side price 0 ts t k with
      ⟨heq, -⟩ | ⟨o, ho, -, -, -, ⟨-, heq⟩ | ⟨-, heq⟩⟩
    · exact heq.trans ht
    · rw [heq, ExecState.drainAhead_none ts ho]
      exact ht
    · rw [heq, ExecState.fillFromBudget_empty ts ho (by rw [ht])]
      exact ht
  have hkept : eraseFilled fe.openOrders = fe.openOrders :=
    List.filter_eq_self.mpr fun o ho => by simpa using hpos o ho
  unfold handleExec
  simp only [hfirst, hsecond, hkept]

/-- A removal of no shares changes nothing. -/
theorem handleRemove_none (fe : FillEngine) (r : UInt64) (side : UInt8) (price : UInt32) :
    fe.handleRemove r side price 0 = fe := by
  have hmap : (fe.openOrders.map fun o => if o.side ≠ side ∨ o.price ≠ price then o
      else if r ≤ o.watermark then o.drainQueue 0 else o) = fe.openOrders := by
    refine List.map_id'' (fun o => ?_) fe.openOrders
    simp only [OpenOrder.drainQueue_zero, ite_self]
  unfold handleRemove
  rw [hmap]

/-- The quantity of an execution or a cancel counts up to what rests. -/
theorem onMarketMessage_clamped (fe : FillEngine) {eng : BookEngine RefMap} {m : DecodedMessage}
    {v : Value} (ht : m.type.IsReduce) (hv : eng.refs.find m.orderRef = some v)
    (hover : v.shares < m.shares) :
    fe.onMarketMessage eng m = fe.onMarketMessage eng { m with shares := v.shares } := by
  have hmin : umin m.shares v.shares = umin v.shares v.shares := by
    have := UInt32.lt_iff_toNat_lt.mp hover
    rw [← UInt32.toNat_inj, toNat_umin, toNat_umin]
    omega
  rcases ht with ht | ht
  · have hclamped : fe.onMarketMessage eng { m with shares := v.shares } = _ :=
      fe.onMarketMessage_exec (m := { m with shares := v.shares }) ht hv
    have hexec : fe.onMarketMessage eng m = _ := fe.onMarketMessage_exec ht hv
    rw [hexec, hclamped, hmin]
  · have hclamped : fe.onMarketMessage eng { m with shares := v.shares } = _ :=
      fe.onMarketMessage_cancel (m := { m with shares := v.shares }) ht hv
    have hcancel : fe.onMarketMessage eng m = _ := fe.onMarketMessage_cancel ht hv
    rw [hcancel, hclamped, hmin]

end FillEngine

theorem MsgType.IsReduce.not_isAdd {t : MsgType} (h : t.IsReduce) : ¬t.IsAdd := by
  rcases h with (rfl | rfl) | rfl
  · decide
  · decide
  · decide

/-- An execution or a cancel of all that rests of a live order is applied. -/
theorem BookEngine.Inv.applied_reduce {eng : BookEngine RefMap} (h : eng.Inv)
    {m : DecodedMessage} {v : Value} (ht : m.type.IsReduce)
    (hv : eng.refs.find m.orderRef = some v) (hall : m.shares = v.shares) :
    (eng.next m).lastStatus = .applied := by
  by_contra hs
  have hreason := ((step_outcome h m).not_applied hs).2.2
  have hkind : m.type ≠ .orderReplace ∧ m.type ≠ .unknown := by
    rcases ht with (ht | ht) | ht
    · rw [ht]; decide
    · rw [ht]; decide
    · rw [ht]; decide
  generalize (eng.next m).lastStatus = st at hreason
  cases hreason with
  | unsupported ht' => exact hkind.2 ht'
  | badAdd ht' => exact ht.not_isAdd ht'
  | duplicateAdd ht' => exact ht.not_isAdd ht'
  | overflowAdd ht' => exact ht.not_isAdd ht'
  | fullAdd ht' => exact ht.not_isAdd ht'
  | badReduce _ hbad =>
    rcases hbad with h0 | h0
    · rw [h0, RefMap.find_zero] at hv
      cases hv
    · exact (h.positive _ v hv).1 (hall.symm.trans h0)
  | missing _ hnone =>
    rw [hv] at hnone
    cases hnone
  | oversize _ hv' hover =>
    rw [hv, Option.some_inj] at hv'
    rw [← hv', hall] at hover
    exact UInt32.lt_irrefl _ hover
  | badReplace ht' => exact hkind.1 ht'
  | duplicateReplace ht' => exact hkind.1 ht'
  | overflowReplace ht' => exact hkind.1 ht'

namespace FillSim

/-! ## Messages that are not applied -/

/-- An execution or a cancel of a live order of ours to watch, for more shares than rest. -/
def Oversized (s : FillSim) (m : DecodedMessage) : Prop :=
  m.type.IsReduce ∧ ∃ v, s.eng.refs.find m.orderRef = some v ∧ v.locate = s.fe.locate
    ∧ v.shares < m.shares

/-- A replace of a live order on our locate. -/
def ReplacesOurs (s : FillSim) (m : DecodedMessage) : Prop :=
  m.type = .orderReplace ∧ ∃ v, s.eng.refs.find m.orderRef = some v ∧ v.locate = s.fe.locate

/-- No open order changes, and nothing is filled. -/
def Inert (s : FillSim) (m : DecodedMessage) : Prop :=
  (s.fe.onMarketMessage s.eng m).openOrders = s.fe.openOrders
    ∧ (s.fe.onMarketMessage s.eng m).fills = []

/-- A message that changes the watermark at most is inert. -/
theorem Sound.inert_of_raise {s : FillSim} (h : s.Sound) {m : DecodedMessage}
    (heq : s.fe.onMarketMessage s.eng m = s.fe
      ∨ ∃ ref, s.fe.onMarketMessage s.eng m = s.fe.raiseWatermark ref) : s.Inert m := by
  unfold Inert
  rcases heq with heq | ⟨ref, heq⟩
  · rw [heq]
    exact ⟨rfl, h.taken⟩
  · rw [heq]
    exact ⟨rfl, h.taken⟩

/-- A message that names no live order is inert. -/
theorem Sound.inert_of_missing {s : FillSim} (h : s.Sound) {m : DecodedMessage} (ht : ¬m.type.IsAdd)
    (hv : s.eng.refs.find m.orderRef = none) : s.Inert m := by
  have hmissing : s.fe.onMarketMessage s.eng m = _ := s.fe.onMarketMessage_missing ht hv
  refine h.inert_of_raise ?_
  rw [hmissing]
  split
  · exact Or.inr ⟨_, rfl⟩
  · exact Or.inl rfl

/-- An execution or a cancel of no shares is inert. -/
theorem Sound.inert_of_no_shares {s : FillSim} (h : s.Sound) {m : DecodedMessage}
    (ht : m.type.IsReduce) (h0 : m.shares = 0) : s.Inert m := by
  cases hv : s.eng.refs.find m.orderRef with
  | none =>
    exact h.inert_of_missing ht.not_isAdd hv
  | some v =>
    have hmin : umin m.shares v.shares = 0 := UInt32.toNat_inj.mp (by
      rw [toNat_umin, h0, UInt32.toNat_zero, Nat.zero_min])
    refine h.inert_of_raise (Or.inl ?_)
    rcases ht with ht | ht
    · have hexec : s.fe.onMarketMessage s.eng m = _ := s.fe.onMarketMessage_exec ht hv
      rw [hexec, hmin, FillEngine.handleExec_none h.positive, ite_self]
    · have hcancel : s.fe.onMarketMessage s.eng m = _ := s.fe.onMarketMessage_cancel ht hv
      rw [hcancel, hmin, FillEngine.handleRemove_none, ite_self]

/-- A replace of an order on another locate is inert. -/
theorem Sound.inert_of_replace {s : FillSim} (h : s.Sound) {m : DecodedMessage} {v : Value}
    (ht : m.type = .orderReplace) (hv : s.eng.refs.find m.orderRef = some v)
    (hnot : ¬s.ReplacesOurs m) : s.Inert m := by
  have hreplace : s.fe.onMarketMessage s.eng m = _ := s.fe.onMarketMessage_replace ht hv
  rw [if_pos fun hloc => hnot ⟨ht, v, hv, hloc⟩] at hreplace
  exact h.inert_of_raise (Or.inr ⟨_, hreplace⟩)

/-- By the reason the book has. -/
theorem Sound.inert_of_reason {s : FillSim} (h : s.Sound) {m : DecodedMessage} {st : ApplyStatus}
    (hreason : RejectReason s.eng m st) (hover : ¬s.Oversized m) (hreplace : ¬s.ReplacesOurs m) :
    s.Inert m := by
  cases hreason with
  | unsupported ht =>
    exact h.inert_of_raise (Or.inl (s.fe.onMarketMessage_other (Or.inr (Or.inr ht))))
  | badAdd ht => exact h.inert_of_raise (Or.inr ⟨_, s.fe.onMarketMessage_add ht⟩)
  | duplicateAdd ht => exact h.inert_of_raise (Or.inr ⟨_, s.fe.onMarketMessage_add ht⟩)
  | overflowAdd ht => exact h.inert_of_raise (Or.inr ⟨_, s.fe.onMarketMessage_add ht⟩)
  | fullAdd ht => exact h.inert_of_raise (Or.inr ⟨_, s.fe.onMarketMessage_add ht⟩)
  | badReduce ht hbad =>
    rcases hbad with h0 | h0
    · exact h.inert_of_missing ht.not_isAdd (h0 ▸ RefMap.find_zero _)
    · exact h.inert_of_no_shares ht h0
  | missing ht hnone =>
    rcases ht with ht | ht | ht
    · exact h.inert_of_missing ht.not_isAdd hnone
    · exact h.inert_of_missing (by rw [ht]; decide) hnone
    · exact h.inert_of_missing (by rw [ht]; decide) hnone
  | oversize ht hv hlt =>
    -- oversized, so of another locate
    have hne : _ ≠ s.fe.locate := fun hloc => hover ⟨ht, _, hv, hloc, hlt⟩
    refine h.inert_of_raise (Or.inl ?_)
    rcases ht with ht | ht
    · exact (s.fe.onMarketMessage_exec ht hv).trans (if_pos hne)
    · exact (s.fe.onMarketMessage_cancel ht hv).trans (if_pos hne)
  | badReplace ht hv => exact h.inert_of_replace ht hv hreplace
  | duplicateReplace ht hv => exact h.inert_of_replace ht hv hreplace
  | overflowReplace ht hv => exact h.inert_of_replace ht hv hreplace

/-- What a replace may change of an open order: the shares ahead of it. -/
structure OnlyQueue (o o' : OpenOrder) : Prop where
  evolves : Evolves o o'
  remaining : o'.remaining = o.remaining

/-- A removal takes no shares of ours. -/
theorem onlyQueue_handleRemove (fe : FillEngine) (r : UInt64) (side : UInt8) (price x : UInt32) :
    List.Forall₂ OnlyQueue fe.openOrders (fe.handleRemove r side price x).openOrders := by
  rw [FillEngine.handleRemove, List.forall₂_map_right_iff, List.forall₂_same]
  intro o _
  split
  · exact ⟨Evolves.refl o, rfl⟩
  · split
    · exact ⟨OpenOrder.evolves_drainQueue o x, rfl⟩
    · exact ⟨Evolves.refl o, rfl⟩

/-- A replace fills nothing, and takes no shares of ours. -/
theorem Sound.replace_fills_none {s : FillSim} (h : s.Sound) {m : DecodedMessage}
    (ht : m.type = .orderReplace) :
    (s.fe.onMarketMessage s.eng m).fills = []
      ∧ List.Forall₂ OnlyQueue s.fe.openOrders (s.fe.onMarketMessage s.eng m).openOrders := by
  have hsame : List.Forall₂ OnlyQueue s.fe.openOrders s.fe.openOrders :=
    List.forall₂_same.mpr fun o _ => ⟨Evolves.refl o, rfl⟩
  cases hv : s.eng.refs.find m.orderRef with
  | none =>
    obtain ⟨hopen, hfills⟩ := h.inert_of_missing (by rw [ht]; decide) hv
    exact ⟨hfills, hopen ▸ hsame⟩
  | some v =>
    have hreplace : s.fe.onMarketMessage s.eng m = _ := s.fe.onMarketMessage_replace ht hv
    rw [hreplace]
    split
    · exact ⟨h.taken, hsame⟩
    · exact ⟨h.taken, onlyQueue_handleRemove ..⟩

/-- **Rejected input.** In every state a run reaches, a message the book does not apply leaves
the fill engine's open orders as they are and fills nothing, unless it is oversized or replaces
a live order on our locate. An oversized one does what the same message with the resting
quantity does, which the book would have applied. A replace, applied or not, fills nothing and
changes no more of an open order than the shares ahead of it. -/
theorem run_rejected_inert (priceLevels : UInt32) (capacity : ℕ) (locate : UInt16)
    (ops : List SimOp) (m : DecodedMessage) :
    let s := (new priceLevels capacity locate).run ops
    ((s.eng.next m).lastStatus ≠ .applied → ¬s.Oversized m → ¬s.ReplacesOurs m → s.Inert m)
      ∧ (∀ v, m.type.IsReduce → s.eng.refs.find m.orderRef = some v → v.shares < m.shares →
          s.fe.onMarketMessage s.eng m = s.fe.onMarketMessage s.eng { m with shares := v.shares }
          ∧ (s.eng.next { m with shares := v.shares }).lastStatus = .applied)
      ∧ (m.type = .orderReplace → (s.fe.onMarketMessage s.eng m).fills = []
          ∧ List.Forall₂ OnlyQueue s.fe.openOrders (s.fe.onMarketMessage s.eng m).openOrders) := by
  intro s
  have h : s.Sound := (sound_new priceLevels capacity locate).run ops
  refine ⟨fun hs hover hreplace => ?_, fun v ht hv hover => ?_, h.replace_fills_none⟩
  · exact h.inert_of_reason ((BookEngine.step_outcome h.eng m).not_applied hs).2.2 hover hreplace
  · exact ⟨s.fe.onMarketMessage_clamped ht hv hover, h.eng.applied_reduce ht hv rfl⟩

/-- A second order under a reference that is live: our bid stays as it is. -/
theorem run_rejected_inert_duplicate :
    let add : DecodedMessage :=
      { type := .addOrder, orderRef := 10, stockLocate := 1, side := sideBuy, price := 5,
        shares := 20 }
    let s := (new 16 4 1).run [.market add, .submit .buy 5 10 1]
    (s.eng.next add).lastStatus = .duplicateReference ∧ s.Inert add := by
  intro add s
  have hdup : (s.eng.next add).lastStatus = .duplicateReference := by decide
  refine ⟨hdup, (run_rejected_inert 16 4 1 [.market add, .submit .buy 5 10 1] add).1 ?_ ?_ ?_⟩
  · show (s.eng.next add).lastStatus ≠ .applied
    rw [hdup]
    decide
  · exact fun h => absurd h.1 (by decide)
  · exact fun h => absurd h.1 (by decide)

/-- An execution of 500 of the 20 shares behind our bid: the book rejects it, and our bid is
filled. -/
theorem rejected_exec_fills :
    let add : DecodedMessage :=
      { type := .addOrder, orderRef := 10, stockLocate := 1, side := sideBuy, price := 5,
        shares := 20 }
    let exec : DecodedMessage := { type := .orderExecuted, orderRef := 10, shares := 500 }
    let s := (new 16 4 1).run [.submit .buy 5 10 1, .market add]
    (s.eng.next exec).lastStatus = .invalidEvent
      ∧ (s.fe.onMarketMessage s.eng exec).fills = [⟨0, nthRef 0, sideBuy, 5, 10, true⟩]
      ∧ (s.fe.onMarketMessage s.eng exec).openOrders = [] ∧ s.fe.openOrders ≠ [] := by
  decide

end FillSim

end ItchOrderbook
