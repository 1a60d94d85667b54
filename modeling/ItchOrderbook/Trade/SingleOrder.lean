import ItchOrderbook.Trade.FillEngineSpec

/-!
# A fill engine with one open order

What one order becomes: the fills reported for it and what is left of it add up to its shares
(`Split`). A market message fills the only open order at most once, since an execution at a worse
price and one at its own price exclude each other; a new order in an empty engine may be filled
once for each level its sweep takes.
-/

namespace ItchOrderbook

open OpenOrder (Evolves)
open VectorLoop (forEach)

/-- The shares left of an order, none if it is gone. -/
def restShares (w : Option OpenOrder) : ℕ := w.elim 0 fun o => o.remaining.toNat

/-- The shares of the fills. -/
def fillTotal (ps : List FillRec) : ℕ := (ps.map fun f => f.shares.toNat).sum

@[simp] theorem fillTotal_nil : fillTotal [] = 0 := rfl

@[simp] theorem fillTotal_cons (f : FillRec) (ps : List FillRec) :
    fillTotal (f :: ps) = f.shares.toNat + fillTotal ps := rfl

/-- An order of so many shares under a reference, as it is now: what is left of it is open, and
the rest has been filled. -/
structure Split (ref : UInt64) (code : UInt8) (shares : ℕ) (w : Option OpenOrder)
    (ps : List FillRec) : Prop where
  order : ∀ o ∈ w, o.ref = ref ∧ o.side = code ∧ o.remaining ≠ 0
  fills : ∀ f ∈ ps, f.ourRef = ref ∧ f.side = code ∧ f.shares ≠ 0
  total : fillTotal ps + restShares w = shares

namespace Split

variable {ref : UInt64} {code : UInt8} {shares : ℕ} {w : Option OpenOrder} {f : FillRec}
  {ps : List FillRec}

/-- An order that has not been filled. -/
theorem whole (o : OpenOrder) (h : o.remaining ≠ 0) :
    Split o.ref o.side o.remaining.toNat (some o) [] where
  order o' ho' := by
    cases ho'
    exact ⟨rfl, rfl, h⟩
  fills _ hf := absurd hf List.not_mem_nil
  total := Nat.zero_add _

theorem toNat_ne_zero {n : UInt32} (h : n ≠ 0) : n.toNat ≠ 0 :=
  fun e => h (UInt32.toNat_inj.mp e)

/-- The first fill is reported. -/
theorem tail (h : Split ref code shares w (f :: ps)) :
    Split ref code (shares - f.shares.toNat) w ps where
  order := h.order
  fills g hg := h.fills g (List.mem_cons_of_mem _ hg)
  total := by
    have htotal := h.total
    rw [fillTotal_cons] at htotal
    omega

theorem head_le (h : Split ref code shares w (f :: ps)) : f.shares.toNat ≤ shares := by
  have htotal := h.total
  rw [fillTotal_cons] at htotal
  omega

theorem head_ne_zero (h : Split ref code shares w (f :: ps)) : f.shares.toNat ≠ 0 :=
  toNat_ne_zero (h.fills f List.mem_cons_self).2.2

/-- What is open has shares left. -/
theorem rest_le {o : OpenOrder} (h : Split ref code shares (some o) ps) :
    o.remaining.toNat ≠ 0 ∧ o.remaining.toNat ≤ shares := by
  have htotal : fillTotal ps + o.remaining.toNat = shares := h.total
  exact ⟨toNat_ne_zero (h.order o rfl).2.2, by omega⟩

/-- An order of no shares is gone and has no fills to report. -/
theorem eq_none (h : Split ref code 0 w ps) : w = none ∧ ps = [] := by
  have htotal := h.total
  constructor
  · cases hw : w with
    | none => rfl
    | some o =>
      have := (hw ▸ h).rest_le
      omega
  · cases hps : ps with
    | nil => rfl
    | cons g rest =>
      have := (hps ▸ h).head_ne_zero
      rw [hps, fillTotal_cons] at htotal
      omega

end Split

/-! ## Executions -/

/-- The state of the loops while the order is the only one: it is filled at most once. -/
structure FilledOnce (o : OpenOrder) (st : ExecState) : Prop where
  evolves : ∃ o', st.orders = [o'] ∧ Evolves o o'
    ∧ fillTotal st.fills + o'.remaining.toNat = o.remaining.toNat
  fills : ∀ f ∈ st.fills, f.ourRef = o.ref ∧ f.side = o.side ∧ f.shares ≠ 0
  once : st.fills.length ≤ 1

theorem filledOnce_start (o : OpenOrder) (budget : UInt32) : FilledOnce o ⟨[o], budget, []⟩ :=
  ⟨⟨o, rfl, Evolves.refl o, Nat.zero_add _⟩, fun _ hf => absurd hf List.not_mem_nil,
    Nat.zero_le 1⟩

/-- A fill of the only order, which evolved but was not filled before. -/
theorem filledOnce_fill {o o' : OpenOrder} {shares budget : UInt32} (ts : UInt64)
    (hev : Evolves o o') (hrem : o'.remaining = o.remaining) (hle : shares ≤ o'.remaining) :
    FilledOnce o ⟨[(fill [] o' shares o'.price true ts).1], budget,
      (fill [] o' shares o'.price true ts).2⟩ := by
  have hsub := UInt32.toNat_sub_of_le _ _ hle
  have hle' := UInt32.le_iff_toNat_le.mp hle
  have htake : Evolves o { o' with remaining := o'.remaining - shares } :=
    hev.trans (OpenOrder.evolves_take hle)
  rw [fill_fst]
  unfold fill
  split
  · rename_i h0
    subst h0
    refine ⟨⟨_, rfl, htake, ?_⟩, fun _ hf => absurd hf List.not_mem_nil, Nat.zero_le 1⟩
    show 0 + (o'.remaining - 0).toNat = _
    rw [UInt32.sub_zero, hrem, Nat.zero_add]
  · refine ⟨⟨_, rfl, htake, ?_⟩, fun f hf => ?_, Nat.le_refl 1⟩
    · show shares.toNat + 0 + (o'.remaining - shares).toNat = _
      rw [hsub, ← hrem]
      omega
    · rw [List.nil_append, List.mem_singleton] at hf
      subst hf
      exact ⟨hev.ref, hev.side, ‹_›⟩

theorem filledOnce_drainAhead {o : OpenOrder} {budget : UInt32} (q : UInt32) (ts : UInt64) :
    FilledOnce o (ExecState.drainAhead ⟨[o], budget, []⟩ 0 o q ts) :=
  filledOnce_fill ts (OpenOrder.evolves_drainQueue o q) rfl (umin_le_right _ _)

/-- No own order stands behind the only one. -/
theorem reduceLater_self (o : OpenOrder) (shares amount : UInt32) :
    reduceLater [{ o with remaining := o.remaining - shares }]
      { o with remaining := o.remaining - shares } amount
      = [{ o with remaining := o.remaining - shares }] := by
  rw [reduceLater, List.map_singleton, OpenOrder.reduceBehind, if_pos (Or.inl (UInt64.le_refl _))]

theorem filledOnce_fillFromBudget {o : OpenOrder} {budget : UInt32} (ts : UInt64) :
    FilledOnce o (ExecState.fillFromBudget ⟨[o], budget, []⟩ 0 o ts) := by
  have hfill : FilledOnce o ⟨_, budget - umin budget o.remaining, _⟩ :=
    filledOnce_fill ts (Evolves.refl o) rfl (umin_le_right budget o.remaining)
  have hset : ∀ o' : OpenOrder, [o].set 0 o' = [o'] := fun _ => rfl
  unfold ExecState.fillFromBudget
  simp only [hset]
  rw [fill_fst] at hfill ⊢
  split
  · rw [reduceLater_self]
    exact hfill
  · exact hfill

/-- A price better than the executed one is another price. -/
theorem ne_of_superior {side : UInt8} {ours price : UInt32} (h : superior side ours price = true) :
    ours ≠ price := by
  rintro rfl
  unfold superior at h
  split at h
  · exact UInt32.lt_irrefl _ (of_decide_eq_true h)
  · exact UInt32.lt_irrefl _ (of_decide_eq_true h)

namespace FillEngine

/-- An execution fills the only open order at most once. -/
theorem handleExec_single {fe : FillEngine} {o : OpenOrder} (hopen : fe.openOrders = [o])
    (hfills : fe.fills = []) (r : UInt64) (side : UInt8) (price q : UInt32) (ts : UInt64) :
    ∃ w, (fe.handleExec r side price q ts).openOrders = w.toList
      ∧ Split o.ref o.side o.remaining.toNat w (fe.handleExec r side price q ts).fills
      ∧ (fe.handleExec r side price q ts).fills.length ≤ 1 := by
  -- at most one of the two loops acts on the order
  have honce : FilledOnce o (atLevelAt r side price q ts
      { priceThroughAt side price ts ⟨[o], q, []⟩ 0 with budget := q } 0) := by
    rcases priceThroughAt_cases side price ts ⟨[o], q, []⟩ 0 with
      ⟨heq, -⟩ | ⟨o', ho', -, -, hsup, heq⟩
    · rw [heq]
      rcases atLevelAt_cases r side price q ts ⟨[o], q, []⟩ 0 with
        ⟨heq, -⟩ | ⟨o', ho', -, -, -, ⟨-, heq⟩ | ⟨-, heq⟩⟩
      · rw [heq]
        exact filledOnce_start o q
      · cases ho'
        rw [heq]
        exact filledOnce_drainAhead q ts
      · cases ho'
        rw [heq]
        exact filledOnce_fillFromBudget ts
    · cases ho'
      have hfill : FilledOnce o (ExecState.fillFromBudget ⟨[o], q, []⟩ 0 o ts) :=
        filledOnce_fillFromBudget ts
      rw [heq]
      obtain ⟨o', horders, hev, htotal⟩ := hfill.evolves
      rcases atLevelAt_cases r side price q ts
          { ExecState.fillFromBudget ⟨[o], q, []⟩ 0 o ts with budget := q } 0 with
        ⟨heq', -⟩ | ⟨o'', ho'', -, hprice, -⟩
      · rw [heq']
        exact ⟨⟨o', horders, hev, htotal⟩, hfill.fills, hfill.once⟩
      · -- an order at a better price is not one of the executed level
        rw [show ({ ExecState.fillFromBudget ⟨[o], q, []⟩ 0 o ts with budget := q } :
          ExecState).orders = [o'] from horders] at ho''
        cases ho''
        exact absurd (hev.price.symm.trans hprice) (ne_of_superior hsup)
  have hexec : fe.handleExec r side price q ts = { fe with
      openOrders := eraseFilled (atLevelAt r side price q ts
        { priceThroughAt side price ts ⟨[o], q, []⟩ 0 with budget := q } 0).orders
      fills := (atLevelAt r side price q ts
        { priceThroughAt side price ts ⟨[o], q, []⟩ 0 with budget := q } 0).fills } := by
    unfold handleExec
    rw [hopen, hfills]
    rfl
  rw [hexec]
  obtain ⟨o', horders, hev, htotal⟩ := honce.evolves
  have hcode : ∀ w : Option OpenOrder, (∀ o₁ ∈ w, o₁ = o' ∧ o'.remaining ≠ 0) →
      ∀ o₁ ∈ w, o₁.ref = o.ref ∧ o₁.side = o.side ∧ o₁.remaining ≠ 0 := by
    intro w hw o₁ ho₁
    obtain ⟨rfl, hrem⟩ := hw o₁ ho₁
    exact ⟨hev.ref, hev.side, hrem⟩
  by_cases hrem : o'.remaining = 0
  · refine ⟨none, ?_, ⟨hcode none fun _ h => (by cases h), honce.fills, ?_⟩, honce.once⟩
    · show eraseFilled _ = []
      rw [horders]
      simp [eraseFilled, hrem]
    · rw [hrem, UInt32.toNat_zero] at htotal
      exact htotal
  · refine ⟨some o', ?_, ⟨hcode (some o') fun o₁ h => ?_, honce.fills, htotal⟩, honce.once⟩
    · show eraseFilled _ = [o']
      rw [horders]
      simp [eraseFilled, hrem]
    · cases h
      exact ⟨rfl, hrem⟩

/-- Shares that leave the market fill no order. -/
theorem handleRemove_single {fe : FillEngine} {o : OpenOrder} (hopen : fe.openOrders = [o])
    (hfills : fe.fills = []) (hrem : o.remaining ≠ 0) (r : UInt64) (side : UInt8)
    (price x : UInt32) :
    ∃ w, (fe.handleRemove r side price x).openOrders = w.toList
      ∧ Split o.ref o.side o.remaining.toNat w (fe.handleRemove r side price x).fills
      ∧ (fe.handleRemove r side price x).fills.length ≤ 1 := by
  unfold handleRemove
  rw [hopen, hfills, List.map_singleton]
  split
  · exact ⟨some o, rfl, Split.whole o hrem, Nat.zero_le 1⟩
  · split
    · exact ⟨some (o.drainQueue x), rfl, Split.whole (o.drainQueue x) hrem, Nat.zero_le 1⟩
    · exact ⟨some o, rfl, Split.whole o hrem, Nat.zero_le 1⟩

/-! ## Market messages -/

/-- What a market message makes of the only open order, or of none. -/
def OneFill (w : Option OpenOrder) (fe : FillEngine) : Prop :=
  match w with
  | none => fe.openOrders = [] ∧ fe.fills = []
  | some o => ∃ w', fe.openOrders = w'.toList
    ∧ Split o.ref o.side o.remaining.toNat w' fe.fills ∧ fe.fills.length ≤ 1

theorem oneFill_self {fe : FillEngine} {w : Option OpenOrder} (hopen : fe.openOrders = w.toList)
    (hfills : fe.fills = []) (hrem : ∀ o ∈ w, o.remaining ≠ 0) : OneFill w fe := by
  cases w with
  | none => exact ⟨hopen, hfills⟩
  | some o =>
    refine ⟨some o, hopen, ?_, ?_⟩
    · rw [hfills]
      exact Split.whole o (hrem o rfl)
    · rw [hfills]
      exact Nat.zero_le 1

/-- The watermark concerns no order that is open. -/
theorem oneFill_raiseWatermark {fe : FillEngine} {w : Option OpenOrder} (h : OneFill w fe)
    (ref : UInt64) : OneFill w (fe.raiseWatermark ref) := h

theorem oneFill_handleExec {fe : FillEngine} {w : Option OpenOrder}
    (hopen : fe.openOrders = w.toList) (hfills : fe.fills = []) (r : UInt64) (side : UInt8)
    (price q : UInt32) (ts : UInt64) : OneFill w (fe.handleExec r side price q ts) := by
  cases w with
  | none =>
    unfold handleExec
    rw [hopen, hfills]
    exact ⟨rfl, rfl⟩
  | some o => exact handleExec_single hopen hfills r side price q ts

theorem oneFill_handleRemove {fe : FillEngine} {w : Option OpenOrder}
    (hopen : fe.openOrders = w.toList) (hfills : fe.fills = []) (hrem : ∀ o ∈ w, o.remaining ≠ 0)
    (r : UInt64) (side : UInt8) (price x : UInt32) :
    OneFill w (fe.handleRemove r side price x) := by
  cases w with
  | none =>
    unfold handleRemove
    rw [hopen]
    exact ⟨rfl, hfills⟩
  | some o => exact handleRemove_single hopen hfills (hrem o rfl) r side price x

variable {T : Type} {M : Type → Type} [RefTable T M]

/-- Every market message fills the only open order at most once. -/
theorem onMarketMessage_single {fe : FillEngine} {w : Option OpenOrder}
    (hopen : fe.openOrders = w.toList) (hfills : fe.fills = []) (hrem : ∀ o ∈ w, o.remaining ≠ 0)
    (eng : BookEngine T) (m : DecodedMessage) : OneFill w (fe.onMarketMessage eng m) := by
  have hself := oneFill_self hopen hfills hrem
  unfold onMarketMessage
  cases m.type with
  | addOrder => exact oneFill_raiseWatermark hself _
  | addOrderMPID => exact oneFill_raiseWatermark hself _
  | orderExecuted | orderExecutedPrice =>
    dsimp only
    split
    · exact hself
    · split
      · exact hself
      · exact oneFill_handleExec hopen hfills ..
  | orderCancel | orderDelete =>
    dsimp only
    split
    · exact hself
    · split
      · exact hself
      · exact oneFill_handleRemove hopen hfills hrem ..
  | orderReplace =>
    apply oneFill_raiseWatermark
    split
    · exact hself
    · split
      · exact oneFill_handleRemove hopen hfills hrem ..
      · exact hself
  | trade => exact hself
  | systemEvent => exact hself
  | unknown => exact hself

/-! ## Submitting, finding and cancelling -/

/-- What a sweep takes and leaves. -/
theorem split_sweepBook (b : Option OrderBook) (code : UInt8) (price shares : UInt32)
    (taker : FillRec) :
    (fillTotal (sweepBook b code price taker shares).1
        + (sweepBook b code price taker shares).2.toNat = shares.toNat)
      ∧ ∀ f ∈ (sweepBook b code price taker shares).1,
        f.ourRef = taker.ourRef ∧ f.side = taker.side ∧ f.shares ≠ 0 := by
  have hswept : ∀ {opposite crosses before p fills left},
      Swept opposite crosses before taker p shares fills left →
      (fillTotal fills + left.toNat = shares.toNat)
        ∧ ∀ f ∈ fills, f.ourRef = taker.ourRef ∧ f.side = taker.side ∧ f.shares ≠ 0 := by
    intro opposite crosses before p fills left h
    refine ⟨h.total, fun f hf => ?_⟩
    have hrec := h.record f hf
    exact ⟨by rw [hrec], by rw [hrec], (h.displayed f hf).2.1⟩
  cases b with
  | none => exact ⟨Nat.zero_add _, fun _ hf => absurd hf List.not_mem_nil⟩
  | some b =>
    unfold sweepBook
    simp only
    split
    · exact hswept (b.swept_buy price taker shares)
    · exact hswept (b.swept_sell price taker shares)

/-- A new order in an empty engine: the fills, one for each level the sweep takes, and the order
that rests with what is left. -/
theorem submitLimit_single {fe : FillEngine} (hopen : fe.openOrders = []) (hfills : fe.fills = [])
    (eng : BookEngine T) (code : UInt8) (price shares : UInt32) (ts : UInt64) :
    (fe.submitLimit eng code price shares ts).1 = fe.nextRef
      ∧ (fe.submitLimit eng code price shares ts).2.nextRef = fe.nextRef + 1
      ∧ (fe.submitLimit eng code price shares ts).2.fills
        = (sweepBook (eng.books fe.locate) code price
          { ts, ourRef := fe.nextRef, side := code, maker := false } shares).1
      ∧ ∃ w, (fe.submitLimit eng code price shares ts).2.openOrders = w.toList
        ∧ Split fe.nextRef code shares.toNat w (fe.submitLimit eng code price shares ts).2.fills
        ∧ (w = none → (sweepBook (eng.books fe.locate) code price
          { ts, ourRef := fe.nextRef, side := code, maker := false } shares).2 = 0) := by
  obtain ⟨htotal, hrecord⟩ := split_sweepBook (eng.books fe.locate) code price shares
    { ts, ourRef := fe.nextRef, side := code, maker := false }
  unfold submitLimit
  simp only [hopen, hfills, List.nil_append]
  split
  · rename_i hleft
    refine ⟨rfl, rfl, rfl, some _, rfl, ⟨fun o ho => ?_, hrecord, htotal⟩, fun h => by cases h⟩
    cases ho
    exact ⟨rfl, rfl, hleft⟩
  · rename_i hleft
    rw [not_not] at hleft
    refine ⟨rfl, rfl, rfl, none, rfl, ⟨fun o ho => ?_, hrecord, ?_⟩, fun _ => hleft⟩
    · cases ho
    · rw [hleft, UInt32.toNat_zero] at htotal
      exact htotal

/-- The only order is found under its reference and no other. -/
theorem find_single {fe : FillEngine} {w : Option OpenOrder} (hopen : fe.openOrders = w.toList)
    (ref : UInt64) : fe.find ref = w.filter fun o => o.ref == ref := by
  unfold find
  rw [hopen]
  cases w with
  | none => rfl
  | some o =>
    show [o].find? _ = if (o.ref == ref) = true then some o else none
    rw [List.find?_singleton]

/-- The working order is found. -/
theorem find_working {fe : FillEngine} {w : Option OpenOrder} {ref : UInt64}
    (hopen : fe.openOrders = w.toList) (hw : ∀ o ∈ w, o.ref = ref) : fe.find ref = w := by
  rw [find_single hopen]
  cases w with
  | none => rfl
  | some o => exact Option.filter_some_pos (by simpa using hw o rfl)

/-- No order is under the reference 0. -/
theorem find_zero {fe : FillEngine} {w : Option OpenOrder} {ref : UInt64}
    (hopen : fe.openOrders = w.toList) (hw : ∀ o ∈ w, o.ref = ref) (href : ref ≠ 0) :
    fe.find 0 = none := by
  rw [find_single hopen, Option.filter_eq_none_iff]
  intro o ho heq
  exact href ((hw o ho).symm.trans (by simpa using heq))

/-- Cancelling the only order leaves none. -/
theorem cancel_single {fe : FillEngine} {w : Option OpenOrder} (hopen : fe.openOrders = w.toList)
    {ref : UInt64} (href : ∀ o ∈ w, o.ref = ref) :
    (fe.cancel ref).2 = { fe with openOrders := [] } := by
  unfold cancel
  rw [find_single hopen]
  cases w with
  | none =>
    show fe = _
    rw [← show fe.openOrders = [] from hopen]
  | some o =>
    have ho : (o.ref == ref) = true := by simpa using href o rfl
    rw [show (some o).filter (fun o => o.ref == ref) = some o from if_pos ho, hopen]
    show { fe with openOrders := reduceLater ([o].eraseP _) o o.remaining } = _
    rw [List.eraseP_cons_of_pos (p := fun o : OpenOrder => o.ref == ref) ho]
    rfl

end FillEngine

end ItchOrderbook
