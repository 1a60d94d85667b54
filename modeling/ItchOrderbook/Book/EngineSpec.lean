import ItchOrderbook.Book.LiveOrders

/-!
# What the engine does with a message

Over the finite map, `BookEngine.Inv` is the invariant of every run: all live orders have
shares left and every book tracks the live orders of its locate. `Outcome` is the inversion
of `apply`: it lists, guards included, everything one message can do to an engine that meets
the invariant. `ResyncRequired` and the rollbacks are not on the list, because they cannot
happen.
-/

namespace ItchOrderbook

open LiveOrders

/-- The messages `on_add` handles. -/
def MsgType.IsAdd (t : MsgType) : Prop := t = .addOrder ∨ t = .addOrderMPID

/-- The messages `on_reduce` handles as executions. -/
def MsgType.IsExec (t : MsgType) : Prop := t = .orderExecuted ∨ t = .orderExecutedPrice

instance (t : MsgType) : Decidable t.IsAdd := by unfold MsgType.IsAdd; infer_instance

instance (t : MsgType) : Decidable t.IsExec := by unfold MsgType.IsExec; infer_instance

/-- The messages `on_reduce` handles. -/
def MsgType.IsReduce (t : MsgType) : Prop := t.IsExec ∨ t = .orderCancel

instance (t : MsgType) : Decidable t.IsReduce := by unfold MsgType.IsReduce; infer_instance

namespace BookEngine

/-- One message applied over the finite map. -/
def step (e : BookEngine RefMap) (m : DecodedMessage) :
    (BookEngine RefMap × Option UInt16) × ExecResult := Id.run (e.apply m)

/-- The engine after one message. -/
def next (e : BookEngine RefMap) (m : DecodedMessage) : BookEngine RefMap := (e.step m).1.1

/-- The engine after a sequence of messages. -/
def run (e : BookEngine RefMap) (ms : List DecodedMessage) : BookEngine RefMap := ms.foldl next e

/-- The invariant of every run. -/
structure Inv (e : BookEngine RefMap) : Prop where
  positive : e.refs.live.Positive
  tracks : ∀ locate, (e.bookOf locate).Tracks e.refs.live locate

theorem inv_new (priceLevels : UInt32) (capacity : ℕ) :
    (new priceLevels (RefMap.new capacity)).Inv where
  positive ref v h := by cases h
  tracks locate := OrderBook.tracks_new priceLevels locate

/-! ## The inversion of `apply` -/

/-- Why a message is not applied, with the status it ends in. -/
inductive RejectReason (e : BookEngine RefMap) (m : DecodedMessage) : ApplyStatus → Prop where
  | unsupported (ht : m.type = .unknown) : RejectReason e m .ignored
  | badAdd (ht : m.type.IsAdd)
      (h : (m.side ≠ sideBuy ∧ m.side ≠ sideSell) ∨ m.orderRef = 0 ∨ m.stockLocate = 0
        ∨ m.price = 0 ∨ m.price ≥ e.priceLevels ∨ m.shares = 0) :
      RejectReason e m .invalidEvent
  | duplicateAdd (ht : m.type.IsAdd) {v : Value} (h : e.refs.find m.orderRef = some v) :
      RejectReason e m .duplicateReference
  | overflowAdd (ht : m.type.IsAdd)
      (h : (e.bookOf m.stockLocate).canAdd m.side m.price m.shares = false) :
      RejectReason e m .invalidEvent
  | fullAdd (ht : m.type.IsAdd) (hnew : e.refs.find m.orderRef = none)
      (h : e.refs.live.size = e.refs.capacity) : RejectReason e m .referenceTableFull
  | badReduce (ht : m.type.IsReduce) (h : m.orderRef = 0 ∨ m.shares = 0) :
      RejectReason e m .invalidEvent
  | missing (ht : m.type.IsReduce ∨ m.type = .orderDelete ∨ m.type = .orderReplace)
      (h : e.refs.find m.orderRef = none) : RejectReason e m .missingReference
  | oversize (ht : m.type.IsReduce) {v : Value} (hv : e.refs.find m.orderRef = some v)
      (h : v.shares < m.shares) : RejectReason e m .invalidEvent
  | badReplace (ht : m.type = .orderReplace) {old : Value}
      (hv : e.refs.find m.orderRef = some old)
      (h : m.newOrderRef = 0 ∨ m.newOrderRef = m.orderRef ∨ m.price = 0
        ∨ m.price ≥ e.priceLevels ∨ m.shares = 0) : RejectReason e m .invalidEvent
  | duplicateReplace (ht : m.type = .orderReplace) {old v : Value}
      (hv : e.refs.find m.orderRef = some old) (h : e.refs.find m.newOrderRef = some v) :
      RejectReason e m .duplicateReference
  | overflowReplace (ht : m.type = .orderReplace) {old : Value}
      (hv : e.refs.find m.orderRef = some old)
      (h : (e.bookOf old.locate).canReplace old.side old.price old.shares m.price m.shares
        = false) : RejectReason e m .invalidEvent

/-- The two engines hold the same orders and the same books; only the status and the
counters may differ. -/
structure SameBooks (e e' : BookEngine RefMap) : Prop where
  refs : e'.refs = e.refs
  books : ∀ locate, e'.bookOf locate = e.bookOf locate
  priceLevels : e'.priceLevels = e.priceLevels

/-- `e'` is `e` with other live orders and one book replaced. -/
structure Updates (e e' : BookEngine RefMap) (live : LiveOrders) (locate : UInt16)
    (b : OrderBook) : Prop where
  live_eq : e'.refs.live = live
  books : ∀ locate', e'.bookOf locate' = if locate' = locate then b else e.bookOf locate'
  capacity : e'.refs.capacity = e.refs.capacity
  priceLevels : e'.priceLevels = e.priceLevels
  applied : e'.lastStatus = .applied

/-- The live orders after part or all of an order's shares are gone. -/
def reduceLive (live : LiveOrders) (ref : UInt64) (v : Value) (qty : UInt32) : LiveOrders :=
  if v.shares = qty then live.erase ref
  else live.insert ref { v with shares := v.shares - qty }

/-- Everything `apply` can do. -/
inductive Outcome (e : BookEngine RefMap) (m : DecodedMessage) :
    BookEngine RefMap → ExecResult → Prop where
  | rejected {e' : BookEngine RefMap} (reason : RejectReason e m e'.lastStatus)
      (same : SameBooks e e') : Outcome e m e' {}
  | printed {e' : BookEngine RefMap} (ht : m.type = .trade) (hs : e'.lastStatus = .applied)
      (same : SameBooks e e') : Outcome e m e' ⟨true, m.price, m.shares, m.stockLocate⟩
  | system {e' : BookEngine RefMap} (ht : m.type = .systemEvent) (hs : e'.lastStatus = .applied)
      (same : SameBooks e e') : Outcome e m e' {}
  | added {e' : BookEngine RefMap} (s : Side) (ht : m.type.IsAdd) (hside : m.side = s.code)
      (href : m.orderRef ≠ 0) (hloc : m.stockLocate ≠ 0) (hprice : m.price ≠ 0)
      (hlt : m.price < e.priceLevels) (hsh : m.shares ≠ 0)
      (hnew : e.refs.find m.orderRef = none) (hroom : e.refs.live.size < e.refs.capacity)
      (hcan : (e.bookOf m.stockLocate).canAdd m.side m.price m.shares = true)
      (upd : Updates e e'
        (e.refs.live.insert m.orderRef ⟨m.price, m.shares, m.stockLocate, m.side⟩)
        m.stockLocate ((e.bookOf m.stockLocate).add m.side m.price m.shares).2) :
      Outcome e m e' {}
  | reduced {e' : BookEngine RefMap} (v : Value) (s : Side) (ht : m.type.IsReduce)
      (hv : e.refs.find m.orderRef = some v) (hside : v.side = s.code) (hsh : m.shares ≠ 0)
      (hle : m.shares ≤ v.shares)
      (upd : Updates e e' (reduceLive e.refs.live m.orderRef v m.shares) v.locate
        ((e.bookOf v.locate).remove v.side v.price m.shares (v.shares == m.shares)).2) :
      Outcome e m e'
        (if m.type.IsExec then
          ⟨if m.type = .orderExecutedPrice then decide (m.printable ≠ 0) else true,
           if m.type = .orderExecutedPrice then m.price else v.price, m.shares, v.locate⟩
        else {})
  | deleted {e' : BookEngine RefMap} (v : Value) (s : Side) (ht : m.type = .orderDelete)
      (hv : e.refs.find m.orderRef = some v) (hside : v.side = s.code)
      (upd : Updates e e' (e.refs.live.erase m.orderRef) v.locate
        ((e.bookOf v.locate).remove v.side v.price v.shares true).2) :
      Outcome e m e' {}
  | replaced {e' : BookEngine RefMap} (old : Value) (s : Side) (ht : m.type = .orderReplace)
      (hv : e.refs.find m.orderRef = some old) (hside : old.side = s.code)
      (href : m.newOrderRef ≠ 0) (hne : m.newOrderRef ≠ m.orderRef) (hprice : m.price ≠ 0)
      (hlt : m.price < e.priceLevels) (hsh : m.shares ≠ 0)
      (hnew : e.refs.find m.newOrderRef = none)
      (hcan : (e.bookOf old.locate).canReplace old.side old.price old.shares m.price m.shares
        = true)
      (upd : Updates e e'
        ((e.refs.live.erase m.orderRef).insert m.newOrderRef
          ⟨m.price, m.shares, old.locate, old.side⟩)
        old.locate
        (((e.bookOf old.locate).remove old.side old.price old.shares true).2.add
          old.side m.price m.shares).2) :
      Outcome e m e' {}

/-! ### The handlers, one at a time -/

theorem onAdd_outcome {e : BookEngine RefMap} {m : DecodedMessage} (ht : m.type.IsAdd) :
    Outcome e m (Id.run (onAdd (e.withStatus .ignored) m)).1 {} := by
  simp only [onAdd, priceLevels_count, priceLevels_withStatus, refs_count, refs_withStatus,
    getOrMake_snd, bookOf_count, bookOf_withStatus, refs_getOrMake, RefMap.refTable_find,
    RefMap.refTable_insert]
  by_cases hbad : (m.side ≠ sideBuy ∧ m.side ≠ sideSell) ∨ m.orderRef = 0 ∨ m.stockLocate = 0
      ∨ m.price = 0 ∨ m.price ≥ e.priceLevels ∨ m.shares = 0
  · rw [if_pos hbad]
    exact .rejected (.badAdd ht hbad) ⟨rfl, fun _ => rfl, rfl⟩
  rw [if_neg hbad]
  simp only [not_or, ge_iff_le, UInt32.not_le] at hbad
  obtain ⟨hside, href, hloc, hprice, hlt, hsh⟩ := hbad
  obtain ⟨s, hs⟩ := exists_side_of_code hside
  cases hfind : e.refs.find m.orderRef with
  | some v => exact .rejected (.duplicateAdd ht hfind) ⟨rfl, fun _ => rfl, rfl⟩
  | none =>
    rw [if_neg (by simp)]
    cases hcan : (e.bookOf m.stockLocate).canAdd m.side m.price m.shares with
    | false =>
      refine .rejected (.overflowAdd ht hcan) ⟨?_, ?_, ?_⟩
      all_goals simp [reject]
    | true =>
      rw [if_neg (by simp)]
      have hroom := RefMap.insert_fst_of_fresh ⟨m.price, m.shares, m.stockLocate, m.side⟩ href hfind
      cases hins : (e.refs.insert m.orderRef ⟨m.price, m.shares, m.stockLocate, m.side⟩).1 with
      | false =>
        rw [if_pos (by simp)]
        rw [hins] at hroom
        have hfull : e.refs.live.size = e.refs.capacity :=
          le_antisymm e.refs.size_le (not_lt.mp (of_decide_eq_false hroom.symm))
        refine .rejected (.fullAdd ht hfind hfull) ⟨?_, ?_, ?_⟩
        all_goals simp [reject, RefMap.insert_snd_of_false hins]
      | true =>
        rw [if_neg (by simp), if_neg (by simp [OrderBook.add_fst, hcan])]
        rw [hins] at hroom
        obtain ⟨hlive, hcap⟩ := RefMap.insert_snd_of_fresh hfind hins
        refine .added s ht hs href hloc hprice hlt hsh hfind (of_decide_eq_true hroom.symm) hcan
          ⟨?_, ?_, ?_, ?_, ?_⟩
        all_goals simp [accept, hlive]

theorem reduce_removed {e : BookEngine RefMap} (hinv : e.Inv) {ref : UInt64} {v : Value}
    {qty : UInt32} (hv : e.refs.find ref = some v) (h0 : qty ≠ 0) (hle : qty ≤ v.shares) :
    (e.bookOf v.locate).canRemove v.side v.price qty (v.shares == qty) = true := by
  obtain ⟨s, hs⟩ := (hinv.positive ref v hv).2
  rw [hs]
  exact (hinv.tracks v.locate).canRemove hinv.positive hv rfl hs h0 hle

theorem onReduce_outcome {e : BookEngine RefMap} (hinv : e.Inv) {m : DecodedMessage}
    (ht : m.type.IsReduce) :
    Outcome e m (Id.run (onReduce (e.withStatus .ignored) m (decide m.type.IsExec))).1.1
      (Id.run (onReduce (e.withStatus .ignored) m (decide m.type.IsExec))).2 := by
  simp only [onReduce, refs_count, refs_withStatus,
    getOrMake_snd, bookOf_count, bookOf_withStatus, refs_getOrMake, RefMap.refTable_find,
    RefMap.refTable_store, RefMap.refTable_erase]
  by_cases hbad : m.orderRef = 0 ∨ m.shares = 0
  · rw [if_pos hbad]
    exact .rejected (.badReduce ht hbad) ⟨rfl, fun _ => rfl, rfl⟩
  rw [if_neg hbad]
  rw [not_or] at hbad
  cases hfind : e.refs.find m.orderRef with
  | none => exact .rejected (.missing (Or.inl ht) hfind) ⟨rfl, fun _ => rfl, rfl⟩
  | some v =>
    by_cases hover : m.shares > v.shares
    · simp only [if_pos hover]
      exact .rejected (.oversize ht hfind hover) ⟨rfl, fun _ => rfl, rfl⟩
    have hle := UInt32.not_lt.mp hover
    have hrem := reduce_removed hinv hfind hbad.2 hle
    obtain ⟨s, hs⟩ := (hinv.positive _ v hfind).2
    simp only [if_neg hover, OrderBook.remove_fst, hrem, Bool.not_true, Bool.false_eq_true,
      if_false, decide_eq_true_eq, pure_bind]
    by_cases hgone : v.shares = m.shares
    · simp only [hgone, beq_self_eq_true, if_true]
      refine .reduced v s ht hfind hs hbad.2 hle ⟨?_, ?_, ?_, ?_, ?_⟩
      all_goals simp [accept, reduceLive, hgone, RefMap.erase_live_store]
    · simp only [beq_eq_false_iff_ne.mpr hgone, Bool.false_eq_true, if_false]
      refine .reduced v s ht hfind hs hbad.2 hle ⟨?_, ?_, ?_, ?_, ?_⟩
      all_goals simp [accept, reduceLive, hgone, beq_eq_false_iff_ne.mpr hgone,
        RefMap.live_store _ hfind]

theorem onDelete_outcome {e : BookEngine RefMap} (hinv : e.Inv) {m : DecodedMessage}
    (ht : m.type = .orderDelete) :
    Outcome e m (Id.run (onDelete (e.withStatus .ignored) m)).1 {} := by
  simp only [onDelete, refs_count, refs_withStatus, getOrMake_snd, bookOf_count,
    bookOf_withStatus, refs_getOrMake, RefMap.refTable_find, RefMap.refTable_erase]
  cases hfind : e.refs.find m.orderRef with
  | none =>
    exact .rejected (.missing (Or.inr (Or.inl ht)) hfind) ⟨rfl, fun _ => rfl, rfl⟩
  | some v =>
    obtain ⟨hpos, s, hs⟩ := hinv.positive _ v hfind
    have hrem := reduce_removed hinv hfind hpos (UInt32.le_refl _)
    rw [beq_self_eq_true] at hrem
    simp only [OrderBook.remove_fst, hrem, Bool.not_true, Bool.false_eq_true, if_false, pure_bind]
    refine .deleted v s ht hfind hs ⟨?_, ?_, ?_, ?_, ?_⟩
    all_goals simp [accept]

theorem onReplace_outcome {e : BookEngine RefMap} (hinv : e.Inv) {m : DecodedMessage}
    (ht : m.type = .orderReplace) :
    Outcome e m (Id.run (onReplace (e.withStatus .ignored) m)).1 {} := by
  simp only [onReplace, refs_count, refs_withStatus, priceLevels_count, priceLevels_withStatus,
    getOrMake_snd, bookOf_count, bookOf_withStatus, refs_getOrMake, RefMap.refTable_find,
    RefMap.refTable_erase, RefMap.refTable_insert, pure_bind]
  cases hfind : e.refs.find m.orderRef with
  | none =>
    exact .rejected (.missing (Or.inr (Or.inr ht)) hfind) ⟨rfl, fun _ => rfl, rfl⟩
  | some old =>
    by_cases hbad : m.newOrderRef = 0 ∨ m.newOrderRef = m.orderRef ∨ m.price = 0
        ∨ m.price ≥ e.priceLevels ∨ m.shares = 0
    · simp only [if_pos hbad]
      exact .rejected (.badReplace ht hfind hbad) ⟨rfl, fun _ => rfl, rfl⟩
    simp only [if_neg hbad]
    simp only [not_or, ge_iff_le, UInt32.not_le] at hbad
    obtain ⟨href, hne, hprice, hlt, hsh⟩ := hbad
    cases hfind' : e.refs.find m.newOrderRef with
    | some v => exact .rejected (.duplicateReplace ht hfind hfind') ⟨rfl, fun _ => rfl, rfl⟩
    | none =>
      rw [if_neg (by simp)]
      cases hcan : (e.bookOf old.locate).canReplace old.side old.price old.shares m.price
          m.shares with
      | false =>
        refine .rejected (.overflowReplace ht hfind hcan) ⟨?_, ?_, ?_⟩
        all_goals simp [reject]
      | true =>
        obtain ⟨s, hs⟩ := (hinv.positive _ old hfind).2
        -- the slot just freed is room for the new reference
        have hfresh : (e.refs.erase m.orderRef).2.find m.newOrderRef = none := by
          unfold RefMap.find
          rw [RefMap.live_erase, Finmap.lookup_erase_ne hne]
          exact hfind'
        have hins := RefMap.insert_fst_of_fresh ⟨m.price, m.shares, old.locate, old.side⟩ href
          hfresh
        rw [decide_eq_true (RefMap.size_erase_lt hfind)] at hins
        obtain ⟨hlive, hcap⟩ := RefMap.insert_snd_of_fresh hfresh hins
        rw [if_neg (by simp), if_neg (by simp [hins])]
        rw [hs] at hcan
        have hrep := OrderBook.replace_of_canReplace hcan
        rw [← hs] at hcan hrep
        rw [hrep, if_neg (by simp)]
        refine .replaced old s ht hfind hs href hne hprice hlt hsh hfind' hcan
          ⟨?_, ?_, ?_, ?_, ?_⟩
        all_goals simp [accept, hlive]

/-- **The inversion of `apply`.** -/
theorem step_outcome {e : BookEngine RefMap} (hinv : e.Inv) (m : DecodedMessage) :
    Outcome e m (e.next m) (e.step m).2 := by
  unfold next step apply
  cases ht : m.type with
  | addOrder => exact onAdd_outcome (Or.inl ht)
  | addOrderMPID => exact onAdd_outcome (Or.inr ht)
  | orderExecuted =>
    have h := onReduce_outcome hinv (m := m) (Or.inl (Or.inl ht))
    rwa [decide_eq_true (show m.type.IsExec from Or.inl ht)] at h
  | orderExecutedPrice =>
    have h := onReduce_outcome hinv (m := m) (Or.inl (Or.inr ht))
    rwa [decide_eq_true (show m.type.IsExec from Or.inr ht)] at h
  | orderCancel =>
    have h := onReduce_outcome hinv (m := m) (Or.inr ht)
    rwa [decide_eq_false (show ¬m.type.IsExec by simp [MsgType.IsExec, ht])] at h
  | orderDelete => exact onDelete_outcome hinv ht
  | orderReplace => exact onReplace_outcome hinv ht
  | trade => exact .printed ht rfl ⟨rfl, fun _ => rfl, rfl⟩
  | systemEvent => exact .system ht rfl ⟨rfl, fun _ => rfl, rfl⟩
  | unknown => exact .rejected (.unsupported ht) ⟨rfl, fun _ => rfl, rfl⟩

end BookEngine

end ItchOrderbook
