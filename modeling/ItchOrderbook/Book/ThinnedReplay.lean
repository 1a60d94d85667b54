import Mathlib.Data.Finset.Insert
import ItchOrderbook.Book.EraseTermination

/-!
# Replaying with some orders left out

A filter over the messages takes orders out of a replay: it drops the Adds at prices it does not
want and turns the Replaces to such a price into Deletes (`thin`). The engine then knows fewer
orders than before, and those it knows are the same (`Thins`). What it still applied before it
still applies, except the messages that name an order that was taken out: these end in
`missingReference` (`Thins.step`, and `thinned_endsIn` for whole replays).
-/

namespace ItchOrderbook

open LiveOrders

/-! ## The filter -/

/-- The Delete of the order that a Replace names. -/
def DecodedMessage.toDelete (m : DecodedMessage) : DecodedMessage :=
  { type := .orderDelete, stockLocate := m.stockLocate, stockIdx := m.stockIdx
    timestamp := m.timestamp, orderRef := m.orderRef }

section Filter

variable (inside : UInt32 → Bool)

/-- What is left of a message. -/
def thin (m : DecodedMessage) : Option DecodedMessage :=
  if m.type.IsAdd ∧ ¬inside m.price then none
  else if m.type = .orderReplace ∧ ¬inside m.price then some m.toDelete
  else some m

/-- The message names a live order. -/
def DecodedMessage.Names (m : DecodedMessage) : Prop :=
  m.type.IsReduce ∨ m.type = .orderDelete ∨ m.type = .orderReplace

instance (m : DecodedMessage) : Decidable m.Names := by
  unfold DecodedMessage.Names
  infer_instance

/-- The references whose orders were taken out, after one more message: the order of a dropped Add,
and what a Replace makes of an order that was taken out or that leaves. -/
def goneAfter (gone : Finset UInt64) (m : DecodedMessage) : Finset UInt64 :=
  if m.type.IsAdd then
    if inside m.price then gone.erase m.orderRef else insert m.orderRef gone
  else if m.type = .orderReplace then
    if m.orderRef ∈ gone ∨ ¬inside m.price then insert m.newOrderRef gone
    else gone.erase m.newOrderRef
  else gone

/-- A message of an order that was taken out. -/
def Orphan (gone : Finset UInt64) (m : DecodedMessage) : Prop := m.Names ∧ m.orderRef ∈ gone

instance (gone : Finset UInt64) (m : DecodedMessage) : Decidable (Orphan gone m) := by
  unfold Orphan
  infer_instance

/-- What is left of a sequence, with the status each message ends in. -/
def thinned (gone : Finset UInt64) : List DecodedMessage → List (DecodedMessage × ApplyStatus)
  | [] => []
  | m :: ms =>
    match thin inside m with
    | none => thinned (goneAfter inside gone m) ms
    | some m' => (m', if Orphan gone m then .missingReference else .applied) ::
      thinned (goneAfter inside gone m) ms

/-- No message of a sequence names an order that was taken out before it. -/
def NoneOrphaned (gone : Finset UInt64) : List DecodedMessage → Prop
  | [] => True
  | m :: ms => ¬Orphan gone m ∧ NoneOrphaned (goneAfter inside gone m) ms

variable {inside} in
/-- What is left of a message is the message, or the Delete that a Replace became. -/
theorem thin_cases {m m' : DecodedMessage} (h : thin inside m = some m') :
    m' = m ∨ m.type = .orderReplace ∧ m' = m.toDelete := by
  unfold thin at h
  split at h
  · cases h
  · split at h
    · rename_i hdel
      exact .inr ⟨hdel.1, (Option.some.inj h).symm⟩
    · exact .inl (Option.some.inj h).symm

theorem thinned_fst (gone : Finset UInt64) (ms : List DecodedMessage) :
    (thinned inside gone ms).map Prod.fst = ms.filterMap (thin inside) := by
  induction ms generalizing gone with
  | nil => rfl
  | cons m ms ih =>
    rw [thinned]
    cases h : thin inside m with
    | none => rw [List.filterMap_cons_none h, ih]
    | some m' => rw [List.filterMap_cons_some h, List.map_cons, ih]

theorem thinned_status (gone : Finset UInt64) (ms : List DecodedMessage) :
    ∀ p ∈ thinned inside gone ms, p.2 = .applied ∨ p.2 = .missingReference := by
  induction ms generalizing gone with
  | nil => exact fun p hp => absurd hp List.not_mem_nil
  | cons m ms ih =>
    rw [thinned]
    split
    · exact ih _
    · refine List.forall_mem_cons.mpr ⟨?_, ih _⟩
      by_cases horphan : Orphan gone m
      · exact .inr (if_pos horphan)
      · exact .inl (if_neg horphan)

end Filter

namespace BookEngine

/-! ## The orders after a message that is applied -/

section Lookup

variable {e e' : BookEngine RefMap} {m : DecodedMessage} {out : ExecResult}

/-- The messages of each kind are of no other. -/
theorem isAdd_only (ht : m.type.IsAdd) : ¬m.type.IsReduce ∧ m.type ≠ .orderDelete ∧
    m.type ≠ .orderReplace ∧ m.type ≠ .unknown := by
  rcases ht with h | h <;> rw [h] <;> decide

theorem isReduce_only (ht : m.type.IsReduce) : ¬m.type.IsAdd ∧ m.type ≠ .orderDelete ∧
    m.type ≠ .orderReplace ∧ m.type ≠ .unknown := by
  rcases ht with (h | h) | h <;> rw [h] <;> decide

theorem names_only (hn : m.Names) : ¬m.type.IsAdd ∧ m.type ≠ .trade ∧ m.type ≠ .systemEvent ∧
    m.type ≠ .unknown := by
  rcases hn with ((h | h) | h) | h | h <;> rw [h] <;> decide

/-- All that is left is applied exactly if no message is orphaned: a dropped Add names no order. -/
theorem noneOrphaned_iff {inside : UInt32 → Bool} {gone : Finset UInt64}
    {ms : List DecodedMessage} :
    NoneOrphaned inside gone ms ↔ ∀ p ∈ thinned inside gone ms, p.2 = .applied := by
  induction ms generalizing gone with
  | nil => exact iff_of_true trivial (List.forall_mem_nil _)
  | cons m ms ih =>
    rw [NoneOrphaned, thinned]
    cases h : thin inside m with
    | none =>
      have hdropped : ¬Orphan gone m := fun horphan => by
        unfold thin at h
        rw [if_neg fun hadd => (names_only horphan.1).1 hadd.1] at h
        split at h <;> cases h
      rw [and_iff_right hdropped]
      exact ih
    | some m' =>
      rw [List.forall_mem_cons, ← ih]
      refine and_congr_left fun _ => ?_
      show _ ↔ (if Orphan gone m then ApplyStatus.missingReference else .applied) = .applied
      split
      · rename_i horphan
        exact iff_of_false (not_not_intro horphan) nofun
      · rename_i hfree
        exact iff_of_true hfree rfl

/-- Where an applied message leaves the orders. -/
def ordersAfter (m : DecodedMessage) (orders : UInt64 → Option Value) (ref : UInt64) :
    Option Value :=
  if m.type.IsAdd then
    if ref = m.orderRef then some ⟨m.price, m.shares, m.stockLocate, m.side⟩ else orders ref
  else if m.type.IsReduce then
    if ref = m.orderRef then
      (orders ref).bind fun v =>
        if v.shares = m.shares then none else some { v with shares := v.shares - m.shares }
    else orders ref
  else if m.type = .orderDelete then
    if ref = m.orderRef then none else orders ref
  else if m.type = .orderReplace then
    if ref = m.newOrderRef then
      (orders m.orderRef).map fun old => ⟨m.price, m.shares, old.locate, old.side⟩
    else if ref = m.orderRef then none
    else orders ref
  else orders ref

section Kinds

variable (orders : UInt64 → Option Value)

theorem ordersAfter_add (ht : m.type.IsAdd) : ordersAfter m orders = fun ref =>
    if ref = m.orderRef then some ⟨m.price, m.shares, m.stockLocate, m.side⟩ else orders ref := by
  funext ref
  exact if_pos ht

theorem ordersAfter_reduce (ht : m.type.IsReduce) : ordersAfter m orders = fun ref =>
    if ref = m.orderRef then
      (orders ref).bind fun v =>
        if v.shares = m.shares then none else some { v with shares := v.shares - m.shares }
    else orders ref := by
  funext ref
  rw [ordersAfter, if_neg (isReduce_only ht).1, if_pos ht]

theorem ordersAfter_delete (ht : m.type = .orderDelete) : ordersAfter m orders = fun ref =>
    if ref = m.orderRef then none else orders ref := by
  funext ref
  rw [ordersAfter, if_neg (by rw [ht]; decide), if_neg (by rw [ht]; decide), if_pos ht]

theorem ordersAfter_replace (ht : m.type = .orderReplace) : ordersAfter m orders = fun ref =>
    if ref = m.newOrderRef then
      (orders m.orderRef).map fun old => ⟨m.price, m.shares, old.locate, old.side⟩
    else if ref = m.orderRef then none
    else orders ref := by
  funext ref
  rw [ordersAfter, if_neg (by rw [ht]; decide), if_neg (by rw [ht]; decide),
    if_neg (by rw [ht]; decide), if_pos ht]

theorem ordersAfter_other (ht : ¬m.type.IsAdd) (hn : ¬m.Names) : ordersAfter m orders = orders := by
  funext ref
  rw [DecodedMessage.Names, not_or, not_or] at hn
  rw [ordersAfter, if_neg ht, if_neg hn.1, if_neg hn.2.1, if_neg hn.2.2]

end Kinds

theorem Updates.find_eq {live : LiveOrders} {locate : UInt16} {b : OrderBook}
    (h : Updates e e' live locate b) (ref : UInt64) : e'.refs.find ref = live.lookup ref := by
  rw [RefMap.find, h.live_eq]

theorem Outcome.find_after (h : Outcome e m e' out) (hs : e'.lastStatus = .applied) :
    e'.refs.find = ordersAfter m e.refs.find := by
  cases h with
  | rejected reason same =>
    rw [hs] at reason
    cases reason
  | printed ht _ same =>
    rw [same.refs, ordersAfter_other _ (by rw [ht]; decide) fun hn => (names_only hn).2.1 ht]
  | system ht _ same =>
    rw [same.refs, ordersAfter_other _ (by rw [ht]; decide) fun hn => (names_only hn).2.2.1 ht]
  | added s ht _ _ _ _ _ _ _ _ _ upd =>
    rw [ordersAfter_add _ ht]
    funext ref
    rw [upd.find_eq]
    split
    · rename_i hr
      rw [hr, Finmap.lookup_insert]
    · rename_i hr
      exact Finmap.lookup_insert_of_ne _ hr
  | reduced v s ht hv _ _ _ upd =>
    rw [ordersAfter_reduce _ ht]
    funext ref
    rw [upd.find_eq, reduceLive]
    -- the last shares take the order out, fewer leave it with the rest
    by_cases hr : ref = m.orderRef
    · subst hr
      rw [if_pos rfl, hv, Option.bind_some]
      split
      · exact Finmap.lookup_erase _ _
      · exact Finmap.lookup_insert _
    · rw [if_neg hr]
      split
      · exact Finmap.lookup_erase_ne hr
      · exact Finmap.lookup_insert_of_ne _ hr
  | deleted v s ht hv _ upd =>
    rw [ordersAfter_delete _ ht]
    funext ref
    rw [upd.find_eq]
    split
    · rename_i hr
      rw [hr, Finmap.lookup_erase]
    · rename_i hr
      exact Finmap.lookup_erase_ne hr
  | replaced old s ht hv _ _ hne _ _ _ _ _ upd =>
    rw [ordersAfter_replace _ ht, hv]
    funext ref
    rw [upd.find_eq]
    split
    · -- the new reference; the old one is looked at only where they differ
      rename_i hr
      rw [hr, Finmap.lookup_insert, Option.map_some]
    · rename_i hr
      rw [Finmap.lookup_insert_of_ne _ hr]
      split
      · rename_i hr'
        rw [hr', Finmap.lookup_erase]
      · rename_i hr'
        exact Finmap.lookup_erase_ne hr'

/-- What no message changes. -/
structure SameShape (e e' : BookEngine RefMap) : Prop where
  priceLevels : e'.priceLevels = e.priceLevels
  capacity : e'.refs.capacity = e.refs.capacity
  maxPrice : ∀ locate, (e'.bookOf locate).maxPrice = (e.bookOf locate).maxPrice

theorem SameBooks.shape (h : SameBooks e e') : SameShape e e' where
  priceLevels := h.priceLevels
  capacity := by rw [h.refs]
  maxPrice locate := by rw [h.books]

theorem Updates.shape {live : LiveOrders} {locate : UInt16} {b : OrderBook}
    (h : Updates e e' live locate b) (hb : b.maxPrice = (e.bookOf locate).maxPrice) :
    SameShape e e' where
  priceLevels := h.priceLevels
  capacity := h.capacity
  maxPrice locate' := by
    rw [h.books]
    split
    · rename_i hl
      rw [hb, hl]
    · rfl

theorem Outcome.shape (h : Outcome e m e' out) : SameShape e e' := by
  cases h with
  | rejected _ same => exact same.shape
  | printed _ _ same => exact same.shape
  | system _ _ same => exact same.shape
  | added _ _ _ _ _ _ _ _ _ _ _ upd => exact upd.shape (OrderBook.maxPrice_add _ _ _ _)
  | reduced _ _ _ _ _ _ _ upd => exact upd.shape (OrderBook.maxPrice_remove _ _ _ _ _)
  | deleted _ _ _ _ _ upd => exact upd.shape (OrderBook.maxPrice_remove _ _ _ _ _)
  | replaced _ _ _ _ _ _ _ _ _ _ _ _ upd =>
    exact upd.shape (by rw [OrderBook.maxPrice_add, OrderBook.maxPrice_remove])

/-- What is applied has no reason to be rejected. -/
theorem Outcome.no_reason (h : Outcome e m e' out) (hs : e'.lastStatus = .applied)
    {st : ApplyStatus} : ¬RejectReason e m st := by
  -- a reason is about another kind of message, or it contradicts a guard of the outcome
  intro hr
  cases h with
  | rejected reason => rw [hs] at reason; cases reason
  | printed ht => cases hr <;> simp_all [MsgType.IsAdd, MsgType.IsReduce, MsgType.IsExec]
  | system ht => cases hr <;> simp_all [MsgType.IsAdd, MsgType.IsReduce, MsgType.IsExec]
  | added s ht hside href hloc hprice hlt hsh hnew hroom hcan upd =>
    have honly := isAdd_only ht
    have hcode : m.side = sideBuy ∨ m.side = sideSell := by
      rw [hside]
      cases s with
      | buy => exact .inl rfl
      | sell => exact .inr rfl
    have hfull := hroom.ne
    cases hr with
    | badAdd _ h =>
      rcases h with h | h | h | h | h | h
      · exact hcode.elim h.1 h.2
      · exact href h
      · exact hloc h
      · exact hprice h
      · exact UInt32.not_le.mpr hlt h
      · exact hsh h
    | _ => simp_all
  | reduced v s ht hv hside hsh hle upd =>
    have honly := isReduce_only ht
    have href : m.orderRef ≠ 0 := fun h0 => by
      rw [h0, RefMap.find_zero] at hv
      cases hv
    cases hr with
    | oversize _ hv' h =>
      obtain rfl := Option.some.inj (hv'.symm.trans hv)
      exact UInt32.not_lt.mpr hle h
    | _ => simp_all
  | deleted v s ht hv =>
    cases hr <;> simp_all [MsgType.IsAdd, MsgType.IsReduce, MsgType.IsExec]
  | replaced old s ht hv hside href hne hprice hlt hsh hnew hcan upd =>
    cases hr with
    | badReplace _ _ h =>
      rcases h with h | h | h | h | h
      · exact href h
      · exact hne h
      · exact hprice h
      · exact UInt32.not_le.mpr hlt h
      · exact hsh h
    | _ => simp_all [MsgType.IsAdd, MsgType.IsReduce, MsgType.IsExec]

end Lookup

end BookEngine

/-! ## Fewer orders, thinner books -/

namespace OrderBook

variable {b b' : OrderBook} {live live' : LiveOrders} {locate : UInt16}

/-- A level of fewer orders holds no more shares. -/
theorem Tracks.shares_mono (h : b.Tracks live locate) (h' : b'.Tracks live' locate)
    (hsub : ∀ ref v, live.lookup ref = some v → live'.lookup ref = some v) (s : Side)
    (price : UInt32) :
    (b.levels s price).totalShares.toNat ≤ (b'.levels s price).totalShares.toNat := by
  rw [h.shares, h'.shares]
  exact Finmap.total_le_of_lookup _ hsub

theorem Tracks.orders_mono (h : b.Tracks live locate) (h' : b'.Tracks live' locate)
    (hsub : ∀ ref v, live.lookup ref = some v → live'.lookup ref = some v) (s : Side)
    (price : UInt32) :
    (b.levels s price).orderCount.toNat ≤ (b'.levels s price).orderCount.toNat := by
  rw [h.orders, h'.orders]
  exact Finmap.total_le_of_lookup _ hsub

/-- What `can_add` admits it admits among fewer orders. -/
theorem Tracks.canAdd_mono (h : b.Tracks live locate) (h' : b'.Tracks live' locate)
    (hpos : live.Positive) (hmax : b.maxPrice = b'.maxPrice)
    (hsub : ∀ ref v, live.lookup ref = some v → live'.lookup ref = some v) {side : UInt8}
    {price shares : UInt32} (hcan : b'.canAdd side price shares = true) :
    b.canAdd side price shares = true := by
  obtain ⟨s, rfl⟩ := exists_side_of_canAdd hcan
  obtain ⟨h0, hle, hsh, -, htotal, hcount⟩ := (canAdd_iff b' s price shares).mp hcan
  have hshares := h.shares_mono h' hsub s price
  have horders := h.orders_mono h' hsub s price
  refine (canAdd_iff b s price shares).mpr ⟨h0, hmax ▸ hle, hsh, ?_, by omega, by omega⟩
  -- without shares no order, as all orders have shares
  have hzero := hpos.sharesAt_eq_zero_iff locate s price
  rw [← h.shares, ← h.orders] at hzero
  rw [← UInt32.toNat_inj, ← UInt32.toNat_inj]
  exact hzero

/-- What `can_replace` admits it admits among fewer orders. -/
theorem Tracks.canReplace_mono (h : b.Tracks live locate) (h' : b'.Tracks live' locate)
    (hpos : live.Positive) (hmax : b.maxPrice = b'.maxPrice)
    (hsub : ∀ ref v, live.lookup ref = some v → live'.lookup ref = some v) {s : Side}
    {oldPrice oldShares newPrice newShares : UInt32}
    (hrem : b.canRemove s.code oldPrice oldShares true = true)
    (hcan : b'.canReplace s.code oldPrice oldShares newPrice newShares = true) :
    b.canReplace s.code oldPrice oldShares newPrice newShares = true := by
  unfold canReplace at hcan ⊢
  split at hcan
  · cases hcan
  rename_i hguard
  rw [hmax, hrem]
  rw [not_or, Bool.not_eq_true', Bool.not_eq_false] at hguard
  rw [if_neg (by simpa using hguard.2)]
  by_cases hne : oldPrice = newPrice
  · rw [if_neg (not_not.mpr hne)] at hcan ⊢
    have hshares := h.shares_mono h' hsub s oldPrice
    obtain ⟨-, -, -, hle, -⟩ := (canRemove_iff b s _ _ _).mp hrem
    obtain ⟨-, -, -, hle', -⟩ := (canRemove_iff b' s _ _ _).mp hguard.1
    simp only [level_code, decide_eq_true_eq, UInt32.le_iff_toNat_le,
      UInt32.toNat_sub_of_le _ _ hle, UInt32.toNat_sub_of_le _ _ hle'] at hcan ⊢
    omega
  · rw [if_pos hne] at hcan ⊢
    exact h.canAdd_mono h' hpos hmax hsub hcan

end OrderBook

namespace BookEngine

variable {inside : UInt32 → Bool} {gone : Finset UInt64} {m : DecodedMessage}

/-! ## Orders that are looked up -/

/-- The orders without those that were taken out. -/
def without (gone : Finset UInt64) (orders : UInt64 → Option Value) (ref : UInt64) :
    Option Value := if ref ∈ gone then none else orders ref

/-- A message that stays and names no order that was taken out. -/
theorem without_kept (hin : m.type.IsAdd ∨ m.type = .orderReplace → inside m.price)
    (horphan : ¬Orphan gone m) (orders : UInt64 → Option Value) :
    ordersAfter m (without gone orders) =
      without (goneAfter inside gone m) (ordersAfter m orders) := by
  have hlive (hn : m.Names) : m.orderRef ∉ gone := fun hg => horphan ⟨hn, hg⟩
  by_cases hadd : m.type.IsAdd
  · rw [ordersAfter_add _ hadd, ordersAfter_add _ hadd, goneAfter, if_pos hadd,
      if_pos (hin (.inl hadd))]
    funext ref
    by_cases hr : ref = m.orderRef
    · simp [without, hr]
    · simp [without, hr]
  by_cases hn : m.Names
  · rcases hn with ht | ht | ht
    · rw [ordersAfter_reduce _ ht, ordersAfter_reduce _ ht, goneAfter, if_neg hadd,
        if_neg (isReduce_only ht).2.2.1]
      funext ref
      by_cases hr : ref = m.orderRef
      · simp [without, hr, hlive (.inl ht)]
      · simp [without, hr]
    · rw [ordersAfter_delete _ ht, ordersAfter_delete _ ht, goneAfter, if_neg hadd,
        if_neg (by rw [ht]; decide)]
      funext ref
      by_cases hr : ref = m.orderRef
      · simp [without, hr]
      · simp [without, hr]
    · have hg := hlive (.inr (.inr ht))
      rw [ordersAfter_replace _ ht, ordersAfter_replace _ ht, goneAfter, if_neg hadd, if_pos ht,
        if_neg (not_or.mpr ⟨hg, not_not.mpr (hin (.inr ht))⟩)]
      funext ref
      by_cases hr : ref = m.newOrderRef
      · simp [without, hr, hg]
      · by_cases hr' : ref = m.orderRef
        · have hne : m.orderRef ≠ m.newOrderRef := hr' ▸ hr
          simp [without, hr', hne, hg]
        · simp [without, hr, hr']
  · rw [ordersAfter_other _ hadd hn, ordersAfter_other _ hadd hn, goneAfter, if_neg hadd,
      if_neg fun ht => hn (.inr (.inr ht))]

/-- A dropped Add, of a reference that is free. -/
theorem without_dropped (ht : m.type.IsAdd) (hout : ¬inside m.price)
    {orders : UInt64 → Option Value} (hfree : orders m.orderRef = none) :
    without gone orders = without (goneAfter inside gone m) (ordersAfter m orders) := by
  rw [ordersAfter_add _ ht, goneAfter, if_pos ht, if_neg hout]
  funext ref
  by_cases hr : ref = m.orderRef
  · simp [without, hr, hfree]
  · simp [without, hr]

/-- A message of an order that was taken out finds nothing to change. -/
theorem without_orphan (horphan : Orphan gone m) {orders : UInt64 → Option Value}
    (hfree : m.type = .orderReplace → orders m.newOrderRef = none) :
    without gone orders = without (goneAfter inside gone m) (ordersAfter m orders) := by
  obtain ⟨hn, hg⟩ := horphan
  rw [goneAfter, if_neg (names_only hn).1]
  funext ref
  rcases hn with ht | ht | ht
  · rw [ordersAfter_reduce _ ht, if_neg (isReduce_only ht).2.2.1]
    by_cases hr : ref = m.orderRef
    · simp [without, hr, hg]
    · simp [without, hr]
  · rw [ordersAfter_delete _ ht, if_neg (by rw [ht]; decide)]
    by_cases hr : ref = m.orderRef
    · simp [without, hr, hg]
    · simp [without, hr]
  · rw [ordersAfter_replace _ ht, if_pos ht, if_pos (.inl hg)]
    by_cases hr : ref = m.newOrderRef
    · simp [without, hr, hfree ht]
    · by_cases hr' : ref = m.orderRef
      · simp [without, hr', hg]
      · simp [without, hr, hr']

/-- A Replace that became a Delete. -/
theorem without_rewritten (ht : m.type = .orderReplace) (hout : ¬inside m.price)
    {orders : UInt64 → Option Value} (hfree : orders m.newOrderRef = none) :
    ordersAfter m.toDelete (without gone orders) =
      without (goneAfter inside gone m) (ordersAfter m orders) := by
  rw [ordersAfter_delete _ (m := m.toDelete) rfl, ordersAfter_replace _ ht, goneAfter,
    if_neg (by rw [ht]; decide), if_pos ht, if_pos (.inr hout)]
  funext ref
  show (if ref = m.orderRef then _ else _) = _
  by_cases hr : ref = m.newOrderRef
  · simp [without, hr, hfree]
  · by_cases hr' : ref = m.orderRef
    · have hne : m.orderRef ≠ m.newOrderRef := hr' ▸ hr
      simp [without, hr', hne]
    · simp [without, hr, hr']

/-! ## One message -/

variable {e f e' f' : BookEngine RefMap}

/-- `f` has the orders of `e` without those that were taken out. -/
structure Thins (gone : Finset UInt64) (e f : BookEngine RefMap) : Prop where
  fullInv : e.Inv
  thinInv : f.Inv
  priceLevels : f.priceLevels = e.priceLevels
  capacity : f.refs.capacity = e.refs.capacity
  maxPrice : ∀ locate, (f.bookOf locate).maxPrice = (e.bookOf locate).maxPrice
  find : f.refs.find = without gone e.refs.find

theorem thins_new (priceLevels : UInt32) (capacity : ℕ) :
    Thins ∅ (new priceLevels (RefMap.new capacity)) (new priceLevels (RefMap.new capacity)) where
  fullInv := inv_new priceLevels capacity
  thinInv := inv_new priceLevels capacity
  priceLevels := rfl
  capacity := rfl
  maxPrice _ := rfl
  find := by funext ref; simp [without]

/-- An order that is left is the order it was. -/
theorem Thins.sub (h : Thins gone e f) (ref : UInt64) (v : Value) (hv : f.refs.find ref = some v) :
    e.refs.find ref = some v := by
  rw [h.find, without] at hv
  split at hv
  · cases hv
  · exact hv

theorem Thins.find_of_notMem (h : Thins gone e f) {ref : UInt64} (hg : ref ∉ gone) :
    f.refs.find ref = e.refs.find ref := by
  rw [h.find, without, if_neg hg]

/-- What speaks against a message among fewer orders does so among all. -/
theorem Thins.reason (h : Thins gone e f) (horphan : ¬Orphan gone m) {st : ApplyStatus}
    (hr : RejectReason f m st) : ∃ st', RejectReason e m st' := by
  have hmissing (hn : m.Names) (hnone : f.refs.find m.orderRef = none) :
      e.refs.find m.orderRef = none := by
    rw [← h.find_of_notMem fun hg => horphan ⟨hn, hg⟩]
    exact hnone
  cases hr with
  | unsupported ht => exact ⟨_, .unsupported ht⟩
  | badAdd ht hbad => exact ⟨_, .badAdd ht (h.priceLevels ▸ hbad)⟩
  | duplicateAdd ht hv => exact ⟨_, .duplicateAdd ht (h.sub _ _ hv)⟩
  | overflowAdd ht hcan =>
    refine ⟨_, .overflowAdd ht (Bool.eq_false_iff.mpr fun hcan' => ?_)⟩
    have hthin := (h.thinInv.tracks m.stockLocate).canAdd_mono (h.fullInv.tracks m.stockLocate)
      h.thinInv.positive (h.maxPrice _) h.sub hcan'
    rw [hcan] at hthin
    cases hthin
  | fullAdd ht _ hsize =>
    cases hv : e.refs.find m.orderRef with
    | some v => exact ⟨_, .duplicateAdd ht hv⟩
    | none =>
      have hle := Finmap.size_le_of_lookup h.sub
      rw [hsize, h.capacity] at hle
      exact ⟨_, .fullAdd ht hv (le_antisymm e.refs.size_le hle)⟩
  | badReduce ht hbad => exact ⟨_, .badReduce ht hbad⟩
  | missing hn hnone => exact ⟨_, .missing hn (hmissing hn hnone)⟩
  | oversize ht hv hlt => exact ⟨_, .oversize ht (h.sub _ _ hv) hlt⟩
  | badReplace ht hv hbad => exact ⟨_, .badReplace ht (h.sub _ _ hv) (h.priceLevels ▸ hbad)⟩
  | duplicateReplace ht hv hv' =>
    exact ⟨_, .duplicateReplace ht (h.sub _ _ hv) (h.sub _ _ hv')⟩
  | @overflowReplace ht old hv hcan =>
    refine ⟨_, .overflowReplace ht (h.sub _ _ hv) (Bool.eq_false_iff.mpr fun hcan' => ?_)⟩
    obtain ⟨hpos, s, hs⟩ := h.thinInv.positive _ old hv
    have hrem := reduce_removed h.thinInv hv hpos (UInt32.le_refl _)
    rw [beq_self_eq_true] at hrem
    rw [hs] at hrem hcan hcan'
    have hthin := (h.thinInv.tracks old.locate).canReplace_mono (h.fullInv.tracks old.locate)
      h.thinInv.positive (h.maxPrice _) h.sub hrem hcan'
    rw [hcan] at hthin
    cases hthin

/-- A message without a reason to be rejected is applied. -/
theorem applied_of_no_reason (hinv : f.Inv) (hno : ∀ st, ¬RejectReason f m st) :
    (f.next m).lastStatus = .applied := by
  by_contra hs
  exact hno _ ((step_outcome hinv m).not_applied hs).2.2

/-- A message that names no live order changes nothing. -/
theorem next_missing (hinv : f.Inv) (hn : m.Names) (hnone : f.refs.find m.orderRef = none)
    (hgood : m.type.IsReduce → m.orderRef ≠ 0 ∧ m.shares ≠ 0) :
    (f.next m).lastStatus = .missingReference ∧ SameBooks f (f.next m) := by
  have hout := step_outcome hinv m
  have hsome {v : Value} (hv : f.refs.find m.orderRef = some v) : False := by
    rw [hnone] at hv
    cases hv
  obtain ⟨hadd, htrade, hsys, hknown⟩ := names_only hn
  generalize f.next m = f' at hout
  generalize (f.step m).2 = out at hout
  cases hout with
  | rejected reason same =>
    refine ⟨?_, same⟩
    generalize f'.lastStatus = st at reason
    cases reason with
    | unsupported ht => exact absurd ht hknown
    | badAdd ht => exact absurd ht hadd
    | duplicateAdd ht => exact absurd ht hadd
    | overflowAdd ht => exact absurd ht hadd
    | fullAdd ht => exact absurd ht hadd
    | badReduce ht hbad =>
      obtain ⟨href, hsh⟩ := hgood ht
      exact (hbad.elim href hsh).elim
    | missing => rfl
    | oversize ht hv => exact (hsome hv).elim
    | badReplace ht hv => exact (hsome hv).elim
    | duplicateReplace ht hv => exact (hsome hv).elim
    | overflowReplace ht hv => exact (hsome hv).elim
  | printed ht => exact absurd ht htrade
  | system ht => exact absurd ht hsys
  | added s ht => exact absurd ht hadd
  | reduced v s ht hv => exact (hsome hv).elim
  | deleted v s ht hv => exact (hsome hv).elim
  | replaced old s ht hv => exact (hsome hv).elim

/-- The relation holds again when the orders match. -/
theorem Thins.moved (h : Thins gone e f) {gone' : Finset UInt64} (he : SameShape e e')
    (hinv : e'.Inv) (hf : SameShape f f') (hinv' : f'.Inv)
    (hfind : f'.refs.find = without gone' e'.refs.find) : Thins gone' e' f' where
  fullInv := hinv
  thinInv := hinv'
  priceLevels := by rw [he.priceLevels, hf.priceLevels, h.priceLevels]
  capacity := by rw [he.capacity, hf.capacity, h.capacity]
  maxPrice locate := by rw [he.maxPrice, hf.maxPrice, h.maxPrice]
  find := hfind

section Applied

variable (h : Thins gone e f) (hs : (e.next m).lastStatus = .applied)
include h hs

theorem Thins.no_reason (st : ApplyStatus) : ¬RejectReason e m st :=
  (step_outcome h.fullInv m).no_reason hs

/-- An Add brings a reference that is free. -/
theorem Thins.add_free (ht : m.type.IsAdd) : e.refs.find m.orderRef = none :=
  Option.eq_none_iff_forall_ne_some.mpr fun _ hv => h.no_reason hs _ (.duplicateAdd ht hv)

/-- So does a Replace. -/
theorem Thins.replace_free (ht : m.type = .orderReplace) : e.refs.find m.newOrderRef = none := by
  refine Option.eq_none_iff_forall_ne_some.mpr fun v hv => ?_
  cases hold : e.refs.find m.orderRef with
  | none => exact h.no_reason hs _ (.missing (.inr (.inr ht)) hold)
  | some old => exact h.no_reason hs _ (.duplicateReplace ht hold hv)

/-- A dropped Add. -/
theorem Thins.dropped (ht : m.type.IsAdd) (hout : ¬inside m.price) :
    Thins (goneAfter inside gone m) (e.next m) f := by
  have hstep := step_outcome h.fullInv m
  refine h.moved hstep.shape (h.fullInv.next m) ⟨rfl, rfl, fun _ => rfl⟩ h.thinInv ?_
  rw [h.find, hstep.find_after hs]
  exact without_dropped ht hout (h.add_free hs ht)

/-- A message that stays and names no order that was taken out. -/
theorem Thins.kept (hin : m.type.IsAdd ∨ m.type = .orderReplace → inside m.price)
    (horphan : ¬Orphan gone m) :
    Thins (goneAfter inside gone m) (e.next m) (f.next m) ∧
      (f.next m).lastStatus = .applied := by
  have hst : (f.next m).lastStatus = .applied := by
    refine applied_of_no_reason h.thinInv fun st hr => ?_
    obtain ⟨st', hr'⟩ := h.reason horphan hr
    exact h.no_reason hs st' hr'
  have hfull := step_outcome h.fullInv m
  have hthin := step_outcome h.thinInv m
  refine ⟨h.moved hfull.shape (h.fullInv.next m) hthin.shape (h.thinInv.next m) ?_, hst⟩
  rw [hthin.find_after hst, hfull.find_after hs, h.find]
  exact without_kept hin horphan _

/-- A message of an order that was taken out, which may be a Replace that became a Delete. -/
theorem Thins.orphan {m' : DecodedMessage} (hm' : m' = m ∨ m.type = .orderReplace ∧ m' = m.toDelete)
    (horphan : Orphan gone m) :
    Thins (goneAfter inside gone m) (e.next m) (f.next m') ∧
      (f.next m').lastStatus = .missingReference := by
  have hgood (ht : m.type.IsReduce) : m.orderRef ≠ 0 ∧ m.shares ≠ 0 :=
    not_or.mp fun hbad => h.no_reason hs _ (.badReduce ht hbad)
  have href : m'.orderRef = m.orderRef := by
    rcases hm' with rfl | ⟨-, rfl⟩ <;> rfl
  have hnone : f.refs.find m'.orderRef = none := by
    rw [h.find, without, href, if_pos horphan.2]
  obtain ⟨hst, same⟩ : (f.next m').lastStatus = .missingReference ∧ SameBooks f (f.next m') := by
    rcases hm' with rfl | ⟨-, rfl⟩
    · exact next_missing h.thinInv horphan.1 hnone hgood
    · refine next_missing h.thinInv (.inr (.inl rfl)) hnone fun ht => absurd ht ?_
      show ¬MsgType.orderDelete.IsReduce
      decide
  have hfull := step_outcome h.fullInv m
  refine ⟨h.moved hfull.shape (h.fullInv.next m) same.shape (h.thinInv.next m') ?_, hst⟩
  rw [same.refs, h.find, hfull.find_after hs]
  exact without_orphan horphan (h.replace_free hs)

/-- A Replace that became a Delete, of an order that is left. -/
theorem Thins.rewritten (ht : m.type = .orderReplace) (hout : ¬inside m.price)
    (horphan : ¬Orphan gone m) :
    Thins (goneAfter inside gone m) (e.next m) (f.next m.toDelete) ∧
      (f.next m.toDelete).lastStatus = .applied := by
  have hlive : m.orderRef ∉ gone := fun hg => horphan ⟨.inr (.inr ht), hg⟩
  have hst : (f.next m.toDelete).lastStatus = .applied := by
    refine applied_of_no_reason h.thinInv fun st hr => ?_
    -- a Delete can only be missing its order
    have hno : ¬m.toDelete.type.IsAdd ∧ ¬m.toDelete.type.IsReduce := by
      show ¬MsgType.orderDelete.IsAdd ∧ ¬MsgType.orderDelete.IsReduce
      decide
    cases hr with
    | unsupported ht' => cases ht'
    | badAdd ht' => exact hno.1 ht'
    | duplicateAdd ht' => exact hno.1 ht'
    | overflowAdd ht' => exact hno.1 ht'
    | fullAdd ht' => exact hno.1 ht'
    | badReduce ht' => exact hno.2 ht'
    | missing _ hnone =>
      have hfull : e.refs.find m.orderRef = none := by
        rw [← h.find_of_notMem hlive]
        exact hnone
      exact h.no_reason hs _ (.missing (.inr (.inr ht)) hfull)
    | oversize ht' => exact hno.2 ht'
    | badReplace ht' => cases ht'
    | duplicateReplace ht' => cases ht'
    | overflowReplace ht' => cases ht'
  have hfull := step_outcome h.fullInv m
  have hthin := step_outcome h.thinInv m.toDelete
  refine ⟨h.moved hfull.shape (h.fullInv.next m) hthin.shape (h.thinInv.next _) ?_, hst⟩
  rw [hthin.find_after hst, hfull.find_after hs, h.find]
  exact without_rewritten ht hout (h.replace_free hs ht)

variable (inside) in
/-- **One message**: what is left of a message that was applied is applied among fewer orders, and
is missing its reference if it names an order that was taken out. -/
theorem Thins.step :
    match thin inside m with
    | none => Thins (goneAfter inside gone m) (e.next m) f
    | some m' => Thins (goneAfter inside gone m) (e.next m) (f.next m') ∧
        (f.next m').lastStatus = if Orphan gone m then .missingReference else .applied := by
  unfold thin
  by_cases hdrop : m.type.IsAdd ∧ ¬inside m.price
  · rw [if_pos hdrop]
    exact h.dropped hs hdrop.1 hdrop.2
  rw [if_neg hdrop]
  by_cases hdel : m.type = .orderReplace ∧ ¬inside m.price
  · rw [if_pos hdel]
    by_cases horphan : Orphan gone m
    · simp only [if_pos horphan]
      exact h.orphan hs (.inr ⟨hdel.1, rfl⟩) horphan
    · simp only [if_neg horphan]
      exact h.rewritten hs hdel.1 hdel.2 horphan
  · rw [if_neg hdel]
    have hin : m.type.IsAdd ∨ m.type = .orderReplace → inside m.price := by
      rintro (ht | ht)
      · exact not_not.mp fun hout => hdrop ⟨ht, hout⟩
      · exact not_not.mp fun hout => hdel ⟨ht, hout⟩
    by_cases horphan : Orphan gone m
    · simp only [if_pos horphan]
      exact h.orphan hs (.inl rfl) horphan
    · simp only [if_neg horphan]
      exact h.kept hs hin horphan

end Applied

/-! ## Over the table -/

section Table

variable {e f : BookEngine OrderRefTable}

/-- The relation between engines over tables. -/
def Thinned (gone : Finset UInt64) (e f : BookEngine OrderRefTable) : Prop :=
  ∃ r r', e.refs.Refines r ∧ f.refs.Refines r' ∧ Thins gone (e.over r) (f.over r')

/-- An applied Replace takes an order out. -/
theorem removes_replace {r : RefMap} (href : e.refs.Refines r) (hinv : (e.over r).Inv)
    (hs : ((e.over r).next m).lastStatus = .applied) (ht : m.type = .orderReplace) :
    e.Removes m := by
  have hstep := step_outcome hinv m
  have hlook (ref : UInt64) : e.refs.find ref = (e.over r).refs.find ref := href.find_eq ref
  generalize (e.over r).next m = e' at hstep hs
  generalize ((e.over r).step m).2 = out at hstep
  cases hstep with
  | rejected reason => rw [hs] at reason; cases reason
  | printed ht' => rw [ht] at ht'; cases ht'
  | system ht' => rw [ht] at ht'; cases ht'
  | added s ht' => exact absurd ht (isAdd_only ht').2.2.1
  | reduced v s ht' => exact absurd ht (isReduce_only ht').2.2.1
  | deleted v s ht' => rw [ht] at ht'; cases ht'
  | replaced old s _ hv _ h0 hne hprice hlt hsh hnew hcan =>
    exact .replace ht old ((hlook _).trans hv) ⟨h0, hne, (hlook _).trans hnew⟩ ⟨hprice, hlt⟩
      hsh hcan

/-- The step of the map behind a step of the table. -/
theorem apply_some {r : RefMap} (href : e.refs.Refines r) (hinv : (e.over r).Inv)
    {x : (BookEngine OrderRefTable × Option UInt16) × ExecResult} (hx : e.apply m = some x) :
    ¬e.Endless m ∧ ∃ r', x.1.1.refs.Refines r' ∧ (e.over r).next m = x.1.1.over r' := by
  have hends := apply_ends href hinv m
  unfold next
  generalize (e.over r).step m = y at hends
  rw [hx] at hends
  cases hends with
  | returns hr hl => exact ⟨hl, _, hr, rfl⟩

/-- A message that is not endless returns. -/
theorem apply_returns {r : RefMap} (href : e.refs.Refines r) (hinv : (e.over r).Inv)
    (hl : ¬e.Endless m) : ∃ x, e.apply m = some x := by
  have hends := apply_ends href hinv m
  generalize (e.over r).step m = y at hends
  generalize BookEngine.apply e m = x at hends
  cases hends with
  | loops h => exact absurd h hl
  | returns => exact ⟨_, rfl⟩

/-- Among fewer orders the table is full at most when it was. -/
theorem Thins.endless {r r' : RefMap} (h : Thins gone (e.over r) (f.over r'))
    (href : e.refs.Refines r) (href' : f.refs.Refines r')
    (hs : ((e.over r).next m).lastStatus = .applied) {m' : DecodedMessage}
    (hthin : thin inside m = some m') (hl : f.Endless m') : e.Endless m := by
  obtain ⟨hrem, hfull⟩ := hl
  have hsize : r'.live.size ≤ r.live.size := Finmap.size_le_of_lookup h.sub
  have hcap : r'.capacity = r.capacity := h.capacity
  have hfind {ref : UInt64} {v : Value} (hv : f.refs.find ref = some v) :
      e.refs.find ref = some v := by
    rw [href.find_eq]
    rw [href'.find_eq] at hv
    exact h.sub ref v hv
  constructor
  · rcases thin_cases hthin with rfl | ⟨ht, rfl⟩
    · cases hrem with
      | delete ht v hv => exact .delete ht v (hfind hv)
      | reduce ht v hv hall => exact .reduce ht v (hfind hv) hall
      | replace ht => exact removes_replace href h.fullInv hs ht
    · exact removes_replace href h.fullInv hs ht
  · have hcap₁ : e.refs.capacity = r.capacity := href.capacity.symm
    have hcap₂ : f.refs.capacity = r'.capacity := href'.capacity.symm
    rw [href'.size_eq] at hfull
    rw [href.size_eq]
    have := r.size_le
    omega

variable (inside) in
/-- **One message**, over the table. -/
theorem Thinned.step (h : Thinned gone e f)
    {x : (BookEngine OrderRefTable × Option UInt16) × ExecResult} (hx : e.apply m = some x)
    (hs : x.1.1.lastStatus = .applied) :
    match thin inside m with
    | none => Thinned (goneAfter inside gone m) x.1.1 f
    | some m' => ∃ y, f.apply m' = some y ∧
        y.1.1.lastStatus = (if Orphan gone m then .missingReference else .applied) ∧
        Thinned (goneAfter inside gone m) x.1.1 y.1.1 := by
  obtain ⟨r, r', href, href', hthins⟩ := h
  obtain ⟨hl, r₁, href₁, hnext⟩ := apply_some href hthins.fullInv hx
  have hs' : ((e.over r).next m).lastStatus = .applied := by rw [hnext]; exact hs
  have hstep := hthins.step inside hs'
  split
  · rename_i hthin
    rw [hthin, hnext] at hstep
    exact ⟨r₁, r', href₁, href', hstep⟩
  · rename_i m' hthin
    rw [hthin, hnext] at hstep
    obtain ⟨y, hy⟩ := apply_returns href' hthins.thinInv
      fun hl' => hl (hthins.endless href href' hs' hthin hl')
    obtain ⟨-, r₂, href₂, hnext'⟩ := apply_some href' hthins.thinInv hy
    dsimp only at hstep
    rw [hnext'] at hstep
    exact ⟨y, hy, hstep.2, r₁, r₂, href₁, href₂, hstep.1⟩

/-- The messages of a sequence return, each in the status it is given. -/
def EndsIn {T : Type} [RefTable T Option] :
    BookEngine T → List (DecodedMessage × ApplyStatus) → Prop
  | _, [] => True
  | e, (m, st) :: ms => ∃ r, e.apply m = some r ∧ r.1.1.lastStatus = st ∧ r.1.1.EndsIn ms

/-- The statuses that a sequence of messages ends in. -/
def statuses {T : Type} [RefTable T Option] :
    BookEngine T → List DecodedMessage → Option (List ApplyStatus)
  | _, [] => some []
  | e, m :: ms => (e.apply m).bind fun r =>
    (r.1.1.statuses ms).map fun sts => r.1.1.lastStatus :: sts

theorem endsIn_iff {T : Type} [RefTable T Option] {e : BookEngine T}
    {ms : List (DecodedMessage × ApplyStatus)} :
    e.EndsIn ms ↔ e.statuses (ms.map Prod.fst) = some (ms.map Prod.snd) := by
  induction ms generalizing e with
  | nil => exact ⟨fun _ => rfl, fun _ => trivial⟩
  | cons p ms ih =>
    obtain ⟨m, st⟩ := p
    rw [List.map_cons, List.map_cons, statuses, Option.bind_eq_some_iff]
    constructor
    · rintro ⟨r, hr, rfl, hrest⟩
      exact ⟨r, hr, Option.map_eq_some_iff.mpr ⟨_, ih.mp hrest, rfl⟩⟩
    · rintro ⟨r, hr, hmap⟩
      obtain ⟨sts, hsts, hcons⟩ := Option.map_eq_some_iff.mp hmap
      obtain ⟨rfl, rfl⟩ := List.cons.inj hcons
      exact ⟨r, hr, rfl, ih.mpr hsts⟩

/-- A whole replay. Induction on the messages. -/
theorem Thinned.endsIn (h : Thinned gone e f) {ms : List DecodedMessage}
    (happ : e.EndsIn (ms.map fun m => (m, .applied))) : f.EndsIn (thinned inside gone ms) := by
  induction ms generalizing gone e f with
  | nil => trivial
  | cons m ms ih =>
    obtain ⟨x, hx, hs, hrest⟩ := happ
    have hstep := h.step inside hx hs
    rw [thinned]
    cases hthin : thin inside m with
    | none =>
      rw [hthin] at hstep
      exact ih hstep hrest
    | some m' =>
      rw [hthin] at hstep
      obtain ⟨y, hy, hst, hnext⟩ := hstep
      exact ⟨y, hy, hst, ih hnext hrest⟩

/-- **What is left of a replay.** Messages that an engine over a fresh table all applied: of those
that the filter leaves, the engine rejects the ones of orders that were taken out, as missing their
reference, and applies the others. -/
theorem thinned_endsIn {capacity priceLevels : UInt32} {t₀ : OrderRefTable}
    (hnew : OrderRefTable.new capacity = some t₀) {ms : List DecodedMessage}
    (happ : (new priceLevels t₀).EndsIn (ms.map fun m => (m, .applied))) :
    (new priceLevels t₀).EndsIn (thinned inside ∅ ms) := by
  obtain ⟨k, href⟩ := OrderRefTable.refines_new hnew
  exact Thinned.endsIn ⟨_, _, href, href, thins_new priceLevels (2 ^ k)⟩ happ

end Table

end BookEngine

end ItchOrderbook
