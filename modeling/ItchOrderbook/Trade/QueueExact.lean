import ItchOrderbook.Trade.FillRun
import ItchOrderbook.Trade.QueueAhead

/-!
# Exact queues over whole runs

On a stream the book engine accepts, with references that grow, `queue_ahead` of every open
order is at all times the displayed market shares that were there before it plus the shares of
own orders before it (`run_queues_exact`), so an execution of a market order that was ahead
never fills it. The counter has 64 bits and is set to a sum of shares when the order comes to
rest; the statement is about runs in which each such sum fits (`SnapshotFits`), and
`queues_inexact` is a run in which one does not.
-/

namespace ItchOrderbook

open VectorLoop (sum_map_filter)
open OpenOrder (Evolves)
open BookEngine (Outcome reduceLive)

/-! ## Market orders ahead -/

/-- The market order's shares are displayed ahead of the own order: same level, and no newer
than its watermark. -/
def Value.AheadOf (v : Value) (locate : UInt16) (ref : UInt64) (o : OpenOrder) : Prop :=
  v.locate = locate ∧ v.side = o.side ∧ v.price = o.price ∧ ref ≤ o.watermark

instance (v : Value) (locate : UInt16) (ref : UInt64) (o : OpenOrder) :
    Decidable (v.AheadOf locate ref o) := by
  unfold Value.AheadOf
  infer_instance

namespace LiveOrders

variable {live : LiveOrders} {ref : UInt64} {v : Value} {locate : UInt16}

/-- The displayed shares of the live market orders ahead of an own order. -/
def marketAhead (live : LiveOrders) (locate : UInt16) (o : OpenOrder) : ℕ :=
  Finmap.total (fun ref v => if v.AheadOf locate ref o then v.shares.toNat else 0) live

theorem marketAhead_evolves (live : LiveOrders) (locate : UInt16) (o o' : OpenOrder)
    (h : Evolves o o') : live.marketAhead locate o' = live.marketAhead locate o := by
  unfold marketAhead
  refine Finmap.total_congr fun ref v _ => if_congr ?_ rfl rfl
  unfold Value.AheadOf
  rw [h.side, h.price, h.watermark]

/-- Shares that an order loses are lost to those it is ahead of. -/
theorem marketAhead_reduceLive (hv : live.lookup ref = some v) {qty : UInt32}
    (hle : qty ≤ v.shares) (locate : UInt16) (o : OpenOrder) :
    live.marketAhead locate o = (reduceLive live ref v qty).marketAhead locate o
      + if v.AheadOf locate ref o then qty.toNat else 0 := by
  have hsub := UInt32.toNat_sub_of_le _ _ hle
  have hqty := UInt32.le_iff_toNat_le.mp hle
  unfold reduceLive marketAhead
  by_cases hgone : v.shares = qty
  · rw [if_pos hgone, ← hgone]
    exact (Finmap.total_erase _ hv).symm
  · have hins := Finmap.total_insert_of_lookup
      (fun ref v => if v.AheadOf locate ref o then v.shares.toNat else 0)
      { v with shares := v.shares - qty } hv
    have hsame : ({ v with shares := v.shares - qty } : Value).AheadOf locate ref o
        ↔ v.AheadOf locate ref o := Iff.rfl
    rw [if_neg hgone]
    simp only [hsame] at hins
    split
    · rename_i ha
      simp only [ha, if_true] at hins
      omega
    · rename_i ha
      simp only [ha, if_false] at hins
      omega

/-- On our locate these shares leave the level. -/
theorem leaves_reduceLive (hv : live.lookup ref = some v) {qty : UInt32} (hle : qty ≤ v.shares)
    (hloc : v.locate = locate) :
    Leaves (live.marketAhead locate) ((reduceLive live ref v qty).marketAhead locate) ref v.side
      v.price qty := by
  intro o
  rw [marketAhead_reduceLive hv hle]
  congr 1
  refine if_congr ?_ rfl rfl
  unfold Value.AheadOf
  rw [eq_comm (a := v.side), eq_comm (a := v.price)]
  exact and_iff_right hloc

/-- On another locate nothing is ahead of us. -/
theorem marketAhead_reduceLive_of_ne (hv : live.lookup ref = some v) {qty : UInt32}
    (hle : qty ≤ v.shares) (hloc : v.locate ≠ locate) (o : OpenOrder) :
    (reduceLive live ref v qty).marketAhead locate o = live.marketAhead locate o := by
  rw [marketAhead_reduceLive hv hle, if_neg fun ha => hloc ha.1, Nat.add_zero]

/-- A newer order is ahead of no own order. -/
theorem marketAhead_insert_newer (h : ref ∉ live) (v : Value) {o : OpenOrder}
    (hnew : o.watermark < ref) :
    marketAhead (live.insert ref v) locate o = live.marketAhead locate o := by
  unfold marketAhead
  rw [Finmap.total_insert_of_notMem _ v h, if_neg fun ha => UInt64.not_le.mpr hnew ha.2.2.2,
    Nat.add_zero]

/-- An own order whose watermark covers all live orders has its whole level ahead. -/
theorem marketAhead_eq_sharesAt {o : OpenOrder} {s : Side}
    (hall : ∀ ref v, live.lookup ref = some v → ref ≤ o.watermark) (hside : o.side = s.code) :
    live.marketAhead locate o = live.sharesAt locate s o.price := by
  unfold marketAhead sharesAt
  refine Finmap.total_congr fun ref v hv => if_congr ?_ rfl rfl
  unfold Value.AheadOf Value.RestsAt
  rw [hside]
  exact ⟨fun ⟨h₁, h₂, h₃, _⟩ => ⟨h₁, h₂, h₃⟩, fun ⟨h₁, h₂, h₃⟩ => ⟨h₁, h₂, h₃, hall ref v hv⟩⟩

/-- What is live after a reduction was live before. -/
theorem lookup_reduceLive {r : UInt64} {qty : UInt32} {w : Value}
    (hv : live.lookup ref = some v) (h : (reduceLive live ref v qty).lookup r = some w) :
    ∃ w', live.lookup r = some w' := by
  by_cases hr : r = ref
  · exact ⟨v, hr ▸ hv⟩
  · refine ⟨w, ?_⟩
    unfold reduceLive at h
    split at h
    · rwa [Finmap.lookup_erase_ne hr] at h
    · rwa [Finmap.lookup_insert_of_ne _ hr] at h

end LiveOrders

/-! ## The snapshot of a new order -/

/-- The shares of own orders at a level. -/
def levelShares (orders : List OpenOrder) (side : UInt8) (price : UInt32) : ℕ :=
  (orders.map fun o => if o.side = side ∧ o.price = price then o.remaining.toNat else 0).sum

/-- All own orders at its level are ahead of the newest order. -/
theorem ownAhead_newest {orders : List OpenOrder} {o : OpenOrder}
    (h : ∀ p ∈ orders, p.seq < o.seq) : ownAhead orders o = levelShares orders o.side o.price := by
  unfold ownAhead levelShares
  congr 1
  refine List.map_congr_left fun p hp => if_congr ?_ rfl rfl
  exact and_iff_right (h p hp)

/-- The snapshot is the sum, modulo the width of the counter. -/
theorem FillEngine.toNat_queueSnapshot (fe : FillEngine) (b : Option OrderBook) (side : UInt8)
    (price : UInt32) : (fe.queueSnapshot b side price).toNat
      = ((displayed b side price).toNat + levelShares fe.openOrders side price) % 2 ^ 64 := by
  unfold queueSnapshot levelShares
  generalize hq : (displayed b side price).toUInt64 = q
  have hq' : (displayed b side price).toNat = q.toNat := by rw [← hq, UInt32.toNat_toUInt64]
  rw [hq']
  clear hq hq'
  induction fe.openOrders generalizing q with
  | nil => simp [Nat.mod_eq_of_lt q.toNat_lt]
  | cons o orders ih =>
    rw [List.foldl_cons, ih, List.map_cons, List.sum_cons]
    split
    · rw [UInt64.toNat_add, UInt32.toNat_toUInt64, Nat.mod_add_mod, Nat.add_assoc]
    · rw [Nat.zero_add]

/-- What is displayed at a level are the shares of its live orders. -/
theorem BookEngine.Inv.toNat_displayed {eng : BookEngine RefMap} (h : eng.Inv) (locate : UInt16)
    (s : Side) (price : UInt32) :
    (FillEngine.displayed (eng.books locate) s.code price).toNat
      = eng.refs.live.sharesAt locate s price := by
  have htracks := h.tracks locate
  rw [← htracks.shares]
  unfold bookOf at htracks ⊢
  cases hbook : eng.books locate with
  | none => cases s <;> rfl
  | some b =>
    rw [hbook, Option.getD_some] at htracks
    rw [Option.getD_some]
    -- beyond the last price nothing is displayed and nothing rests
    have hout : b.maxPrice < price → (b.levels s price).totalShares = 0 := fun hlt => by
      rw [htracks.wellFormed.outside s price (Or.inr hlt)]
    cases s with
    | buy =>
      show (if price ≤ b.maxPrice then (b.bid price).totalShares else 0).toNat = _
      split
      · rfl
      · rw [hout (UInt32.not_le.mp ‹_›)]
    | sell =>
      show (if price ≤ b.maxPrice then (b.ask price).totalShares else 0).toNat = _
      split
      · rfl
      · rw [hout (UInt32.not_le.mp ‹_›)]

/-! ## Runs -/

/-- The reference a message brings. -/
def DecodedMessage.newRef (m : DecodedMessage) : Option UInt64 :=
  match m.type with
  | .addOrder | .addOrderMPID => some m.orderRef
  | .orderReplace => some m.newOrderRef
  | _ => none

namespace SimOp

/-- The market reference a step brings. -/
def newRef : SimOp → Option UInt64
  | .market m => m.newRef
  | _ => none

end SimOp

namespace FillSim

/-- Every step of the run meets the condition in the state it starts from. -/
def Along (P : FillSim → SimOp → Prop) : FillSim → List SimOp → Prop
  | _, [] => True
  | s, op :: ops => P s op ∧ Along P (s.step op) ops

instance decidableAlong {P : FillSim → SimOp → Prop} [h : ∀ s op, Decidable (P s op)] :
    ∀ s ops, Decidable (Along P s ops)
  | _, [] => isTrue trivial
  | s, op :: ops =>
    haveI := decidableAlong (h := h) (s.step op) ops
    inferInstanceAs (Decidable (P s op ∧ Along P (s.step op) ops))

/-- A market message is applied by the book engine. -/
def Accepted (s : FillSim) : SimOp → Prop
  | .market m => (s.eng.next m).lastStatus = .applied
  | _ => True

instance (s : FillSim) (op : SimOp) : Decidable (s.Accepted op) := by
  unfold Accepted
  split <;> infer_instance

/-- The shares a new order counts ahead of it fit its counter. -/
def SnapshotFits (s : FillSim) : SimOp → Prop
  | .submit side price _ _ =>
    (FillEngine.displayed (s.eng.books s.fe.locate) side.code price).toNat
      + levelShares s.fe.openOrders side.code price < 2 ^ 64
  | _ => True

instance (s : FillSim) (op : SimOp) : Decidable (s.SnapshotFits op) := by
  unfold SnapshotFits
  split <;> infer_instance

/-- The market shares ahead of an own order. -/
def marketAhead (s : FillSim) (o : OpenOrder) : ℕ :=
  s.eng.refs.live.marketAhead s.fe.locate o

/-- The invariant of runs on an accepted stream with growing references. -/
structure QueueInv (s : FillSim) : Prop extends s.Inv where
  live_le : ∀ ref v, s.eng.refs.find ref = some v → ref ≤ s.fe.maxMarketRef
  watermark_le : ∀ o ∈ s.fe.openOrders, o.watermark ≤ s.fe.maxMarketRef
  seqs : ∃ k ≤ s.issued.length, s.fe.nextSeq = UInt64.ofNat k
    ∧ ∀ o ∈ s.fe.openOrders, o.seq.toNat < k
  exact : QueuesExact (fun _ => s.marketAhead) s.fe.openOrders

theorem queueInv_new (priceLevels : UInt32) (capacity : ℕ) (locate : UInt16) :
    (new priceLevels capacity locate).QueueInv where
  toInv := inv_new priceLevels capacity locate
  live_le _ _ h := by cases h
  watermark_le _ ho := absurd ho List.not_mem_nil
  seqs := ⟨0, Nat.le_refl 0, rfl, fun _ ho => absurd ho List.not_mem_nil⟩
  exact i o ho := by
    have : ([] : List OpenOrder)[i]? = some o := ho
    simp at this

/-! ### Submitting -/

theorem QueueInv.submit {s : FillSim} (h : s.QueueInv) (hlt : s.issued.length < 2 ^ 64)
    (side : Side) (price shares : UInt32) (ts : UInt64)
    (hfits : s.SnapshotFits (.submit side price shares ts)) :
    (s.step (.submit side price shares ts)).QueueInv := by
  have hinv := (h.toInv.submit hlt side price shares ts).1
  obtain ⟨fe, taken, left, hsub, heq⟩ := step_submit s h.toSound side price shares ts
  rw [heq] at hinv ⊢
  obtain ⟨k, hk, hnext, hseqs⟩ := h.seqs
  have hlen : (s.issued ++ [(⟨s.fe.nextRef, side, price, shares⟩ : Issue)]).length
      = s.issued.length + 1 := List.length_append
  have hmarket : ∀ o, s.eng.refs.live.marketAhead fe.locate o = s.marketAhead o := fun o => by
    rw [hsub.locate, marketAhead]
  rcases hsub.rests with ⟨-, hopen, hseq⟩ | ⟨-, hseq, hopen⟩
  · refine ⟨hinv, ?_, ?_, ⟨k, ?_, ?_, ?_⟩, ?_⟩
    · exact fun ref v hv => hsub.maxMarketRef ▸ h.live_le ref v hv
    · exact fun o ho => hsub.maxMarketRef ▸ h.watermark_le o (hopen ▸ ho)
    · exact (Nat.le_succ_of_le hk).trans hlen.ge
    · exact hseq.trans hnext
    · exact fun o ho => hseqs o (hopen ▸ ho)
    · show QueuesExact (fun _ o => s.eng.refs.live.marketAhead fe.locate o) fe.openOrders
      simp only [hmarket, hopen]
      exact h.exact
  · have hseq' : s.fe.nextSeq.toNat = k := by
      rw [hnext, UInt64.toNat_ofNat_of_lt' (by show k < 2 ^ 64; omega)]
    refine ⟨hinv, ?_, fun o ho => ?_, ⟨k + 1, ?_, ?_, fun o ho => ?_⟩, ?_⟩
    · exact fun ref v hv => hsub.maxMarketRef ▸ h.live_le ref v hv
    · show o.watermark ≤ fe.maxMarketRef
      rw [hsub.maxMarketRef]
      rw [hopen] at ho
      rcases List.mem_append.mp ho with ho | ho
      · exact h.watermark_le o ho
      · rw [List.mem_singleton.mp ho]
        exact UInt64.le_refl _
    · exact (Nat.succ_le_succ hk).trans hlen.ge
    · show fe.nextSeq = _
      rw [hseq, hnext, UInt64.ofNat_add]
      rfl
    · rw [hopen] at ho
      rcases List.mem_append.mp ho with ho | ho
      · exact Nat.lt_succ_of_lt (hseqs o ho)
      · rw [List.mem_singleton.mp ho]
        exact Nat.lt_succ_of_le hseq'.le
    · show QueuesExact (fun _ o => s.eng.refs.live.marketAhead fe.locate o) fe.openOrders
      simp only [hmarket, hopen]
      have hlast : ∀ p ∈ s.fe.openOrders, p.seq < s.fe.nextSeq := fun p hp => by
        rw [UInt64.lt_iff_toNat_lt, hseq']
        exact hseqs p hp
      -- the snapshot fits, so it is what is displayed and what is open at the level
      refine h.exact.submit hlast ?_
      show (s.fe.queueSnapshot _ side.code price).toNat = _
      rw [FillEngine.toNat_queueSnapshot, Nat.mod_eq_of_lt hfits, ownAhead_newest hlast,
        h.eng.toNat_displayed]
      refine congrArg (· + _) (Eq.symm ?_)
      refine LiveOrders.marketAhead_eq_sharesAt (s := side) ?_ rfl
      exact h.live_le

/-! ### Cancelling -/

theorem QueueInv.cancel {s : FillSim} (h : s.QueueInv) (ref : UInt64) :
    (s.step (.cancel ref)).QueueInv := by
  have hinv := (h.toInv.cancel ref).1
  rcases step_cancel s h.toSound ref with ⟨-, heq⟩ | ⟨o, before, behind, hopen, -, heq⟩
  · rw [heq]
    exact h
  rw [heq] at hinv ⊢
  have hold : ∀ o' ∈ reduceLater (before ++ behind) o o.remaining,
      ∃ p ∈ s.fe.openOrders, Evolves p o' := by
    intro o' ho'
    obtain ⟨p, hp, rfl⟩ := List.mem_map.mp ho'
    refine ⟨p, ?_, OpenOrder.evolves_reduceBehind o o.remaining p⟩
    rw [hopen]
    rcases List.mem_append.mp hp with hb | hb
    · exact List.mem_append_left _ hb
    · exact List.mem_append_right _ (List.mem_cons_of_mem _ hb)
  obtain ⟨k, hk, hnext, hseqs⟩ := h.seqs
  refine ⟨hinv, h.live_le, fun o' ho' => ?_, ⟨k, hk, hnext, fun o' ho' => ?_⟩, ?_⟩
  · obtain ⟨p, hp, hev⟩ := hold o' ho'
    exact hev.watermark ▸ h.watermark_le p hp
  · obtain ⟨p, hp, hev⟩ := hold o' ho'
    exact hev.seq ▸ hseqs p hp
  · have hexact := h.exact
    rw [hopen] at hexact
    exact hexact.cancel (LiveOrders.marketAhead_evolves _ _)

/-! ### Market messages -/

/-- What an accepted market message does to the queues, next to what it does to the book. -/
structure QueuesFollow (s : FillSim) (m : DecodedMessage) (fe : FillEngine)
    (eng : BookEngine RefMap) : Prop where
  exact : QueuesExact (fun _ => eng.refs.live.marketAhead s.fe.locate) fe.openOrders
  live_le : ∀ ref v, eng.refs.find ref = some v → ref ≤ fe.maxMarketRef
  maxMarketRef : fe.maxMarketRef = m.newRef.getD s.fe.maxMarketRef

/-- A market order loses shares, and the fill engine is told in its own way. -/
theorem QueueInv.reduced {s : FillSim} (h : s.QueueInv) {ref : UInt64} {v : Value} {qty : UInt32}
    (fe : FillEngine) (hv : s.eng.refs.find ref = some v) (hle : qty ≤ v.shares)
    (hother : v.locate ≠ s.fe.locate → fe = s.fe)
    (hours : v.locate = s.fe.locate → ∀ market', (∀ o o', Evolves o o' → market' o' = market' o) →
      Leaves s.marketAhead market' ref v.side v.price qty →
      QueuesExact (fun _ => market') fe.openOrders) :
    QueuesExact (fun _ => (reduceLive s.eng.refs.live ref v qty).marketAhead s.fe.locate)
        fe.openOrders
      ∧ ∀ r w, (reduceLive s.eng.refs.live ref v qty).lookup r = some w →
        r ≤ s.fe.maxMarketRef := by
  refine ⟨?_, fun r w hw => ?_⟩
  · by_cases hloc : v.locate = s.fe.locate
    · exact hours hloc _ (LiveOrders.marketAhead_evolves _ _)
        (LiveOrders.leaves_reduceLive hv hle hloc)
    · rw [hother hloc]
      exact h.exact.congr fun _ o _ _ =>
        LiveOrders.marketAhead_reduceLive_of_ne hv hle hloc o
  · obtain ⟨w', hw'⟩ := LiveOrders.lookup_reduceLive hv hw
    exact h.live_le r w' hw'

/-- A new market order, newer than all before, is ahead of no open order. -/
theorem queuesExact_insert_newer {live : LiveOrders} {locate : UInt16} {orders : List OpenOrder}
    {ref : UInt64} (h : QueuesExact (fun _ => live.marketAhead locate) orders) (hnew : ref ∉ live)
    (v : Value) (hnewer : ∀ o ∈ orders, o.watermark < ref) :
    QueuesExact (fun _ => LiveOrders.marketAhead (live.insert ref v) locate) orders :=
  h.congr fun _ o ho _ => LiveOrders.marketAhead_insert_newer hnew v
    (hnewer o (List.mem_of_getElem? ho))

/-- What an accepted message does to the queues, by its outcome in the book engine. -/
theorem QueueInv.follow {s : FillSim} (h : s.QueueInv) {m : DecodedMessage}
    {eng : BookEngine RefMap} {out : ExecResult} (hout : Outcome s.eng m eng out)
    (happlied : eng.lastStatus = .applied)
    (hnewer : ∀ r, m.newRef = some r → r ≠ 0 → s.fe.maxMarketRef < r) :
    QueuesFollow s m (s.fe.onMarketMessage s.eng m) eng := by
  cases hout with
  | rejected reason same =>
    rw [happlied] at reason
    cases reason
  | printed ht hs same =>
    rw [s.fe.onMarketMessage_other (Or.inl ht)]
    refine ⟨same.refs ▸ h.exact, same.refs ▸ h.live_le, ?_⟩
    rw [DecodedMessage.newRef, ht]
    rfl
  | system ht hs same =>
    rw [s.fe.onMarketMessage_other (Or.inr (Or.inl ht))]
    refine ⟨same.refs ▸ h.exact, same.refs ▸ h.live_le, ?_⟩
    rw [DecodedMessage.newRef, ht]
    rfl
  | added side ht hside href hloc hprice hlt hsh hnew hroom hcan upd =>
    have hbrings : m.newRef = some m.orderRef := by
      unfold DecodedMessage.newRef
      rcases ht with ht | ht
      · rw [ht]
      · rw [ht]
    have hgt := hnewer m.orderRef hbrings href
    have hmax : (s.fe.raiseWatermark m.orderRef).maxMarketRef = m.orderRef := if_pos hgt
    rw [s.fe.onMarketMessage_add ht]
    refine ⟨?_, fun ref v hv => ?_, hmax.trans (by rw [hbrings]; rfl)⟩
    · rw [upd.live_eq]
      exact queuesExact_insert_newer h.exact (RefMap.notMem_live_of_find hnew) _ fun o ho =>
        UInt64.lt_of_le_of_lt (h.watermark_le o ho) hgt
    · rw [RefMap.find, upd.live_eq] at hv
      rw [hmax]
      by_cases heq : ref = m.orderRef
      · exact heq ▸ UInt64.le_refl _
      · rw [Finmap.lookup_insert_of_ne _ heq] at hv
        exact UInt64.le_trans (h.live_le ref v hv) (UInt64.le_of_lt hgt)
  | reduced v side ht hv hside hsh hle upd =>
    have hq : umin m.shares v.shares = m.shares := by
      rw [← UInt32.toNat_inj, toNat_umin]
      have := UInt32.le_iff_toNat_le.mp hle
      omega
    have hnone : m.newRef = none := by
      unfold DecodedMessage.newRef
      rcases ht with (ht | ht) | ht
      · rw [ht]
      · rw [ht]
      · rw [ht]
    have hmax : (s.fe.onMarketMessage s.eng m).maxMarketRef = s.fe.maxMarketRef := by
      rcases ht with ht | ht
      · rw [s.fe.onMarketMessage_exec ht hv]
        split <;> rfl
      · rw [s.fe.onMarketMessage_cancel ht hv]
        split <;> rfl
    have hother : v.locate ≠ s.fe.locate → s.fe.onMarketMessage s.eng m = s.fe := fun hloc => by
      rcases ht with ht | ht
      · rw [s.fe.onMarketMessage_exec ht hv, if_pos hloc]
      · rw [s.fe.onMarketMessage_cancel ht hv, if_pos hloc]
    obtain ⟨hexact, hlive⟩ := h.reduced _ hv hle hother fun hloc market' hst hl => by
      rw [← hq] at hl
      rcases ht with ht | ht
      · rw [s.fe.onMarketMessage_exec ht hv, if_neg (not_not.mpr hloc)]
        exact (FillEngine.handleExec_exact h.exact (LiveOrders.marketAhead_evolves _ _) hst hl
          m.timestamp).1
      · rw [s.fe.onMarketMessage_cancel ht hv, if_neg (not_not.mpr hloc)]
        exact FillEngine.handleRemove_exact h.exact hst hl
    rw [← upd.live_eq] at hexact hlive
    exact ⟨hexact, hmax ▸ hlive, hmax.trans (by rw [hnone]; rfl)⟩
  | deleted v side ht hv hside upd =>
    have hfe : s.fe.onMarketMessage s.eng m = if v.locate ≠ s.fe.locate then s.fe
        else s.fe.handleRemove m.orderRef v.side v.price v.shares :=
      s.fe.onMarketMessage_delete ht hv
    have hmax : (s.fe.onMarketMessage s.eng m).maxMarketRef = s.fe.maxMarketRef := by
      rw [hfe]
      split <;> rfl
    obtain ⟨hexact, hlive⟩ := h.reduced (s.fe.onMarketMessage s.eng m) hv (UInt32.le_refl _)
      (fun hloc => hfe.trans (if_pos hloc))
      fun hloc market' hst hl => by
        rw [hfe, if_neg (not_not.mpr hloc)]
        exact FillEngine.handleRemove_exact h.exact hst hl
    rw [show reduceLive s.eng.refs.live m.orderRef v v.shares = eng.refs.live from
      (if_pos rfl).trans upd.live_eq.symm] at hexact hlive
    refine ⟨hexact, hmax ▸ hlive, hmax.trans ?_⟩
    rw [DecodedMessage.newRef, ht]
    rfl
  | replaced v side ht hv hside href hne hprice hlt hsh hnew hcan upd =>
    have hbrings : m.newRef = some m.newOrderRef := by rw [DecodedMessage.newRef, ht]
    have hgt := hnewer m.newOrderRef hbrings href
    -- the old order leaves, and only then the watermark rises
    obtain ⟨fe, hfe⟩ : ∃ fe, fe = if v.locate ≠ s.fe.locate then s.fe
      else s.fe.handleRemove m.orderRef v.side v.price v.shares := ⟨_, rfl⟩
    obtain ⟨hexact, hlive⟩ := h.reduced fe hv (UInt32.le_refl _)
      (fun hloc => hfe.trans (if_pos hloc))
      fun hloc market' hst hl => by
        rw [hfe, if_neg (not_not.mpr hloc)]
        exact FillEngine.handleRemove_exact h.exact hst hl
    rw [show reduceLive s.eng.refs.live m.orderRef v v.shares = s.eng.refs.live.erase m.orderRef
      from if_pos rfl] at hexact hlive
    have hstep : FillEngine.MarketStep s.fe fe := by
      rw [hfe]
      split
      · exact FillEngine.MarketStep.refl s.fe
      · exact FillEngine.handleRemove_step ..
    have hfemax : fe.maxMarketRef = s.fe.maxMarketRef := by
      rw [hfe]
      split <;> rfl
    have hmax : (fe.raiseWatermark m.newOrderRef).maxMarketRef = m.newOrderRef :=
      if_pos (hfemax ▸ hgt)
    have hfresh : m.newOrderRef ∉ s.eng.refs.live.erase m.orderRef := fun hmem =>
      RefMap.notMem_live_of_find hnew (Finmap.mem_erase.mp hmem).2
    rw [s.fe.onMarketMessage_replace ht hv, ← hfe]
    refine ⟨?_, fun ref w hw => ?_, hmax.trans (by rw [hbrings]; rfl)⟩
    · rw [upd.live_eq]
      refine queuesExact_insert_newer hexact hfresh _ fun o ho => ?_
      obtain ⟨p, hp, hev⟩ := (marketStep_opened hstep).2 o ho
      exact hev.watermark ▸ UInt64.lt_of_le_of_lt (h.watermark_le p hp) hgt
    · rw [RefMap.find, upd.live_eq] at hw
      rw [hmax]
      by_cases heq : ref = m.newOrderRef
      · exact heq ▸ UInt64.le_refl _
      · rw [Finmap.lookup_insert_of_ne _ heq] at hw
        exact UInt64.le_trans (hlive ref w hw) (UInt64.le_of_lt hgt)

/-- **A market message** the book applies, with a reference newer than all before. -/
theorem QueueInv.market {s : FillSim} (h : s.QueueInv) {m : DecodedMessage}
    (happlied : s.Accepted (.market m))
    (hnewer : ∀ r, m.newRef = some r → r ≠ 0 → s.fe.maxMarketRef < r) :
    (s.step (.market m)).QueueInv
      ∧ (s.step (.market m)).fe.maxMarketRef = m.newRef.getD s.fe.maxMarketRef := by
  have hfollow := h.follow (BookEngine.step_outcome h.eng m) happlied hnewer
  have hstep := s.fe.onMarketMessage_step s.eng m
  have hold := (marketStep_opened hstep).2
  obtain ⟨k, hk, hnext, hseqs⟩ := h.seqs
  refine ⟨⟨(h.toInv.market m).1, hfollow.live_le, fun o' ho' => ?_,
    ⟨k, hk, hstep.nextSeq.trans hnext, fun o' ho' => ?_⟩, ?_⟩, hfollow.maxMarketRef⟩
  · obtain ⟨o, ho, hev⟩ := hold o' ho'
    exact hev.watermark ▸ UInt64.le_trans (h.watermark_le o ho) hstep.maxMarketRef
  · obtain ⟨o, ho, hev⟩ := hold o' ho'
    exact hev.seq ▸ hseqs o ho
  · show QueuesExact (fun _ => (s.eng.next m).refs.live.marketAhead
      (s.fe.onMarketMessage s.eng m).locate) _
    rw [hstep.locate]
    exact hfollow.exact

/-- An execution of a market order fills no own order it was ahead of: the one is not at a better
price, and it came later. -/
theorem QueueInv.exec_fills_none {s : FillSim} (h : s.QueueInv) {m : DecodedMessage} {v : Value}
    (ht : m.type.IsExec) (hv : s.eng.refs.find m.orderRef = some v) {o : OpenOrder}
    (ho : o ∈ s.fe.openOrders) (hahead : v.AheadOf s.fe.locate m.orderRef o) :
    ∀ f ∈ (s.fe.onMarketMessage s.eng m).fills, f.ourRef ≠ o.ref := by
  intro f hf href
  obtain ⟨hloc, hside, hprice, hle⟩ := hahead
  have hexec : s.fe.onMarketMessage s.eng m
      = s.fe.handleExec m.orderRef v.side v.price (umin m.shares v.shares) m.timestamp :=
    (s.fe.onMarketMessage_exec ht hv).trans (if_neg (not_not.mpr hloc))
  obtain ⟨-, new, hfills, hnew⟩ := FillEngine.handleExec_exact h.exact
    (LiveOrders.marketAhead_evolves _ _) (LiveOrders.marketAhead_evolves _ _)
    (LiveOrders.leaves_reduceLive hv (umin_le_right m.shares v.shares) hloc) m.timestamp
  rw [hexec, hfills, h.taken, List.nil_append] at hf
  obtain ⟨p, hp, hfp, hmay⟩ := hnew f hf
  -- open orders have distinct references
  have hsame : p = o := List.inj_on_of_nodup_map (List.nodup_append.mp h.nodup).2.1 hp ho
    (hfp.symm.trans href)
  subst hsame
  rcases hmay.2 with hsup | ⟨-, hlt⟩
  · unfold superior at hsup
    rw [hprice] at hsup
    split at hsup
    · exact UInt32.lt_irrefl _ (of_decide_eq_true hsup)
    · exact UInt32.lt_irrefl _ (of_decide_eq_true hsup)
  · exact UInt64.not_le.mpr hlt hle

/-! ### Whole runs -/

theorem QueueInv.step {s : FillSim} (h : s.QueueInv) (op : SimOp)
    (hle : s.issued.length + submits [op] ≤ 2 ^ 64) (haccepted : s.Accepted op)
    (hfits : s.SnapshotFits op)
    (hnewer : ∀ r, op.newRef = some r → r ≠ 0 → s.fe.maxMarketRef < r) :
    (s.step op).QueueInv ∧ (s.step op).fe.maxMarketRef = op.newRef.getD s.fe.maxMarketRef := by
  cases op with
  | submit side price shares ts =>
    refine ⟨h.submit hle side price shares ts hfits, ?_⟩
    obtain ⟨fe, taken, left, hsub, heq⟩ := step_submit s h.toSound side price shares ts
    rw [heq]
    exact hsub.maxMarketRef
  | cancel ref =>
    refine ⟨h.cancel ref, ?_⟩
    show (s.fe.cancel ref).2.maxMarketRef = s.fe.maxMarketRef
    unfold FillEngine.cancel
    split <;> rfl
  | market m => exact h.market haccepted hnewer

/-- Induction on the steps; the references still to come are newer than those there were. -/
theorem QueueInv.run {s : FillSim} (h : s.QueueInv) (ops : List SimOp)
    (hle : s.issued.length + submits ops ≤ 2 ^ 64) (haccepted : Along Accepted s ops)
    (hfits : Along SnapshotFits s ops) (hgrow : (ops.filterMap SimOp.newRef).Pairwise (· < ·))
    (hnewer : ∀ r ∈ ops.filterMap SimOp.newRef, r ≠ 0 → s.fe.maxMarketRef < r) :
    (s.run ops).QueueInv := by
  induction ops generalizing s with
  | nil => exact h
  | cons op ops ih =>
    rw [submits_cons] at hle
    rw [List.filterMap_cons] at hgrow hnewer
    obtain ⟨hinv, hmax⟩ := h.step op (by omega) haccepted.1 hfits.1 fun r hr h0 => by
      rw [hr] at hnewer
      exact hnewer r List.mem_cons_self h0
    refine ih hinv (by rw [length_issued_step]; omega) haccepted.2 hfits.2 ?_ fun r hr h0 => ?_
    · cases hop : op.newRef with
      | none => rwa [hop] at hgrow
      | some r => rw [hop] at hgrow; exact (List.pairwise_cons.mp hgrow).2
    · rw [hmax]
      cases hop : op.newRef with
      | none => rw [hop] at hnewer; exact hnewer r hr h0
      | some r' => rw [hop] at hgrow; exact (List.pairwise_cons.mp hgrow).1 r hr

/-- **Exact queues.** In every run whose market messages are all applied and bring growing
references, while references last and snapshots fit: the counter of every open order is what is
ahead of it, in the market and of our own; and no execution of a market order ahead of an own
order fills it. -/
theorem run_queues_exact (priceLevels : UInt32) (capacity : ℕ) (locate : UInt16)
    (ops : List SimOp) (hsubmits : submits ops ≤ 2 ^ 64)
    (haccepted : Along Accepted (new priceLevels capacity locate) ops)
    (hgrow : (ops.filterMap SimOp.newRef).Pairwise (· < ·))
    (hfits : Along SnapshotFits (new priceLevels capacity locate) ops) :
    let s := (new priceLevels capacity locate).run ops
    (∀ o ∈ s.fe.openOrders,
        o.queueAhead.toNat = s.marketAhead o + ownAhead s.fe.openOrders o)
      ∧ ∀ m v, m.type.IsExec → s.eng.refs.find m.orderRef = some v → ∀ o ∈ s.fe.openOrders,
          v.AheadOf s.fe.locate m.orderRef o →
          ∀ f ∈ (s.fe.onMarketMessage s.eng m).fills, f.ourRef ≠ o.ref := by
  intro s
  have h : s.QueueInv := (queueInv_new priceLevels capacity locate).run ops
    (by show 0 + submits ops ≤ 2 ^ 64; omega) haccepted hfits hgrow
    fun r _ h0 => UInt64.pos_iff_ne_zero.mpr h0
  refine ⟨fun o ho => ?_, fun m v ht hv o ho hahead => h.exec_fills_none ht hv ho hahead⟩
  obtain ⟨i, hi⟩ := List.mem_iff_getElem?.mp ho
  exact h.exact i o hi (h.positive o ho)

/-- Two bids of ours behind 100 displayed, of which 40 trade. -/
theorem run_queues_exact_two :
    let add : DecodedMessage :=
      { type := .addOrder, orderRef := 10, stockLocate := 1, side := sideBuy, price := 5,
        shares := 100 }
    let exec : DecodedMessage := { type := .orderExecuted, orderRef := 10, shares := 40 }
    let s := (new 16 4 1).run
      [.market add, .submit .buy 5 30 1, .submit .buy 5 20 2, .market exec]
    s.fe.openOrders.map OpenOrder.queueAhead = [60, 90]
      ∧ ∀ o ∈ s.fe.openOrders,
          o.queueAhead.toNat = s.marketAhead o + ownAhead s.fe.openOrders o := by
  intro add exec s
  refine ⟨by decide, ?_⟩
  exact (run_queues_exact 16 4 1 [.market add, .submit .buy 5 30 1, .submit .buy 5 20 2,
    .market exec] (by decide) (by decide) (by decide) (by decide)).1

/-! ### A counter that does not fit -/

/-- What makes an order stand ahead of another. -/
def place (o : OpenOrder) : UInt64 × UInt8 × UInt32 × UInt32 :=
  (o.seq, o.side, o.price, o.remaining)

/-- The largest orders, all at one price. -/
def flood (n : ℕ) : List SimOp := List.replicate n (.submit .buy 1 0xFFFFFFFF 0)

/-- They rest one behind the other. Induction on their number. -/
theorem run_flood (n : ℕ) :
    ((new 16 4 1).run (flood n)).eng = (new 16 4 1).eng
      ∧ ((new 16 4 1).run (flood n)).fe.nextSeq = UInt64.ofNat n
      ∧ ((new 16 4 1).run (flood n)).fe.openOrders.map place
        = (List.range n).map fun i => (UInt64.ofNat i, sideBuy, 1, 0xFFFFFFFF) := by
  induction n with
  | zero => exact ⟨rfl, rfl, rfl⟩
  | succ n ih =>
    obtain ⟨heng, hseq, hopen⟩ := ih
    have hrun : (new 16 4 1).run (flood (n + 1))
        = ((new 16 4 1).run (flood n)).step (.submit .buy 1 0xFFFFFFFF 0) := by
      unfold run flood
      rw [List.replicate_succ', List.foldl_append]
      rfl
    generalize (new 16 4 1).run (flood n) = s at *
    have hnone : s.eng.books s.fe.locate = none := by rw [heng]; rfl
    have hstep : (s.step (.submit .buy 1 0xFFFFFFFF 0)).fe.openOrders = s.fe.openOrders ++
        [⟨s.fe.nextRef, sideBuy, 1, 0xFFFFFFFF, 0xFFFFFFFF, s.fe.queueSnapshot none sideBuy 1,
          s.fe.maxMarketRef, s.fe.nextSeq⟩] := by
      simp only [step, FillEngine.submitLimit, hnone, FillEngine.sweepBook, collect]
      rfl
    have hnext : (s.step (.submit .buy 1 0xFFFFFFFF 0)).fe.nextSeq = s.fe.nextSeq + 1 := by
      simp only [step, FillEngine.submitLimit, hnone, FillEngine.sweepBook, collect]
      rfl
    rw [hrun]
    refine ⟨heng, ?_, ?_⟩
    · rw [hnext, hseq, UInt64.ofNat_add]
      rfl
    · rw [hstep, List.map_append, hopen, List.range_succ, List.map_append, List.map_cons,
        List.map_nil, place, hseq]
      rfl

/-- The last of `k + 1` such orders has `k * (2 ^ 32 - 1)` shares ahead of it. -/
theorem ownAhead_flood {k : ℕ} (hk : k < 2 ^ 64) :
    ∃ o ∈ ((new 16 4 1).run (flood (k + 1))).fe.openOrders,
      k * 0xFFFFFFFF ≤ ownAhead ((new 16 4 1).run (flood (k + 1))).fe.openOrders o := by
  obtain ⟨-, -, hopen⟩ := run_flood (k + 1)
  generalize ((new 16 4 1).run (flood (k + 1))).fe.openOrders = orders at *
  rw [List.range_succ, List.map_append, List.map_cons, List.map_nil] at hopen
  obtain ⟨before, last, rfl, hbefore, hlast⟩ := List.map_eq_append_iff.mp hopen
  obtain ⟨o, rest, rfl, hplace, hnil⟩ := List.map_eq_cons_iff.mp hlast
  refine ⟨o, List.mem_append_right _ List.mem_cons_self, ?_⟩
  rw [ownAhead_append]
  refine Nat.le_trans ?_ (Nat.le_add_right _ _)
  -- all before it are ahead of it, with all their shares
  have hsum : ownAhead before o
      = ((before.map place).map fun t => if t.1 < o.seq ∧ t.2.1 = o.side ∧ t.2.2.1 = o.price then
          t.2.2.2.toNat else 0).sum := by
    rw [List.map_map]
    rfl
  obtain ⟨hseq, hside, hprice, -⟩ := by simpa [place] using hplace
  have hterm : ∀ i ∈ List.range k, 0xFFFFFFFF = if UInt64.ofNat i < o.seq ∧ sideBuy = o.side
      ∧ (1 : UInt32) = o.price then (0xFFFFFFFF : UInt32).toNat else 0 := by
    intro i hi
    have hi := List.mem_range.mp hi
    have hlt : UInt64.ofNat i < o.seq := by
      rw [hseq, UInt64.lt_iff_toNat_lt, UInt64.toNat_ofNat_of_lt' (hi.trans hk),
        UInt64.toNat_ofNat_of_lt' hk]
      exact hi
    rw [if_pos ⟨hlt, hside.symm, hprice.symm⟩]
    rfl
  refine le_of_eq ?_
  calc k * 0xFFFFFFFF = ((List.range k).map fun _ => 0xFFFFFFFF).sum := by simp
    _ = ((List.range k).map _).sum := congrArg List.sum (List.map_congr_left hterm)
    _ = ownAhead before o := by
      rw [hsum, hbefore, List.map_map]
      rfl

theorem accepted_flood (s : FillSim) (n : ℕ) : Along Accepted s (flood n) := by
  induction n generalizing s with
  | zero => exact trivial
  | succ n ih => exact ⟨trivial, ih _⟩

theorem newRef_flood (n : ℕ) : (flood n).filterMap SimOp.newRef = [] := by
  induction n with
  | zero => rfl
  | succ n ih => exact ih

/-- Once that many shares do not fit the counter, it is wrong. -/
theorem queues_inexact_of_le {n k : ℕ} (hn : n = k + 1) (hk : k < 2 ^ 64)
    (hwide : 2 ^ 64 ≤ k * 0xFFFFFFFF) :
    Along Accepted (new 16 4 1) (flood n)
      ∧ ((flood n).filterMap SimOp.newRef).Pairwise (· < ·)
      ∧ ∃ o ∈ ((new 16 4 1).run (flood n)).fe.openOrders,
          o.queueAhead.toNat ≠ ((new 16 4 1).run (flood n)).marketAhead o
            + ownAhead ((new 16 4 1).run (flood n)).fe.openOrders o := by
  subst hn
  obtain ⟨o, ho, hown⟩ := ownAhead_flood hk
  refine ⟨accepted_flood _ _, ?_, o, ho, fun heq => ?_⟩
  · rw [newRef_flood]
    exact List.Pairwise.nil
  · have := o.queueAhead.toNat_lt
    omega

/-- `2 ^ 32 + 3` orders of `2 ^ 32 - 1` shares, in an empty market: the last one's counter is not
what is ahead of it. -/
theorem queues_inexact :
    Along Accepted (new 16 4 1) (flood (2 ^ 32 + 3))
      ∧ ((flood (2 ^ 32 + 3)).filterMap SimOp.newRef).Pairwise (· < ·)
      ∧ ∃ o ∈ ((new 16 4 1).run (flood (2 ^ 32 + 3))).fe.openOrders,
          o.queueAhead.toNat ≠ ((new 16 4 1).run (flood (2 ^ 32 + 3))).marketAhead o
            + ownAhead ((new 16 4 1).run (flood (2 ^ 32 + 3))).fe.openOrders o :=
  queues_inexact_of_le (k := 2 ^ 32 + 2) (by decide) (by decide) (by decide)

end FillSim

end ItchOrderbook
