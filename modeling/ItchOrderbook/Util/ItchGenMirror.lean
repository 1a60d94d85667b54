import ItchOrderbook.Book.ThinnedReplay
import ItchOrderbook.Util.ItchGenEffect

/-!
# The book mirrors the generator

The live orders of the generator are those of the book that applies its messages (`Mirrors`,
`Effect.mirrors`). While no more than 4,294,967 references are given out, no level can overflow, so
a message of the generator has no reason to be rejected (`Effect.applied`).
-/

namespace ItchOrderbook

open BookEngine LiveOrders

/-- What the book keeps of a live order. -/
def LiveOrder.value (o : LiveOrder) : Value := ⟨o.price, o.shares, o.stockLocate, o.side⟩

/-- The orders by reference are the listed ones. -/
structure Mirrors (orders : UInt64 → Option Value) (live : List LiveOrder) : Prop where
  nodup : (live.map LiveOrder.ref).Nodup
  find : ∀ ref v, orders ref = some v ↔ ∃ o ∈ live, o.ref = ref ∧ o.value = v

namespace Mirrors

variable {orders : UInt64 → Option Value} {live live' : List LiveOrder} {o : LiveOrder}

theorem empty : Mirrors (fun _ => none) [] where
  nodup := List.nodup_nil
  find ref v := by simp

theorem of_mem (h : Mirrors orders live) (ho : o ∈ live) : orders o.ref = some o.value :=
  (h.find _ _).mpr ⟨o, ho, rfl, rfl⟩

/-- Where an order stands in the list does not matter. -/
theorem perm (h : Mirrors orders live) (hp : live.Perm live') : Mirrors orders live' where
  nodup := (hp.map _).nodup_iff.mp h.nodup
  find ref v := by
    rw [h.find]
    exact exists_congr fun o => and_congr_left' hp.mem_iff

/-- One order more. -/
theorem cons (h : Mirrors orders live) (hnone : orders o.ref = none) :
    Mirrors (fun ref => if ref = o.ref then some o.value else orders ref) (o :: live) where
  nodup := by
    refine List.nodup_cons.mpr ⟨fun hmem => ?_, h.nodup⟩
    obtain ⟨o', ho', href⟩ := List.mem_map.mp hmem
    have hsome := h.of_mem ho'
    rw [href, hnone] at hsome
    cases hsome
  find ref v := by
    by_cases hr : ref = o.ref
    · rw [if_pos hr, Option.some_inj]
      refine ⟨fun hv => ⟨o, List.mem_cons_self, hr.symm, hv⟩, ?_⟩
      rintro ⟨o', ho', href, rfl⟩
      rcases List.mem_cons.mp ho' with rfl | ho'
      · rfl
      · have hsome := h.of_mem ho'
        rw [href, hr, hnone] at hsome
        cases hsome
    · rw [if_neg hr, h.find]
      refine ⟨fun ⟨o', ho', hv⟩ => ⟨o', List.mem_cons_of_mem _ ho', hv⟩, ?_⟩
      rintro ⟨o', ho', href, hv⟩
      rcases List.mem_cons.mp ho' with rfl | ho'
      · exact absurd href.symm hr
      · exact ⟨o', ho', href, hv⟩

/-- The first order gone. -/
theorem tail (h : Mirrors orders (o :: live)) :
    Mirrors (fun ref => if ref = o.ref then none else orders ref) live := by
  obtain ⟨hout, hnodup⟩ := List.nodup_cons.mp h.nodup
  refine ⟨hnodup, fun ref v => ?_⟩
  by_cases hr : ref = o.ref
  · rw [if_pos hr]
    constructor
    · intro hv
      cases hv
    rintro ⟨o', ho', href, -⟩
    exact absurd (List.mem_map.mpr ⟨o', ho', href.trans hr⟩) hout
  · rw [if_neg hr, h.find]
    constructor
    · rintro ⟨o', ho', href, hv⟩
      rcases List.mem_cons.mp ho' with rfl | ho'
      · exact absurd href.symm hr
      · exact ⟨o', ho', href, hv⟩
    · rintro ⟨o', ho', hv⟩
      exact ⟨o', List.mem_cons_of_mem _ ho', hv⟩

end Mirrors

/-! ## One message -/

section

variable {numSymbols : ℕ} {live live' : List LiveOrder} {next next' : UInt64} {m : DecodedMessage}
  {orders : UInt64 → Option Value}

/-- The message does to the orders what the generator did to its list. -/
theorem Effect.mirrors (heff : Effect numSymbols live next m live' next')
    (h : Mirrors orders live) (hfree : orders next = none) :
    Mirrors (ordersAfter m orders) live' := by
  cases heff with
  | other ht =>
    rw [ordersAfter_other]
    · exact h
    · rcases ht with ht | ht <;> rw [ht] <;> decide
    · intro hn
      exact ht.elim (names_only hn).2.2.1 (names_only hn).2.1
  | add o ht href _ hm =>
    obtain ⟨hr, hloc, hs, hp, hsh⟩ := hm
    rw [ordersAfter_add _ ht, hr, hloc, hs, hp, hsh]
    exact (h.cons (href ▸ hfree)).perm (List.perm_append_singleton o live).symm
  | reduce o others hlive ht href _ hlt hlive' =>
    have hmine := h.perm hlive
    have hne : o.value.shares ≠ m.shares := fun e => by
      rw [show o.shares = m.shares from e] at hlt
      exact UInt32.lt_irrefl _ hlt
    have hleft := hmine.tail.cons (o := { o with shares := o.shares - m.shares }) (if_pos rfl)
    have heq : ordersAfter m orders = fun ref =>
        if ref = o.ref then some (LiveOrder.value { o with shares := o.shares - m.shares })
        else if ref = o.ref then none else orders ref := by
      rw [ordersAfter_reduce _ ht, href]
      funext ref
      by_cases hr : ref = o.ref
      · rw [if_pos hr, if_pos hr, hr, hmine.of_mem List.mem_cons_self, Option.bind_some, if_neg hne]
        rfl
      · rw [if_neg hr, if_neg hr, if_neg hr]
    rw [heq]
    exact hleft.perm hlive'.symm
  | leave o hlive hend href =>
    have hmine := h.perm hlive
    have heq : ordersAfter m orders = fun ref => if ref = o.ref then none else orders ref := by
      rcases hend with ht | ⟨ht, hsh⟩
      · rw [ordersAfter_delete _ ht, href]
      · rw [ordersAfter_reduce _ ht, href]
        funext ref
        by_cases hr : ref = o.ref
        · have hall : o.value.shares = m.shares := hsh.symm
          rw [if_pos hr, if_pos hr, hr, hmine.of_mem List.mem_cons_self, Option.bind_some,
            if_pos hall]
        · rw [if_neg hr, if_neg hr]
    rw [heq]
    exact hmine.tail
  | replace o o' others hlive ht href href' _ hsame hm hlive' =>
    obtain ⟨hnew, hp, hsh⟩ := hm
    have hmine := h.perm hlive
    have hold := hmine.of_mem List.mem_cons_self
    have hne : o'.ref ≠ o.ref := fun e => by
      rw [← e, href', hfree] at hold
      cases hold
    have hleft := hmine.tail.cons (o := o') (by rw [if_neg hne, href', hfree])
    have heq : ordersAfter m orders = fun ref =>
        if ref = o'.ref then some o'.value else if ref = o.ref then none else orders ref := by
      rw [ordersAfter_replace _ ht, href, hnew, hp, hsh, hold, Option.map_some]
      have hvalue : o'.value = ⟨o'.price, o'.shares, o.value.locate, o.value.side⟩ := by
        rw [LiveOrder.value, hsame.1, hsame.2]
        rfl
      rw [hvalue]
    rw [heq]
    exact hleft.perm hlive'.symm

end

/-! ## What the generator has given out -/

/-- After at most `k` references: the live orders have different ones of them, and are what a book
takes. -/
structure Counted (numSymbols k : ℕ) (live : List LiveOrder) (next : UInt64) : Prop where
  next_pos : 0 < next.toNat
  next_le : next.toNat ≤ k + 1
  length : live.length < next.toNat
  refs : ∀ o ∈ live, 0 < o.ref.toNat ∧ o.ref.toNat < next.toNat
  quoted : ∀ o ∈ live, o.Quoted numSymbols

section

variable {numSymbols k : ℕ} {live live' : List LiveOrder} {next next' : UInt64}
  {m : DecodedMessage} {orders : UInt64 → Option Value}

theorem counted_new : Counted numSymbols 0 [] 1 where
  next_pos := by decide
  next_le := by decide
  length := by decide
  refs o ho := absurd ho List.not_mem_nil
  quoted o ho := absurd ho List.not_mem_nil

/-- The next reference is free. -/
theorem Counted.free (h : Counted numSymbols k live next) (hm : Mirrors orders live) :
    orders next = none := by
  cases ho : orders next with
  | none => rfl
  | some v =>
    obtain ⟨o, hmem, href, -⟩ := (hm.find _ _).mp ho
    have hlt := (h.refs o hmem).2
    rw [href] at hlt
    exact absurd hlt (Nat.lt_irrefl _)

theorem LiveOrder.Quoted.reduce {o : LiveOrder} (hq : o.Quoted numSymbols) {shares : UInt32}
    (hlt : shares < o.shares) :
    LiveOrder.Quoted numSymbols { o with shares := o.shares - shares } := by
  have hlt' := UInt32.lt_iff_toNat_lt.mp hlt
  have hsub := UInt32.toNat_sub_of_le _ _ (UInt32.le_of_lt hlt)
  have hmax := hq.maxShares
  refine ⟨hq.side, hq.minPrice, hq.maxPrice, fun h0 => ?_, ?_, hq.locate_ne, hq.locate_le,
    hq.bid_below, hq.ask_above⟩
  · have h0' : (o.shares - shares).toNat = 0 := congrArg UInt32.toNat h0
    omega
  · show (o.shares - shares).toNat ≤ 1000
    omega

theorem Effect.quoted (heff : Effect numSymbols live next m live' next')
    (h : ∀ o ∈ live, o.Quoted numSymbols) : ∀ o ∈ live', o.Quoted numSymbols := by
  intro x hx
  cases heff with
  | other => exact h x hx
  | add o _ _ hq _ =>
    rcases List.mem_append.mp hx with hold | hnew
    · exact h x hold
    · rwa [List.mem_singleton.mp hnew]
  | reduce o others hlive _ _ _ hlt hlive' =>
    rcases List.mem_cons.mp (hlive'.mem_iff.mp hx) with rfl | hother
    · exact (h o (hlive.mem_iff.mpr List.mem_cons_self)).reduce hlt
    · exact h x (hlive.mem_iff.mpr (List.mem_cons_of_mem _ hother))
  | leave o hlive => exact h x (hlive.mem_iff.mpr (List.mem_cons_of_mem _ hx))
  | replace o o' others hlive _ _ _ hq _ _ hlive' =>
    rcases List.mem_cons.mp (hlive'.mem_iff.mp hx) with rfl | hother
    · exact hq
    · exact h x (hlive.mem_iff.mpr (List.mem_cons_of_mem _ hother))

/-- The first order comes with an Add. -/
theorem Effect.of_nil (heff : Effect numSymbols [] next m live' next') {o : LiveOrder}
    (ho : o ∈ live') : m.type.IsAdd ∧ m.stockLocate = o.stockLocate := by
  cases heff with
  | other => exact absurd ho List.not_mem_nil
  | add o' ht _ _ hm =>
    obtain rfl : o = o' := List.mem_singleton.mp ho
    exact ⟨ht, hm.2.1⟩
  | reduce o' others hlive => exact absurd (List.nil_perm.mp hlive) (List.cons_ne_nil _ _)
  | leave o' hlive => exact absurd (List.nil_perm.mp hlive) (List.cons_ne_nil _ _)
  | replace o' o'' others hlive => exact absurd (List.nil_perm.mp hlive) (List.cons_ne_nil _ _)

/-- One message gives out at most one reference. -/
theorem Effect.counted (heff : Effect numSymbols live next m live' next') (hk : k + 2 < 2 ^ 64)
    (h : Counted numSymbols k live next) : Counted numSymbols (k + 1) live' next' := by
  have hquoted' := heff.quoted h.quoted
  obtain ⟨hpos, hle, hlen, hrefs, -⟩ := h
  have hnext : (next + 1).toNat = next.toNat + 1 := by
    rw [UInt64.toNat_add, UInt64.toNat_one]
    omega
  cases heff with
  | other => exact ⟨hpos, by omega, hlen, hrefs, hquoted'⟩
  | add o _ href =>
    refine ⟨by omega, by omega, by simp; omega, fun x hx => ?_, hquoted'⟩
    rcases List.mem_append.mp hx with hold | hnew
    · have := hrefs x hold
      omega
    · rw [List.mem_singleton.mp hnew, href]
      omega
  | reduce o others hlive _ _ _ _ hlive' =>
    have hcount := hlive.length_eq.trans (List.length_cons (a := o))
    refine ⟨hpos, by omega, ?_, fun x hx => ?_, hquoted'⟩
    · rw [hlive'.length_eq, List.length_cons]
      omega
    · rcases List.mem_cons.mp (hlive'.mem_iff.mp hx) with rfl | hother
      · exact hrefs o (hlive.mem_iff.mpr List.mem_cons_self)
      · exact hrefs x (hlive.mem_iff.mpr (List.mem_cons_of_mem _ hother))
  | leave o hlive =>
    have hcount := hlive.length_eq.trans (List.length_cons (a := o))
    exact ⟨hpos, by omega, by omega,
      fun x hx => hrefs x (hlive.mem_iff.mpr (List.mem_cons_of_mem _ hx)), hquoted'⟩
  | replace o o' others hlive _ _ href' _ _ _ hlive' =>
    have hcount := hlive.length_eq.trans (List.length_cons (a := o))
    refine ⟨by omega, by omega, ?_, fun x hx => ?_, hquoted'⟩
    · rw [hlive'.length_eq, List.length_cons]
      omega
    · rcases List.mem_cons.mp (hlive'.mem_iff.mp hx) with rfl | hother
      · rw [href']
        omega
      · have := hrefs x (hlive.mem_iff.mpr (List.mem_cons_of_mem _ hother))
        omega

end

/-! ## The engine -/

/-- The engine of 1,000,000 levels holds the listed orders. -/
structure Mirrored (e : BookEngine RefMap) (live : List LiveOrder) : Prop where
  inv : e.Inv
  priceLevels : e.priceLevels = 1000000
  maxPrice : ∀ locate, (e.bookOf locate).maxPrice = 999999
  orders : Mirrors e.refs.find live

theorem mirrored_new (capacity : ℕ) : Mirrored (new 1000000 (RefMap.new capacity)) [] where
  inv := inv_new _ _
  priceLevels := rfl
  maxPrice _ := show (OrderBook.new 1000000).maxPrice = 999999 by decide
  orders := Mirrors.empty

namespace Mirrored

variable {numSymbols k : ℕ} {e : BookEngine RefMap} {live live' : List LiveOrder}
  {next next' : UInt64} {m : DecodedMessage}

/-- A message that is applied keeps the engine and the list together. -/
theorem step (h : Mirrored e live) (hc : Counted numSymbols k live next)
    (heff : Effect numSymbols live next m live' next') (hs : (e.next m).lastStatus = .applied) :
    Mirrored (e.next m) live' := by
  have hout := step_outcome h.inv m
  obtain ⟨hlevels, -, hmax⟩ := hout.shape
  refine ⟨h.inv.next m, hlevels.trans h.priceLevels, fun locate => (hmax locate).trans
    (h.maxPrice locate), ?_⟩
  rw [hout.find_after hs]
  exact heff.mirrors h.orders (hc.free h.orders)

theorem size_eq (h : Mirrored e live) : e.refs.live.size = live.length := by
  have hkeys : e.refs.live.keys = (live.map LiveOrder.ref).toFinset := by
    ext ref
    rw [Finmap.mem_keys, List.mem_toFinset, List.mem_map, Finmap.mem_iff]
    constructor
    · rintro ⟨v, hv⟩
      obtain ⟨o, ho, href, -⟩ := (h.orders.find ref v).mp hv
      exact ⟨o, ho, href⟩
    · rintro ⟨o, ho, rfl⟩
      exact ⟨o.value, h.orders.of_mem ho⟩
  rw [Finmap.size_eq_card_keys, hkeys, List.toFinset_card_of_nodup h.orders.nodup,
    List.length_map]

/-- A level has no more orders than there are. -/
theorem ordersAt_le (h : Mirrored e live) (locate : UInt16) (s : Side) (price : UInt32) :
    e.refs.live.ordersAt locate s price ≤ live.length := by
  rw [← h.size_eq, Finmap.size_eq_total]
  refine Finmap.total_le_total fun ref v _ => ?_
  split <;> omega

/-- Nor more shares than orders of 1000 make. -/
theorem sharesAt_le (h : Mirrored e live) (hq : ∀ o ∈ live, o.shares.toNat ≤ 1000)
    (locate : UInt16) (s : Side) (price : UInt32) :
    e.refs.live.sharesAt locate s price ≤ 1000 * live.length := by
  rw [← h.size_eq, ← Finmap.total_const]
  refine Finmap.total_le_total fun ref v hv => ?_
  obtain ⟨o, ho, -, rfl⟩ := (h.orders.find ref v).mp hv
  split
  · exact hq o ho
  · omega

/-- Orders that are all alike make one level. -/
theorem sharesAt_eq (h : Mirrored e live) {v : Value} (hall : ∀ o ∈ live, o.value = v) {s : Side}
    (hs : v.side = s.code) :
    e.refs.live.sharesAt v.locate s v.price = v.shares.toNat * live.length := by
  rw [← h.size_eq, ← Finmap.total_const]
  refine Finmap.total_congr fun ref w hw => ?_
  obtain ⟨o, ho, -, rfl⟩ := (h.orders.find ref w).mp hw
  rw [hall o ho]
  exact if_pos ⟨rfl, hs, rfl⟩

/-- There is room at any level for one order more. -/
theorem canAdd (h : Mirrored e live) (hq : ∀ o ∈ live, o.shares.toNat ≤ 1000)
    (hlen : live.length < 4294967) {o : LiveOrder} (ho : o.Quoted numSymbols) {s : Side}
    (locate : UInt16) : (e.bookOf locate).canAdd s.code o.price o.shares = true := by
  have htracks := h.inv.tracks locate
  have hshares := h.sharesAt_le hq locate s o.price
  have horders := h.ordersAt_le locate s o.price
  have hzero := h.inv.positive.sharesAt_eq_zero_iff locate s o.price
  rw [← htracks.shares] at hshares hzero
  rw [← htracks.orders] at horders hzero
  have hlow := ho.minPrice
  have hhigh := ho.maxPrice
  have hmax := ho.maxShares
  refine (OrderBook.canAdd_iff _ s _ _).mpr ⟨fun h0 => ?_, ?_, ho.pos, ?_, by omega, by omega⟩
  · rw [h0, UInt32.toNat_zero] at hlow
    omega
  · rw [h.maxPrice, UInt32.le_iff_toNat_le]
    exact hhigh.trans (by decide)
  · rw [← UInt32.toNat_inj, ← UInt32.toNat_inj]
    exact hzero

/-- A live order makes room for its replacement. -/
theorem canReplace (h : Mirrored e live) (hq : ∀ o ∈ live, o.shares.toNat ≤ 1000)
    (hlen : live.length < 4294967) {o o' : LiveOrder} (hmem : o ∈ live) {s : Side}
    (hside : o.side = s.code) (ho' : o'.Quoted numSymbols) :
    (e.bookOf o.stockLocate).canReplace s.code o.price o.shares o'.price o'.shares = true := by
  have htracks := h.inv.tracks o.stockLocate
  have hfind := h.orders.of_mem hmem
  have hpos : o.shares ≠ 0 := (h.inv.positive _ _ hfind).1
  have hrem := htracks.canRemove h.inv.positive hfind rfl hside hpos (UInt32.le_refl _)
  rw [show (o.value.shares == o.shares) = true from beq_self_eq_true _] at hrem
  have hcan := h.canAdd hq hlen ho' (s := s) o.stockLocate
  obtain ⟨h0, hle, hsh, -, -, -⟩ := (OrderBook.canAdd_iff _ s _ _).mp hcan
  have hguard : ¬((!(e.bookOf o.stockLocate).canRemove s.code o.price o.shares true) = true ∨
      o'.price = 0 ∨ o'.price > (e.bookOf o.stockLocate).maxPrice ∨ o'.shares = 0) := by
    rw [show (e.bookOf o.stockLocate).canRemove s.code o.price o.shares true = true from hrem]
    simp [h0, hsh, UInt32.not_lt.mpr hle]
  unfold OrderBook.canReplace
  rw [if_neg hguard]
  by_cases hprice : o.price = o'.price
  · -- at the same price the shares that leave only make more room
    have hold : o.shares ≤ ((e.bookOf o.stockLocate).levels s o.price).totalShares :=
      htracks.shares_le hfind rfl hside
    have hshares := h.sharesAt_le hq o.stockLocate s o.price
    have hmax := ho'.maxShares
    rw [← htracks.shares] at hshares
    rw [if_neg (not_not.mpr hprice)]
    simp only [OrderBook.level_code, decide_eq_true_eq, UInt32.le_iff_toNat_le, UInt32.toNat_sub,
      UInt32.reduceToNat]
    rw [UInt32.le_iff_toNat_le] at hold
    omega
  · rw [if_pos hprice]
    exact hcan

/-- A system event or a trade is never rejected. -/
theorem no_reason_other (ht : m.type = .systemEvent ∨ m.type = .trade) {st : ApplyStatus} :
    ¬RejectReason e m st := by
  intro hreason
  rcases ht with ht | ht
  · cases hreason <;> simp_all [MsgType.IsAdd, MsgType.IsReduce, MsgType.IsExec]
  · cases hreason <;> simp_all [MsgType.IsAdd, MsgType.IsReduce, MsgType.IsExec]

section

variable (h : Mirrored e live) (hc : Counted numSymbols k live next)

include h hc

theorem no_reason_add (hsym : numSymbols ≤ 65535) (hk : k < 4294967)
    (hroom : k < e.refs.capacity) {o : LiveOrder} (ht : m.type.IsAdd) (href : o.ref = next)
    (hq : o.Quoted numSymbols)
    (hm : m.orderRef = o.ref ∧ m.stockLocate = o.stockLocate ∧ m.side = o.side
      ∧ m.price = o.price ∧ m.shares = o.shares) {st : ApplyStatus} : ¬RejectReason e m st := by
  have honly := isAdd_only ht
  have hfree := hc.free h.orders
  have hpos := hc.next_pos
  have hlength := hc.length
  have hnext := hc.next_le
  have hlow := hq.minPrice
  obtain ⟨hr, hloc, hs, hp, hsh⟩ := hm
  intro hreason
  cases hreason with
  | badAdd _ hbad =>
    rw [hr, hloc, hs, hp, hsh, h.priceLevels] at hbad
    rcases hbad with hbad | hbad | hbad | hbad | hbad | hbad
    · exact hq.side.elim hbad.1 hbad.2
    · rw [← href, hbad] at hpos
      exact Nat.lt_irrefl _ hpos
    · exact hq.locate_ne hsym hbad
    · rw [hbad] at hlow
      exact absurd hlow (by decide)
    · have hhigh := (UInt32.le_iff_toNat_le.mp hbad).trans hq.maxPrice
      exact absurd hhigh (by decide)
    · exact hq.pos hbad
  | duplicateAdd _ hdup =>
    rw [hr, href, hfree] at hdup
    cases hdup
  | overflowAdd _ hover =>
    obtain ⟨s, hcode⟩ := @exists_side_of_code o.side fun hn => hq.side.elim hn.1 hn.2
    rw [hs, hp, hsh, hcode,
      h.canAdd (fun o ho => (hc.quoted o ho).maxShares) (by omega) hq] at hover
    cases hover
  | fullAdd _ _ hfull =>
    rw [h.size_eq] at hfull
    omega
  | _ => simp_all

/-- The order at hand is the one the book has under the reference. -/
theorem find_mem {o : LiveOrder} (hmem : o ∈ live) (href : m.orderRef = o.ref) :
    e.refs.find m.orderRef = some o.value ∧ m.orderRef ≠ 0 := by
  refine ⟨href ▸ h.orders.of_mem hmem, fun h0 => ?_⟩
  have hpos := (hc.refs o hmem).1
  rw [← href, h0] at hpos
  exact Nat.lt_irrefl _ hpos

theorem no_reason_reduce {o : LiveOrder} (hmem : o ∈ live) (ht : m.type.IsReduce)
    (href : m.orderRef = o.ref) (h0 : m.shares ≠ 0) (hle : m.shares ≤ o.shares)
    {st : ApplyStatus} : ¬RejectReason e m st := by
  have honly := isReduce_only ht
  obtain ⟨hfind, hne⟩ := h.find_mem hc hmem href
  intro hreason
  cases hreason with
  | oversize _ hv hover =>
    obtain rfl := Option.some.inj (hv.symm.trans hfind)
    exact UInt32.not_lt.mpr hle hover
  | _ => simp_all

theorem no_reason_delete {o : LiveOrder} (hmem : o ∈ live) (ht : m.type = .orderDelete)
    (href : m.orderRef = o.ref) {st : ApplyStatus} : ¬RejectReason e m st := by
  obtain ⟨hfind, -⟩ := h.find_mem hc hmem href
  intro hreason
  cases hreason <;> simp_all [MsgType.IsAdd, MsgType.IsReduce, MsgType.IsExec]

theorem no_reason_replace (hk : k < 4294967) {o o' : LiveOrder} (hmem : o ∈ live)
    (ht : m.type = .orderReplace) (href : m.orderRef = o.ref) (href' : o'.ref = next)
    (hq : o'.Quoted numSymbols)
    (hm : m.newOrderRef = o'.ref ∧ m.price = o'.price ∧ m.shares = o'.shares)
    {st : ApplyStatus} : ¬RejectReason e m st := by
  obtain ⟨hfind, -⟩ := h.find_mem hc hmem href
  have hfree := hc.free h.orders
  have hpos := hc.next_pos
  have hlength := hc.length
  have hnext := hc.next_le
  have hlow := hq.minPrice
  obtain ⟨hnew, hp, hsh⟩ := hm
  intro hreason
  cases hreason with
  | badReplace _ _ hbad =>
    rw [hnew, href, hp, hsh, h.priceLevels] at hbad
    rcases hbad with hbad | hbad | hbad | hbad | hbad
    · rw [← href', hbad] at hpos
      exact Nat.lt_irrefl _ hpos
    · have hlt := (hc.refs o hmem).2
      rw [← hbad, href'] at hlt
      exact Nat.lt_irrefl _ hlt
    · rw [hbad] at hlow
      exact absurd hlow (by decide)
    · have hhigh := (UInt32.le_iff_toNat_le.mp hbad).trans hq.maxPrice
      exact absurd hhigh (by decide)
    · exact hq.pos hbad
  | duplicateReplace _ _ hdup =>
    rw [hnew, href', hfree] at hdup
    cases hdup
  | overflowReplace _ hv hover =>
    obtain rfl := Option.some.inj (hv.symm.trans hfind)
    obtain ⟨s, hcode⟩ := (h.inv.positive _ _ hfind).2
    have hcode' : o.side = s.code := hcode
    have hcan := h.canReplace (fun o ho => (hc.quoted o ho).maxShares) (by omega) hmem hcode' hq
    rw [hp, hsh, hcode] at hover
    exact absurd (hcan.symm.trans hover) (by decide)
  | _ => simp_all [MsgType.IsAdd, MsgType.IsReduce, MsgType.IsExec]

/-- **A message of the generator is applied**, where symbols have locates of their own, no more
than 4,294,967 references are given out and the table has room for all of them. -/
theorem applied (hsym : numSymbols ≤ 65535) (hk : k < 4294967) (hroom : k < e.refs.capacity)
    (heff : Effect numSymbols live next m live' next') : (e.next m).lastStatus = .applied := by
  refine applied_of_no_reason h.inv fun st => ?_
  cases heff with
  | other ht => exact no_reason_other ht
  | add o ht href hq hm => exact h.no_reason_add hc hsym hk hroom ht href hq hm
  | reduce o others hlive ht href h0 hlt _ =>
    exact h.no_reason_reduce hc (hlive.mem_iff.mpr List.mem_cons_self) ht href h0
      (UInt32.le_of_lt hlt)
  | leave o hlive hend href =>
    have hmem : o ∈ live := hlive.mem_iff.mpr List.mem_cons_self
    rcases hend with ht | ⟨ht, hall⟩
    · exact h.no_reason_delete hc hmem ht href
    · exact h.no_reason_reduce hc hmem ht href (hall ▸ (hc.quoted o hmem).pos)
        (hall ▸ UInt32.le_refl _)
  | replace o o' others hlive ht href href' hq hsame hm _ =>
    exact h.no_reason_replace hc hk (hlive.mem_iff.mpr List.mem_cons_self) ht href href' hq hm

end

/-! ### Best prices -/

/-- A level with shares holds an order. -/
theorem exists_order (h : Mirrored e live) {locate : UInt16} {s : Side} {price : UInt32}
    (hne : ((e.bookOf locate).levels s price).totalShares ≠ 0) :
    ∃ o ∈ live, o.stockLocate = locate ∧ o.side = s.code ∧ o.price = price := by
  by_contra hnone
  have hzero : e.refs.live.sharesAt locate s price = 0 := by
    refine Finmap.total_eq_zero_iff.mpr fun ref v hv => if_neg fun hrests => hnone ?_
    obtain ⟨o, ho, -, rfl⟩ := (h.orders.find ref v).mp hv
    exact ⟨o, ho, hrests⟩
  rw [← (h.inv.tracks locate).shares] at hzero
  exact hne (UInt32.toNat_inj.mp hzero)

/-- The level of a live order has shares. -/
theorem level_ne (h : Mirrored e live) {o : LiveOrder} (ho : o ∈ live) {v : Value}
    (hv : o.value = v) {s : Side} (hside : v.side = s.code) :
    ((e.bookOf v.locate).levels s v.price).totalShares ≠ 0 := by
  have hfind := h.orders.of_mem ho
  rw [hv] at hfind
  have hle := (h.inv.tracks v.locate).shares_le hfind rfl hside
  intro h0
  rw [h0, UInt32.le_zero_iff] at hle
  exact (h.inv.positive _ _ hfind).1 hle

/-- **No book is crossed**, as long as the symbols have prices of their own or no two orders
rest. -/
theorem uncrossed (h : Mirrored e live) (hq : ∀ o ∈ live, o.Quoted numSymbols)
    (hsep : numSymbols ≤ 11 ∨ live.length ≤ 1) (locate : UInt16) (hbid : e.bestBid locate ≠ 0)
    (hask : e.bestAsk locate ≠ 0) : e.bestBid locate < e.bestAsk locate := by
  have hwf := (h.inv.tracks locate).wellFormed
  obtain ⟨b, hb, hbloc, hbside, hbprice⟩ :=
    @exists_order e live h locate .buy _ (hwf.best_bid.attained hbid)
  obtain ⟨a, ha, haloc, haside, haprice⟩ :=
    @exists_order e live h locate .sell _ (hwf.best_ask.attained hask)
  show (e.bookOf locate).bestBid < (e.bookOf locate).bestAsk
  rw [← hbprice, ← haprice, UInt32.lt_iff_toNat_lt]
  rcases hsep with hsym | hone
  · have hbelow := (hq b hb).bid_below hsym hbside
    have habove := (hq a ha).ask_above hsym haside
    rw [hbloc] at hbelow
    rw [haloc] at habove
    omega
  · -- the two would be one order, on both sides
    obtain ⟨i, hi, rfl⟩ := List.mem_iff_getElem.mp hb
    obtain ⟨j, hj, rfl⟩ := List.mem_iff_getElem.mp ha
    obtain rfl : i = j := by omega
    exact absurd (haside.symm.trans hbside) sideSell_ne_sideBuy

end Mirrored

end ItchOrderbook
