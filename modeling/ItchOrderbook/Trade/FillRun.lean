import ItchOrderbook.Book.EngineInvariant
import ItchOrderbook.Trade.FillEngineSpec

/-!
# Runs of the fill engine against a market

A run interleaves limit orders, cancels and market messages; each market message goes to the
fill engine first and then to the book engine, and the fills are collected after every step.
`FillSim` keeps next to the two engines what a caller would have noted down: the orders it was
given references for, and the shares its cancels took back.
-/

namespace ItchOrderbook

open OpenOrder (Evolves)

/-! ## Submitting -/

/-- The shares displayed on the side opposite to ours. -/
def OrderBook.opposite (b : OrderBook) : Side → UInt32 → UInt32
  | .buy => b.askSharesAt
  | .sell => b.bidSharesAt

/-- The price to trade at is no worse than the limit. -/
def Side.NoWorse : Side → UInt32 → UInt32 → Prop
  | .buy, price, limit => price ≤ limit
  | .sell, price, limit => limit ≤ price

/-- The first price is better to trade at than the second. -/
def Side.Better : Side → UInt32 → UInt32 → Prop
  | .buy, p, q => p < q
  | .sell, p, q => q < p

/-- The taker fills of an order on entry: they and the shares left make up the order; each is at
a displayed opposite price no worse than the limit, for at most what is displayed; the best
price comes first, and a displayed price better than one that was filled was taken whole. -/
structure Takes (b : OrderBook) (s : Side) (limit shares : UInt32) (taker : FillRec)
    (fills : List FillRec) (left : UInt32) : Prop where
  total : (fills.map fun f => f.shares.toNat).sum + left.toNat = shares.toNat
  record : ∀ f ∈ fills, f = { taker with price := f.price, shares := f.shares }
  displayed : ∀ f ∈ fills, s.NoWorse f.price limit ∧ f.shares ≠ 0
    ∧ f.shares ≤ b.opposite s f.price
  ordered : fills.Pairwise fun f g => s.Better f.price g.price
  emptied : ∀ f ∈ fills, ∀ x, s.Better x f.price → b.opposite s x ≠ 0 →
    ∃ g ∈ fills, g.price = x ∧ g.shares = b.opposite s x

theorem takes_nil {b : OrderBook} {s : Side} {limit shares : UInt32} {taker : FillRec} :
    Takes b s limit shares taker [] shares :=
  ⟨by simp, by simp, by simp, List.Pairwise.nil, by simp⟩

/-- Taker fills carry the reference of the order and add up to what it did not rest with. -/
theorem Takes.filledShares {b : OrderBook} {s : Side} {limit shares : UInt32} {taker : FillRec}
    {fills : List FillRec} {left : UInt32} (h : Takes b s limit shares taker fills left)
    (ref : UInt64) :
    filledShares fills ref + (if taker.ourRef = ref then left.toNat else 0)
      = if taker.ourRef = ref then shares.toNat else 0 := by
  have hmap : fills.map (fun f => if f.ourRef = ref then f.shares.toNat else 0)
      = fills.map fun f => if taker.ourRef = ref then f.shares.toNat else 0 := by
    apply List.map_congr_left
    intro f hf
    rw [h.record f hf]
  have htotal := h.total
  rw [ItchOrderbook.filledShares, hmap]
  split
  · exact htotal
  · simp

namespace OrderBook

theorem takes_buy {b : OrderBook} (hb : b.WellFormed) (price : UInt32) (taker : FillRec)
    (shares : UInt32) :
    Takes b .buy price shares taker (b.sweepBuy price taker shares).1
      (b.sweepBuy price taker shares).2 := by
  have h := b.swept_buy price taker shares
  refine ⟨h.total, h.record, fun f hf => ?_, h.ordered, fun f hf x hx hne => ?_⟩
  · obtain ⟨hcross, hrest⟩ := h.displayed f hf
    exact ⟨(of_decide_eq_true hcross : f.price ≤ price), hrest⟩
  · -- nothing is displayed below the best ask
    refine h.emptied f hf x ?_ hx hne
    have hlevel : (b.ask x).totalShares ≠ 0 := fun e => hne (by
      show (if x ≤ b.maxPrice then (b.ask x).totalShares else 0) = 0
      rw [e, ite_self])
    rcases UInt32.lt_or_eq_of_le (hb.best_ask.lower x hlevel).2 with hlt | heq
    · exact Or.inr hlt
    · exact Or.inl heq.symm

theorem takes_sell {b : OrderBook} (hb : b.WellFormed) (price : UInt32) (taker : FillRec)
    (shares : UInt32) :
    Takes b .sell price shares taker (b.sweepSell price taker shares).1
      (b.sweepSell price taker shares).2 := by
  have h := b.swept_sell price taker shares
  refine ⟨h.total, h.record, fun f hf => ?_, h.ordered, fun f hf x hx hne => ?_⟩
  · obtain ⟨hcross, hrest⟩ := h.displayed f hf
    exact ⟨(of_decide_eq_true hcross : f.price ≥ price), hrest⟩
  · refine h.emptied f hf x ?_ hx hne
    have hlevel : (b.bid x).totalShares ≠ 0 := fun e => hne (by
      show (if x ≤ b.maxPrice then (b.bid x).totalShares else 0) = 0
      rw [e, ite_self])
    rcases UInt32.lt_or_eq_of_le (hb.best_bid.upper x hlevel) with hlt | heq
    · exact Or.inr hlt
    · exact Or.inl heq

end OrderBook

namespace FillEngine

/-- What submitting an order does: it takes, and what is left of it rests behind all that is
displayed and all own orders at its level. -/
structure Submitted (fe : FillEngine) (eng : BookEngine RefMap) (s : Side) (price shares : UInt32)
    (ts : UInt64) (fe' : FillEngine) (taken : List FillRec) (left : UInt32) : Prop where
  locate : fe'.locate = fe.locate
  nextRef : fe'.nextRef = fe.nextRef + 1
  maxMarketRef : fe'.maxMarketRef = fe.maxMarketRef
  fills : fe'.fills = fe.fills ++ taken
  takes : Takes (eng.bookOf fe.locate) s price shares
    { ts, ourRef := fe.nextRef, side := s.code, maker := false } taken left
  rests : (left = 0 ∧ fe'.openOrders = fe.openOrders ∧ fe'.nextSeq = fe.nextSeq)
    ∨ (left ≠ 0 ∧ fe'.nextSeq = fe.nextSeq + 1 ∧ fe'.openOrders = fe.openOrders ++
        [⟨fe.nextRef, s.code, price, left, shares,
          fe.queueSnapshot (eng.books fe.locate) s.code price, fe.maxMarketRef, fe.nextSeq⟩])

theorem takes_sweepBook {eng : BookEngine RefMap} (heng : eng.Inv) (locate : UInt16) (s : Side)
    (price shares : UInt32) (taker : FillRec) :
    Takes (eng.bookOf locate) s price shares taker
      (sweepBook (eng.books locate) s.code price taker shares).1
      (sweepBook (eng.books locate) s.code price taker shares).2 := by
  have hwf := (heng.tracks locate).wellFormed
  unfold BookEngine.bookOf at hwf ⊢
  cases hbook : eng.books locate with
  | none => exact takes_nil
  | some b =>
    rw [hbook] at hwf
    cases s with
    | buy => exact OrderBook.takes_buy hwf price taker shares
    | sell => exact OrderBook.takes_sell hwf price taker shares

theorem submitLimit_spec (fe : FillEngine) {eng : BookEngine RefMap} (heng : eng.Inv) (s : Side)
    (price shares : UInt32) (ts : UInt64) :
    (fe.submitLimit eng s.code price shares ts).1 = fe.nextRef
      ∧ ∃ taken left, Submitted fe eng s price shares ts
          (fe.submitLimit eng s.code price shares ts).2 taken left := by
  have htakes := takes_sweepBook heng fe.locate s price shares
    { ts, ourRef := fe.nextRef, side := s.code, maker := false }
  unfold submitLimit
  simp only
  split
  · exact ⟨rfl, _, _, rfl, rfl, rfl, rfl, htakes, Or.inr ⟨‹_›, rfl, rfl⟩⟩
  · exact ⟨rfl, _, _, rfl, rfl, rfl, rfl, htakes, Or.inl ⟨not_not.mp ‹_›, rfl, rfl⟩⟩

end FillEngine

/-! ## Runs -/

/-- What a caller of the fill engine and the market can do. -/
inductive SimOp where
  | submit (s : Side) (price shares : UInt32) (ts : UInt64)
  | cancel (ref : UInt64)
  | market (m : DecodedMessage)
  deriving DecidableEq, Repr

/-- An order as it was submitted, with the reference it was given. -/
structure Issue where
  ref : UInt64
  s : Side
  price : UInt32
  shares : UInt32
  deriving DecidableEq, Repr

/-- A run's state: the two engines, the fills collected so far, the orders submitted, and the
shares that cancels took back. -/
structure FillSim where
  eng : BookEngine RefMap
  fe : FillEngine
  fills : List FillRec := []
  issued : List Issue := []
  cancelled : List (UInt64 × UInt32) := []

namespace FillSim

/-- Both engines empty. -/
def new (priceLevels : UInt32) (capacity : ℕ) (locate : UInt16) : FillSim where
  eng := .new priceLevels (RefMap.new capacity)
  fe := { locate }

/-- Collect the fills of a step. -/
def collect (s : FillSim) : FillSim :=
  { s with fe := s.fe.takeFills.2, fills := s.fills ++ s.fe.takeFills.1 }

def step (s : FillSim) : SimOp → FillSim
  | .submit side price shares ts =>
    let (ref, fe) := s.fe.submitLimit s.eng side.code price shares ts
    collect { s with fe, issued := s.issued ++ [⟨ref, side, price, shares⟩] }
  | .cancel ref =>
    let taken := ((s.fe.find ref).map fun o => (ref, o.remaining)).toList
    collect { s with fe := (s.fe.cancel ref).2, cancelled := s.cancelled ++ taken }
  | .market m => collect { s with fe := s.fe.onMarketMessage s.eng m, eng := s.eng.next m }

def run (s : FillSim) (ops : List SimOp) : FillSim := ops.foldl step s

/-- The number of orders submitted. -/
def submits (ops : List SimOp) : ℕ :=
  ops.countP fun op => match op with
    | .submit .. => true
    | _ => false

/-- The shares of the orders submitted under a reference. -/
def issuedShares (s : FillSim) (ref : UInt64) : ℕ :=
  (s.issued.map fun is => if is.ref = ref then is.shares.toNat else 0).sum

/-- The shares that cancels took back under a reference. -/
def cancelledShares (s : FillSim) (ref : UInt64) : ℕ :=
  (s.cancelled.map fun c => if c.1 = ref then c.2.toNat else 0).sum

theorem issuedShares_append (s : FillSim) (is : Issue) (ref : UInt64) {fe : FillEngine}
    {fills : List FillRec} :
    issuedShares { s with fe, fills, issued := s.issued ++ [is] } ref
      = s.issuedShares ref + if is.ref = ref then is.shares.toNat else 0 := by
  simp [issuedShares]

/-- The first reference, `OUR_REF_BIT | 1`, and the ones after it. -/
def nthRef (n : ℕ) : UInt64 := (ourRefBit ||| 1) + UInt64.ofNat n

theorem nthRef_succ (n : ℕ) : nthRef (n + 1) = nthRef n + 1 := by
  rw [nthRef, nthRef, UInt64.ofNat_add, ← UInt64.add_assoc]
  rfl

/-- References come round only after `2 ^ 64` of them. -/
theorem nthRef_inj {m n : ℕ} (hm : m < 2 ^ 64) (hn : n < 2 ^ 64) (h : nthRef m = nthRef n) :
    m = n := by
  have hofNat := congrArg UInt64.toNat (UInt64.add_right_inj _ |>.mp h)
  rwa [UInt64.toNat_ofNat_of_lt' hm, UInt64.toNat_ofNat_of_lt' hn] at hofNat

/-- The orders got the references in turn. -/
structure Numbered (s : FillSim) : Prop where
  issued_refs : s.issued.map Issue.ref = (List.range s.issued.length).map nthRef
  nextRef : s.fe.nextRef = nthRef s.issued.length

theorem Numbered.step {s : FillSim} (h : s.Numbered) (op : SimOp) : (s.step op).Numbered := by
  cases op with
  | submit side price shares ts =>
    have hnext : (s.step (.submit side price shares ts)).fe.nextRef = s.fe.nextRef + 1 := by
      simp only [FillSim.step, FillEngine.submitLimit, collect, FillEngine.takeFills]
      split <;> rfl
    have hissued : (s.step (.submit side price shares ts)).issued
        = s.issued ++ [⟨s.fe.nextRef, side, price, shares⟩] := by
      simp only [FillSim.step, FillEngine.submitLimit, collect]
      split <;> rfl
    refine ⟨?_, ?_⟩
    · rw [hissued, List.map_append, List.length_append, List.length_singleton, List.range_succ,
        List.map_append, h.issued_refs, List.map_cons, List.map_nil, h.nextRef]
      rfl
    · rw [hnext, hissued, List.length_append, List.length_singleton, nthRef_succ, ← h.nextRef]
  | cancel ref =>
    refine ⟨h.issued_refs, ?_⟩
    show (s.fe.cancel ref).2.nextRef = nthRef s.issued.length
    rw [← h.nextRef, FillEngine.cancel]
    split <;> rfl
  | market m =>
    exact ⟨h.issued_refs, (s.fe.onMarketMessage_step s.eng m).nextRef.trans h.nextRef⟩

/-- What holds between the steps of any run: the book engine's invariant, all fills are collected,
and every open order has shares left. -/
structure Sound (s : FillSim) : Prop where
  eng : s.eng.Inv
  taken : s.fe.fills = []
  positive : ∀ o ∈ s.fe.openOrders, o.remaining ≠ 0

/-! ### What one step is -/

/-- The step of a submission, with what it took and what it left to rest. -/
theorem step_submit (s : FillSim) (h : s.Sound) (side : Side) (price shares : UInt32)
    (ts : UInt64) :
    ∃ fe taken left, FillEngine.Submitted s.fe s.eng side price shares ts fe taken left
      ∧ s.step (.submit side price shares ts) =
        { s with
          fe := { fe with fills := [] }
          fills := s.fills ++ taken
          issued := s.issued ++ [⟨s.fe.nextRef, side, price, shares⟩] } := by
  obtain ⟨href, taken, left, hsub⟩ := s.fe.submitLimit_spec h.eng side price shares ts
  refine ⟨_, taken, left, hsub, ?_⟩
  have hfills := hsub.fills
  rw [h.taken, List.nil_append] at hfills
  simp only [step, collect, FillEngine.takeFills, href, hfills]

/-- Cancelling an order that is open: what was before it and behind it in the vector stays. -/
theorem step_cancel (s : FillSim) (h : s.Sound) (ref : UInt64) :
    (s.fe.find ref = none ∧ s.step (.cancel ref) = s)
      ∨ ∃ o before behind, s.fe.openOrders = before ++ o :: behind ∧ o.ref = ref
        ∧ s.step (.cancel ref) =
          { s with
            fe := { s.fe with openOrders := reduceLater (before ++ behind) o o.remaining }
            cancelled := s.cancelled ++ [(ref, o.remaining)] } := by
  have htaken := h.taken
  cases hfind : s.fe.find ref with
  | none =>
    refine Or.inl ⟨rfl, ?_⟩
    simp only [step, FillEngine.cancel, hfind, collect, FillEngine.takeFills, htaken,
      Option.map_none, Option.toList_none, List.append_nil]
    rw [← htaken]
  | some o =>
    obtain ⟨href, before, behind, hopen, hbefore⟩ := List.find?_eq_some_iff_append.mp hfind
    refine Or.inr ⟨o, before, behind, hopen, by simpa using href, ?_⟩
    have herase : s.fe.openOrders.eraseP (fun o => o.ref == ref) = before ++ behind := by
      rw [hopen, List.eraseP_append_right _ (fun a ha => by simpa using hbefore a ha),
        List.eraseP_cons_of_pos (p := fun o : OpenOrder => o.ref == ref) href]
    simp only [step, FillEngine.cancel, hfind, collect, FillEngine.takeFills, htaken, herase,
      Option.map_some, Option.toList_some, List.append_nil]

/-- Every step keeps it, whatever the market sends. -/
theorem Sound.step {s : FillSim} (h : s.Sound) (op : SimOp) : (s.step op).Sound := by
  cases op with
  | submit side price shares ts =>
    obtain ⟨fe, taken, left, hsub, heq⟩ := step_submit s h side price shares ts
    rw [heq]
    refine ⟨h.eng, rfl, fun o ho => ?_⟩
    rcases hsub.rests with ⟨-, hopen, -⟩ | ⟨hleft, -, hopen⟩
    · exact h.positive o (hopen ▸ ho)
    · rcases List.mem_append.mp (hopen ▸ ho) with ho | ho
      · exact h.positive o ho
      · rw [List.mem_singleton.mp ho]
        exact hleft
  | cancel ref =>
    rcases step_cancel s h ref with ⟨-, heq⟩ | ⟨o, before, behind, hopen, -, heq⟩
    · rw [heq]
      exact h
    · rw [heq]
      refine ⟨h.eng, h.taken, fun o' ho' => ?_⟩
      obtain ⟨o₀, ho₀, rfl⟩ := List.mem_map.mp ho'
      rw [OpenOrder.remaining_reduceBehind]
      refine h.positive o₀ (hopen ▸ ?_)
      rcases List.mem_append.mp ho₀ with hb | hb
      · exact List.mem_append_left _ hb
      · exact List.mem_append_right _ (List.mem_cons_of_mem _ hb)
  | market m =>
    exact ⟨h.eng.next m, rfl, (s.fe.onMarketMessage_step s.eng m).positive h.positive⟩

/-- So does every run. Induction on the steps. -/
theorem Sound.run {s : FillSim} (h : s.Sound) (ops : List SimOp) : (s.run ops).Sound := by
  induction ops generalizing s with
  | nil => exact h
  | cons op ops ih => exact ih (h.step op)

theorem sound_new (priceLevels : UInt32) (capacity : ℕ) (locate : UInt16) :
    (new priceLevels capacity locate).Sound where
  eng := BookEngine.inv_new priceLevels capacity
  taken := rfl
  positive _ ho := absurd ho List.not_mem_nil

/-- What holds between the steps of a run while references last. -/
structure Inv (s : FillSim) : Prop extends s.Numbered, s.Sound where
  known : ∀ o ∈ s.fe.openOrders, ∃ is ∈ s.issued,
    o.ref = is.ref ∧ o.side = is.s.code ∧ o.price = is.price
  gone_known : ∀ c ∈ s.cancelled, c.1 ∈ s.issued.map Issue.ref
  nodup : (s.cancelled.map Prod.fst ++ s.fe.openOrders.map OpenOrder.ref).Nodup
  conserved : ∀ ref, filledShares s.fills ref + openShares s.fe.openOrders ref
    + s.cancelledShares ref = s.issuedShares ref
  makers : ∀ f ∈ s.fills, f.maker = true → ∃ is ∈ s.issued,
    f.ourRef = is.ref ∧ f.side = is.s.code ∧ f.price = is.price

theorem inv_new (priceLevels : UInt32) (capacity : ℕ) (locate : UInt16) :
    (new priceLevels capacity locate).Inv where
  issued_refs := rfl
  nextRef := (UInt64.add_zero _).symm
  toSound := sound_new priceLevels capacity locate
  known _ ho := absurd ho List.not_mem_nil
  gone_known _ hc := absurd hc List.not_mem_nil
  nodup := List.nodup_nil
  conserved _ := rfl
  makers _ hf := absurd hf List.not_mem_nil

/-- What one step, or any number of them, does to the orders open before and to the fills: an
open order evolves or is new, and a fill is of an order open before or of a new one. -/
structure Continues (s t : FillSim) : Prop where
  issued : s.issued <+: t.issued
  opened : ∀ o' ∈ t.fe.openOrders,
    (∃ o ∈ s.fe.openOrders, Evolves o o') ∨ o'.ref ∉ s.issued.map Issue.ref
  filled : ∃ new, t.fills = s.fills ++ new ∧ ∀ f ∈ new,
    (∃ o ∈ s.fe.openOrders, f.ourRef = o.ref) ∨ f.ourRef ∉ s.issued.map Issue.ref

theorem Continues.refl (s : FillSim) : Continues s s :=
  ⟨List.prefix_rfl, fun o ho => Or.inl ⟨o, ho, Evolves.refl o⟩, [], (List.append_nil _).symm,
    fun _ hf => absurd hf List.not_mem_nil⟩

theorem Continues.trans {s t u : FillSim} (h : Continues s t) (h' : Continues t u) :
    Continues s u := by
  have hrefs : ∀ ref, ref ∉ t.issued.map Issue.ref → ref ∉ s.issued.map Issue.ref :=
    fun ref hn hmem => hn (List.map_subset _ h.issued.subset hmem)
  refine ⟨h.issued.trans h'.issued, fun o'' ho'' => ?_, ?_⟩
  · rcases h'.opened o'' ho'' with ⟨o', ho', hev'⟩ | hnew
    · rcases h.opened o' ho' with ⟨o, ho, hev⟩ | hnew
      · exact Or.inl ⟨o, ho, hev.trans hev'⟩
      · exact Or.inr (hev'.ref ▸ hnew)
    · exact Or.inr (hrefs _ hnew)
  · obtain ⟨new, heq, hnew⟩ := h.filled
    obtain ⟨new', heq', hnew'⟩ := h'.filled
    refine ⟨new ++ new', by rw [heq', heq, List.append_assoc], fun f hf => ?_⟩
    rcases List.mem_append.mp hf with hf | hf
    · exact hnew f hf
    · rcases hnew' f hf with ⟨o', ho', href⟩ | hn
      · rcases h.opened o' ho' with ⟨o, ho, hev⟩ | hn
        · exact Or.inl ⟨o, ho, href.trans hev.ref⟩
        · exact Or.inr (href ▸ hn)
      · exact Or.inr (hrefs _ hn)

/-! ### Submitting -/

/-- The next reference has not been given out. -/
theorem Inv.nextRef_fresh {s : FillSim} (h : s.Inv) (hlt : s.issued.length < 2 ^ 64) :
    s.fe.nextRef ∉ s.issued.map Issue.ref := by
  rw [h.issued_refs, h.nextRef]
  intro hmem
  obtain ⟨k, hk, heq⟩ := List.mem_map.mp hmem
  have hk := List.mem_range.mp hk
  have := nthRef_inj (hk.trans hlt) hlt heq
  omega

/-- No two references are the same. -/
theorem Inv.issued_nodup {s : FillSim} (h : s.Inv) (hle : s.issued.length ≤ 2 ^ 64) :
    (s.issued.map Issue.ref).Nodup := by
  rw [h.issued_refs]
  refine List.Nodup.map_on (fun m hm n hn heq => ?_) List.nodup_range
  have hm := List.mem_range.mp hm
  have hn := List.mem_range.mp hn
  exact nthRef_inj (by omega) (by omega) heq

theorem Inv.gone_or_open_known {s : FillSim} (h : s.Inv) {ref : UInt64}
    (hmem : ref ∈ s.cancelled.map Prod.fst ++ s.fe.openOrders.map OpenOrder.ref) :
    ref ∈ s.issued.map Issue.ref := by
  rcases List.mem_append.mp hmem with hgone | hopen
  · obtain ⟨c, hc, rfl⟩ := List.mem_map.mp hgone
    exact h.gone_known c hc
  · obtain ⟨o, ho, rfl⟩ := List.mem_map.mp hopen
    obtain ⟨is, his, href, -⟩ := h.known o ho
    exact href ▸ List.mem_map_of_mem his

theorem Inv.submit {s : FillSim} (h : s.Inv) (hlt : s.issued.length < 2 ^ 64) (side : Side)
    (price shares : UInt32) (ts : UInt64) :
    (s.step (.submit side price shares ts)).Inv
      ∧ Continues s (s.step (.submit side price shares ts)) := by
  obtain ⟨fe, taken, left, hsub, heq⟩ := step_submit s h.toSound side price shares ts
  have hsound := h.toSound.step (.submit side price shares ts)
  have hfresh := h.nextRef_fresh hlt
  have hsubset : ∀ is ∈ s.issued, is ∈ s.issued ++ [⟨s.fe.nextRef, side, price, shares⟩] :=
    fun is his => List.mem_append_left _ his
  have htaken : ∀ f ∈ taken, f.maker = false ∧ f.ourRef = s.fe.nextRef := by
    intro f hf
    rw [hsub.takes.record f hf]
    exact ⟨rfl, rfl⟩
  have hopen : ∀ o ∈ fe.openOrders, o ∈ s.fe.openOrders
      ∨ (o.ref = s.fe.nextRef ∧ o.side = side.code ∧ o.price = price) := by
    intro o ho
    rcases hsub.rests with ⟨-, hopen, -⟩ | ⟨-, -, hopen⟩
    · rw [hopen] at ho
      exact Or.inl ho
    · rw [hopen, List.mem_append, List.mem_singleton] at ho
      rcases ho with ho | rfl
      · exact Or.inl ho
      · exact Or.inr ⟨rfl, rfl, rfl⟩
  rw [heq] at hsound ⊢
  refine ⟨⟨heq ▸ h.toNumbered.step _, hsound, fun o ho => ?_, fun c hc => ?_,
    ?_, fun ref => ?_, fun f hf hmaker => ?_⟩,
    ⟨List.prefix_append _ _, fun o ho => ?_, taken, rfl, fun f hf => ?_⟩⟩
  · rcases hopen o ho with ho | ⟨href, hside, hprice⟩
    · obtain ⟨is, his, hk⟩ := h.known o ho
      exact ⟨is, hsubset is his, hk⟩
    · exact ⟨_, List.mem_append_right _ List.mem_cons_self, href, hside, hprice⟩
  · rw [List.map_append]
    exact List.mem_append_left _ (h.gone_known c hc)
  · rcases hsub.rests with ⟨-, hrest, -⟩ | ⟨-, -, hrest⟩
    · rw [hrest]
      exact h.nodup
    · rw [hrest, List.map_append, ← List.append_assoc]
      refine h.nodup.append (List.nodup_singleton _) fun ref hmem hnew => ?_
      rw [List.map_cons, List.map_nil, List.mem_singleton] at hnew
      exact hfresh ((show ref = s.fe.nextRef from hnew) ▸ h.gone_or_open_known hmem)
  · have htakes := hsub.takes.filledShares ref
    have hbefore := h.conserved ref
    have hrests : openShares fe.openOrders ref = openShares s.fe.openOrders ref
        + if s.fe.nextRef = ref then left.toNat else 0 := by
      rcases hsub.rests with ⟨hleft, hrest, -⟩ | ⟨-, -, hrest⟩
      · simp [hrest, hleft]
      · simp [hrest, openShares]
    rw [filledShares_append, hrests, issuedShares_append]
    simp only [cancelledShares, issuedShares] at hbefore htakes ⊢
    omega
  · rcases List.mem_append.mp hf with hf | hf
    · obtain ⟨is, his, hk⟩ := h.makers f hf hmaker
      exact ⟨is, hsubset is his, hk⟩
    · rw [(htaken f hf).1] at hmaker
      cases hmaker
  · rcases hopen o ho with ho | ⟨href, -⟩
    · exact Or.inl ⟨o, ho, Evolves.refl o⟩
    · exact Or.inr (href ▸ hfresh)
  · exact Or.inr ((htaken f hf).2 ▸ hfresh)

/-! ### Cancelling -/

theorem Inv.cancel {s : FillSim} (h : s.Inv) (ref : UInt64) :
    (s.step (.cancel ref)).Inv ∧ Continues s (s.step (.cancel ref)) := by
  have hsound := h.toSound.step (.cancel ref)
  rcases step_cancel s h.toSound ref with ⟨-, heq⟩ | ⟨o, before, behind, hopen, href, heq⟩
  · rw [heq]
    exact ⟨h, Continues.refl s⟩
  rw [heq] at hsound ⊢
  -- an order left is one from before, with fewer shares ahead
  have hold : ∀ o' ∈ reduceLater (before ++ behind) o o.remaining,
      ∃ o₀ ∈ s.fe.openOrders, Evolves o₀ o' := by
    intro o' ho'
    obtain ⟨o₀, ho₀, rfl⟩ := List.mem_map.mp ho'
    refine ⟨o₀, ?_, OpenOrder.evolves_reduceBehind o o.remaining o₀⟩
    rw [hopen]
    rcases List.mem_append.mp ho₀ with hb | hb
    · exact List.mem_append_left _ hb
    · exact List.mem_append_right _ (List.mem_cons_of_mem _ hb)
  refine ⟨⟨⟨h.issued_refs, h.nextRef⟩, hsound, fun o' ho' => ?_, fun c hc => ?_, ?_,
    fun r => ?_, h.makers⟩,
    ⟨List.prefix_rfl, fun o' ho' => ?_, [], (List.append_nil _).symm,
      fun _ hf => absurd hf List.not_mem_nil⟩⟩
  · obtain ⟨o₀, ho₀, hev⟩ := hold o' ho'
    obtain ⟨is, his, h₁, h₂, h₃⟩ := h.known o₀ ho₀
    exact ⟨is, his, hev.ref.trans h₁, hev.side.trans h₂, hev.price.trans h₃⟩
  · rcases List.mem_append.mp hc with hc | hc
    · exact h.gone_known c hc
    · rw [List.mem_singleton.mp hc, ← href]
      obtain ⟨is, his, h₁, -⟩ := h.known o (hopen ▸ List.mem_append_right _ List.mem_cons_self)
      exact h₁ ▸ List.mem_map_of_mem his
  · have hrefs : (reduceLater (before ++ behind) o o.remaining).map OpenOrder.ref
        = before.map OpenOrder.ref ++ behind.map OpenOrder.ref := by
      simp [reduceLater, Function.comp_def]
    have hnodup := h.nodup
    rw [hopen, List.map_append, List.map_cons, href] at hnodup
    have hperm : (s.cancelled.map Prod.fst ++ (before.map OpenOrder.ref ++
        ref :: behind.map OpenOrder.ref)).Perm (s.cancelled.map Prod.fst ++
        ref :: (before.map OpenOrder.ref ++ behind.map OpenOrder.ref)) :=
      List.Perm.append_left _ List.perm_middle
    show ((s.cancelled ++ [(ref, o.remaining)]).map Prod.fst ++ _).Nodup
    rw [hrefs, List.map_append, List.append_assoc]
    exact hperm.nodup_iff.mp hnodup
  · have hbefore := h.conserved r
    rw [hopen] at hbefore
    simp only [openShares_append, openShares_cons, cancelledShares, href] at hbefore
    rw [openShares_reduceLater, openShares_append]
    simp only [cancelledShares, issuedShares, List.map_append, List.sum_append, List.map_cons,
      List.map_nil, List.sum_cons, List.sum_nil] at hbefore ⊢
    omega
  · obtain ⟨o₀, ho₀, hev⟩ := hold o' ho'
    exact Or.inl ⟨o₀, ho₀, hev⟩

/-! ### Market messages -/

/-- What a market message leaves open was open before and evolved. -/
theorem marketStep_opened {fe fe' : FillEngine} (h : FillEngine.MarketStep fe fe') :
    (fe'.openOrders.map OpenOrder.ref).Sublist (fe.openOrders.map OpenOrder.ref)
      ∧ ∀ o' ∈ fe'.openOrders, ∃ o ∈ fe.openOrders, Evolves o o' := by
  obtain ⟨orders, htrades, heq⟩ := h.trades
  have hrefs : orders.map OpenOrder.ref = fe.openOrders.map OpenOrder.ref :=
    forall₂_evolves_refs htrades.evolves
  rcases heq with heq | heq
  · rw [heq, hrefs]
    exact ⟨List.Sublist.refl _, fun o' ho' => forall₂_evolves_mem htrades.evolves ho'⟩
  · rw [heq, ← hrefs]
    exact ⟨List.filter_sublist.map _,
      fun o' ho' => forall₂_evolves_mem htrades.evolves (List.mem_filter.mp ho').1⟩

theorem Inv.market {s : FillSim} (h : s.Inv) (m : DecodedMessage) :
    (s.step (.market m)).Inv ∧ Continues s (s.step (.market m)) := by
  have hstep := s.fe.onMarketMessage_step s.eng m
  obtain ⟨hsub, hold⟩ := marketStep_opened hstep
  obtain ⟨orders, htrades, heq⟩ := hstep.trades
  obtain ⟨new, hfills, hnew⟩ := htrades.makers
  rw [h.taken, List.nil_append] at hfills
  refine ⟨⟨h.toNumbered.step (.market m), h.toSound.step (.market m), fun o' ho' => ?_,
     h.gone_known, ?_, fun r => ?_, fun f hf hmaker => ?_⟩,
    ⟨List.prefix_rfl, fun o' ho' => Or.inl (hold o' ho'), new, ?_, fun f hf => ?_⟩⟩
  · obtain ⟨o, ho, hev⟩ := hold o' ho'
    obtain ⟨is, his, h₁, h₂, h₃⟩ := h.known o ho
    exact ⟨is, his, hev.ref.trans h₁, hev.side.trans h₂, hev.price.trans h₃⟩
  · exact List.Nodup.sublist (List.Sublist.append (List.Sublist.refl _) hsub) h.nodup
  · have hopen : openShares (s.fe.onMarketMessage s.eng m).openOrders r = openShares orders r := by
      rcases heq with heq | heq
      · rw [heq]
      · rw [heq, openShares_eraseFilled]
    have hmoved := htrades.conserved r
    have hbefore := h.conserved r
    rw [h.taken, filledShares_nil] at hmoved
    show filledShares (s.fills ++ (s.fe.onMarketMessage s.eng m).fills) r
      + openShares (s.fe.onMarketMessage s.eng m).openOrders r + s.cancelledShares r
      = s.issuedShares r
    rw [filledShares_append, hopen]
    omega
  · show ∃ is ∈ s.issued, _
    rcases List.mem_append.mp hf with hf | hf
    · exact h.makers f hf hmaker
    · rw [FillEngine.takeFills, hfills] at hf
      obtain ⟨o, ho, hof⟩ := hnew f hf
      obtain ⟨is, his, h₁, h₂, h₃⟩ := h.known o ho
      exact ⟨is, his, hof.ref.trans h₁, hof.side.trans h₂, hof.price.trans h₃⟩
  · show s.fills ++ (s.fe.onMarketMessage s.eng m).fills = s.fills ++ new
    rw [hfills]
  · obtain ⟨o, ho, hof⟩ := hnew f hf
    exact Or.inl ⟨o, ho, hof.ref⟩

/-! ### Whole runs -/

theorem length_issued_step (s : FillSim) (op : SimOp) :
    (s.step op).issued.length = s.issued.length + submits [op] := by
  cases op with
  | submit side price shares ts =>
    simp only [step, FillEngine.submitLimit, collect]
    split <;> exact List.length_append
  | cancel ref => rfl
  | market m => rfl

theorem submits_cons (op : SimOp) (ops : List SimOp) :
    submits (op :: ops) = submits [op] + submits ops := by
  simp only [submits, List.countP_cons, List.countP_nil]
  omega

theorem Numbered.run {s : FillSim} (h : s.Numbered) (ops : List SimOp) :
    (s.run ops).Numbered ∧ (s.run ops).issued.length = s.issued.length + submits ops := by
  induction ops generalizing s with
  | nil => exact ⟨h, rfl⟩
  | cons op ops ih =>
    obtain ⟨hnum, hlen⟩ := ih (h.step op)
    refine ⟨hnum, ?_⟩
    show ((s.step op).run ops).issued.length = _
    rw [hlen, length_issued_step, submits_cons op ops]
    omega

/-- Every step keeps the invariant, while references are left. -/
theorem Inv.step {s : FillSim} (h : s.Inv) (op : SimOp)
    (hle : s.issued.length + submits [op] ≤ 2 ^ 64) :
    (s.step op).Inv ∧ Continues s (s.step op) := by
  cases op with
  | submit side price shares ts => exact h.submit hle side price shares ts
  | cancel ref => exact h.cancel ref
  | market m => exact h.market m

/-- So does every run. Induction on the steps. -/
theorem Inv.run {s : FillSim} (h : s.Inv) (ops : List SimOp)
    (hle : s.issued.length + submits ops ≤ 2 ^ 64) :
    (s.run ops).Inv ∧ Continues s (s.run ops) := by
  induction ops generalizing s with
  | nil => exact ⟨h, Continues.refl s⟩
  | cons op ops ih =>
    rw [submits_cons] at hle
    obtain ⟨hinv, hcont⟩ := h.step op (by omega)
    obtain ⟨hinv', hcont'⟩ := ih hinv (by rw [length_issued_step]; omega)
    exact ⟨hinv', hcont.trans hcont'⟩

end FillSim

end ItchOrderbook
