import ItchOrderbook.Rtl.ReferenceMirror

/-!
# The hardware book against the reference model

The testbench applies each message to `Sim.RefBook` when the hardware commits it, and compares what
the two show (`Matches`). A commit is seen in the cycle after `engine_done`: the last trade has then
reached the sums, and the engine may already have taken the next message.
-/

namespace ItchOrderbook.Rtl

/-! ## What is compared -/

/-- The outputs of the hardware are those of the reference. -/
structure Matches (s : BookState .simulation) (r : Sim.RefBook) : Prop where
  bid : s.engine.bestValid true = r.bestBidValid ∧ s.engine.bestPrice true = r.bestBidPrice
    ∧ (s.engine.bestShares true).toUInt64 = r.bestBidShares
  ask : s.engine.bestValid false = r.bestAskValid ∧ s.engine.bestPrice false = r.bestAskPrice
    ∧ (s.engine.bestShares false).toUInt64 = r.bestAskShares
  levels : ∀ isBid price, price.toNat < Build.simulation.priceLevels →
    (s.engine.dbgShares isBid price).toUInt64 = r.levelShares isBid price
      ∧ s.engine.dbgCount isBid price = r.levelCount isBid price
  volumes : ∀ isBid, s.engine.totVol isBid = r.tot isBid
  sums : s.stats.sums.stats = r.stats
  spread : s.spreadValid = r.spreadValid ∧ s.spread = r.spread

/-- The spread follows from the best prices. -/
theorem spread_eq {s : BookState .simulation} {r : Sim.RefBook}
    (hbid : s.engine.bestValid true = r.bestBidValid ∧ s.engine.bestPrice true = r.bestBidPrice)
    (hask : s.engine.bestValid false = r.bestAskValid ∧ s.engine.bestPrice false = r.bestAskPrice) :
    s.spreadValid = r.spreadValid ∧ s.spread = r.spread := by
  have hvalid : s.spreadValid = r.spreadValid := by
    unfold BookState.spreadValid Sim.RefBook.spreadValid
    rw [hbid.1, hask.1]
  refine ⟨hvalid, ?_⟩
  unfold BookState.spread Sim.RefBook.spread
  rw [hvalid, hbid.2, hask.2]

namespace BookState

variable {s s' : BookState .simulation} {k : BookCore .simulation} {live : LiveEntries}
  {r : Sim.RefBook} {d : Decoded}

/-! ## The book at rest -/

theorem totalAt_pos {ref : UInt64} {e : OrderEntry} (h : Mirrors k live r)
    (he : live.lookup ref = some e) : r.sharesAt (e.isBid, e.price) ≠ 0 := by
  have hle : e.toSimOrder.weight ≤ r.sharesAt e.toSimOrder.place :=
    Sim.RefBook.Shows.weight_le (h.same.lookup_some he)
  rw [weight_toSimOrder] at hle
  have hpos : e.weight ≠ 0 := fun h0 => h.positive he (UInt32.toNat_inj.mp h0)
  show r.sharesAt e.toSimOrder.place ≠ 0
  omega

/-- A price with shares is the price of an order. -/
theorem rests_of_shares (h : Mirrors s.core live r) {isBid : Bool} {price : UInt32}
    (hp : r.sharesAt (isBid, price) ≠ 0) : ∃ e, s.engine.Rests isBid e ∧ e.price = price := by
  by_contra hno
  unfold Sim.RefBook.sharesAt Finmap.totalAt at hp
  refine hp (Finmap.total_eq_zero_iff.mpr fun ref o ho => if_neg fun hplace => hno ?_)
  rw [h.same, Option.map_eq_some_iff] at ho
  obtain ⟨e, he, rfl⟩ := ho
  obtain ⟨i, hi⟩ := (h.priced.sound.backed.stores.represents.lookup_iff ref e).mp he
  obtain ⟨hv, -, heq⟩ := OrderEntry.slot_eq_live_iff.mp hi
  exact ⟨e, ⟨i, heq, by rw [← heq]; exact hv, congrArg Prod.fst hplace⟩, congrArg Prod.snd hplace⟩

theorem shares_of_rests (h : Mirrors s.core live r) {isBid : Bool} {e : OrderEntry}
    (he : s.engine.Rests isBid e) : r.sharesAt (isBid, e.price) ≠ 0 := by
  obtain ⟨hl, hb⟩ := (rests_iff h.priced.sound.backed.stores).mp he
  rw [← hb]
  exact totalAt_pos h hl

/-- The levels. -/
theorem levels_eq (h : Mirrors s.core live r) {isBid : Bool} {price : UInt32}
    (hp : price.toNat < Build.simulation.priceLevels) :
    (s.engine.dbgShares isBid price).toUInt64 = r.levelShares isBid price
      ∧ s.engine.dbgCount isBid price = r.levelCount isBid price := by
  have ht := h.priced.sound.backed.totals isBid
  have hside : s.core.side isBid = (s.engine.side isBid).core := side_core ..
  rw [hside] at ht
  have hshares : r.sharesAt (isBid, price) = Finmap.totalAt
      (OrderEntry.place .simulation s.core.bandBase) OrderEntry.weight live
      (isBid, s.core.addr price) := h.totalAt_place hp weight_toSimOrder
  have hcount : r.ordersAt (isBid, price) = Finmap.totalAt
      (OrderEntry.place .simulation s.core.bandBase) (fun _ => 1) live
      (isBid, s.core.addr price) := h.totalAt_place hp fun _ => rfl
  have hlt := h.shows.bounded (isBid, price)
  constructor
  · rw [h.shows.levelShares_eq]
    show (UInt32.toUInt64 ((s.engine.side isBid).core.sharesMem (s.core.addr price))) = _
    rw [ht.shares]
    show (UInt32.ofNat (Finmap.totalAt (OrderEntry.place .simulation s.core.bandBase)
      OrderEntry.weight live (isBid, s.core.addr price))).toUInt64 = _
    rw [← hshares]
    change r.sharesAt (isBid, price) < 2 ^ 32 at hlt
    rw [← UInt64.toNat_inj, UInt32.toNat_toUInt64, UInt32.toNat_ofNat_of_lt' hlt,
      UInt64.toNat_ofNat_of_lt' (hlt.trans (by decide))]
  · rw [h.shows.levelCount_eq]
    show (s.engine.side isBid).core.countMem (s.core.addr price) = _
    rw [ht.count]
    exact congrArg UInt32.ofNat hcount.symm

/-- The best of a side with orders. -/
theorem best_of_valid (h : Mirrors s.core live r) {isBid : Bool}
    (hv : s.engine.bestValid isBid = true) :
    r.sharesAt (isBid, s.engine.bestPrice isBid) ≠ 0
      ∧ (∀ price, r.sharesAt (isBid, price) ≠ 0 →
        if isBid then price ≤ s.engine.bestPrice isBid else s.engine.bestPrice isBid ≤ price)
      ∧ (s.engine.bestShares isBid).toUInt64
        = UInt64.ofNat (r.sharesAt (isBid, s.engine.bestPrice isBid)) := by
  obtain ⟨-, hprice, hbest⟩ := bestPriced_of_priced h.priced isBid
  obtain ⟨e, he, hpe⟩ := hprice hv
  refine ⟨hpe ▸ shares_of_rests h he, fun price hp => ?_, ?_⟩
  · obtain ⟨f, hf, rfl⟩ := rests_of_shares h hp
    exact hbest f hf
  -- the best level is the level of the best price
  have hlevel : s.engine.bestShares isBid
      = s.engine.dbgShares isBid (s.engine.bestPrice isBid) := by
    unfold BookUpdateEngineState.bestShares BookUpdateEngineState.dbgShares
      BookUpdateEngineState.bestPrice
    rw [if_pos hv, if_pos hv, UInt32.add_comm, UInt32.add_sub_cancel, levelAddr_ofNat]
  have hin := (levelsOrdered_of_priced h.priced).1 isBid e he
  have hbase : s.engine.bandBase = 0 := h.base
  have hlt : (s.engine.bestPrice isBid).toNat < Build.simulation.priceLevels := by
    have hlt := hin.2
    rwa [hpe, hbase, UInt32.toNat_zero, Nat.zero_add] at hlt
  rw [hlevel, (levels_eq h hlt).1, h.shows.levelShares_eq]

/-- A side without orders. -/
theorem best_of_invalid (h : Mirrors s.core live r) {isBid : Bool}
    (hv : s.engine.bestValid isBid = false) :
    s.engine.bestPrice isBid = 0 ∧ s.engine.bestShares isBid = 0
      ∧ ∀ price, r.sharesAt (isBid, price) = 0 := by
  refine ⟨?_, ?_, fun price => ?_⟩
  · unfold BookUpdateEngineState.bestPrice
    rw [hv]
    rfl
  · unfold BookUpdateEngineState.bestShares
    rw [hv]
    rfl
  · by_contra hp
    obtain ⟨e, he, -⟩ := rests_of_shares h hp
    have hvalid := (bestPriced_of_priced h.priced isBid).1.mpr ⟨e, he⟩
    rw [hv] at hvalid
    cases hvalid

/-- The best bid. -/
theorem bid_eq (h : Mirrors s.core live r) : s.engine.bestValid true = r.bestBidValid
    ∧ s.engine.bestPrice true = r.bestBidPrice
    ∧ (s.engine.bestShares true).toUInt64 = r.bestBidShares := by
  cases hv : s.engine.bestValid true with
  | false =>
    obtain ⟨hprice, hshares, hnone⟩ := best_of_invalid h hv
    obtain ⟨hv', hprice', hshares'⟩ := h.shows.no_bid hnone
    rw [hprice, hshares, hv', hprice', hshares']
    exact ⟨rfl, rfl, rfl⟩
  | true =>
    obtain ⟨hpos, hbest, hshares⟩ := best_of_valid h hv
    obtain ⟨hv', hprice', hshares'⟩ := h.shows.best_bid ⟨hpos, fun price hp => hbest price hp⟩
    exact ⟨hv'.symm, hprice'.symm, hshares.trans hshares'.symm⟩

/-- The best ask. -/
theorem ask_eq (h : Mirrors s.core live r) : s.engine.bestValid false = r.bestAskValid
    ∧ s.engine.bestPrice false = r.bestAskPrice
    ∧ (s.engine.bestShares false).toUInt64 = r.bestAskShares := by
  cases hv : s.engine.bestValid false with
  | false =>
    obtain ⟨hprice, hshares, hnone⟩ := best_of_invalid h hv
    obtain ⟨hv', hprice', hshares'⟩ := h.shows.no_ask hnone
    rw [hprice, hshares, hv', hprice', hshares']
    exact ⟨rfl, rfl, rfl⟩
  | true =>
    obtain ⟨hpos, hbest, hshares⟩ := best_of_valid h hv
    obtain ⟨hv', hprice', hshares'⟩ := h.shows.best_ask ⟨hpos, fun price hp => hbest price hp⟩
    exact ⟨hv'.symm, hprice'.symm, hshares.trans hshares'.symm⟩

/-! ## The cycle after -/

/-- `S_IDLE` takes a message without touching a side or the base of a configured band. -/
theorem onIdle_kept (s n : BookUpdateEngineState .simulation) (i : EngineIn) :
    (∀ isBid, (s.onIdle n i).side isBid = n.side isBid) ∧ (s.onIdle n i).table = n.table
      ∧ (n.bandBase = s.bandBase → (s.onIdle n i).bandBase = s.bandBase) := by
  have hbase : s.baseEff i.dec = s.bandBase := if_pos (Or.inr rfl)
  unfold BookUpdateEngineState.onIdle
  split
  · dsimp only
    split
    · split
      · exact ⟨fun _ => rfl, rfl, fun _ => hbase⟩
      · exact ⟨fun _ => rfl, rfl, fun h => h⟩
    · split
      · exact ⟨fun _ => rfl, rfl, fun h => h⟩
      · split
        · exact ⟨fun _ => rfl, rfl, fun h => h⟩
        · split
          · exact ⟨fun _ => rfl, rfl, fun h => h⟩
          · exact ⟨fun _ => rfl, rfl, fun h => h⟩
  · exact ⟨fun _ => rfl, rfl, fun h => h⟩

/-- The cycle after: the sides, the base and the sums are those of the book at rest. -/
theorem Rest.shown (h : s.Rest k) {i : EngineIn} (hi : Plain i) :
    (∀ isBid, (s.step i).engine.side isBid = (s.engine.side isBid).clearPulses)
      ∧ (s.step i).engine.bandBase = s.engine.bandBase ∧ (s.step i).stats.sums = k.sums := by
  have hfsm : s.engine.fsm i = s.engine.onIdle s.engine.clearPulses i := by
    unfold BookUpdateEngineState.fsm
    rw [h.state]
  obtain ⟨hsides, htable, hbase⟩ := onIdle_kept s.engine s.engine.clearPulses i
  have hbid : (s.engine.onIdle s.engine.clearPulses i).bid = s.engine.bid.clearPulses := hsides true
  have hask : (s.engine.onIdle s.engine.clearPulses i).ask = s.engine.ask.clearPulses := hsides false
  have hengine : (s.step i).engine = _ := h.quiet.step hi.1 hi.2 hfsm
    ⟨htable, by rw [hbid]; rfl, by rw [hask]; rfl⟩
  refine ⟨fun isBid => ?_, ?_, ?_⟩
  · rw [hengine]
    refine (hsides isBid).trans ?_
    cases isBid with
    | true => rfl
    | false => rfl
  · rw [hengine]
    exact hbase rfl
  · rw [← h.core]
    show (BookState.step s i).stats.sums = s.engine.emitted s.stats.settled
    unfold BookState.step BookUpdateEngineState.emitted StatsEngineState.settled
    simp only [hi.1, h.noTrade, Bool.false_eq_true, if_false]
    unfold StatsEngineState.step
    split
    · rfl
    · rfl

/-- **A commit.** -/
theorem matches_of_mirrors (h : s.Rest k) (hk : Mirrors k live r) {i : EngineIn} (hi : Plain i) :
    Matches (s.step i) r := by
  obtain ⟨hsides, hbase, hsums⟩ := h.shown hi
  have hstats : (s.step i).stats.sums.stats = r.stats := by
    rw [hsums]
    exact hk.stats
  rw [← h.core] at hk
  -- the outputs are functions of the sides and the base
  have hvalid (isBid : Bool) : (s.step i).engine.bestValid isBid = s.engine.bestValid isBid := by
    unfold BookUpdateEngineState.bestValid
    rw [hsides]
    rfl
  have hprice (isBid : Bool) : (s.step i).engine.bestPrice isBid = s.engine.bestPrice isBid := by
    unfold BookUpdateEngineState.bestPrice
    rw [hvalid, hsides, hbase]
    rfl
  have hshares (isBid : Bool) :
      (s.step i).engine.bestShares isBid = s.engine.bestShares isBid := by
    unfold BookUpdateEngineState.bestShares
    rw [hvalid, hsides]
    rfl
  have hbid := bid_eq hk
  have hask := ask_eq hk
  rw [← hvalid, ← hprice, ← hshares] at hbid hask
  refine ⟨hbid, hask, fun isBid price hp => ?_, fun isBid => ?_, hstats,
    spread_eq ⟨hbid.1, hbid.2.1⟩ ⟨hask.1, hask.2.1⟩⟩
  · have hlevels : (s.engine.dbgShares isBid price).toUInt64 = r.levelShares isBid price
        ∧ s.engine.dbgCount isBid price = r.levelCount isBid price := levels_eq hk hp
    unfold BookUpdateEngineState.dbgShares BookUpdateEngineState.dbgCount at hlevels ⊢
    rw [hsides, hbase]
    exact hlevels
  · have ht := (hk.priced.sound.backed.totals isBid).totVol
    have hside : s.core.side isBid = (s.engine.side isBid).core := side_core ..
    rw [hside] at ht
    unfold BookUpdateEngineState.totVol
    rw [hsides, hk.shows.tot]
    have hside : r.sharesOn isBid
        = Finmap.totalAt OrderEntry.isBid OrderEntry.weight live isBid :=
      hk.same.totalAt_eq (fun ref e he => Iff.rfl) weight_toSimOrder
    exact ht.trans (congrArg UInt64.ofNat hside.symm)

/-! ## Runs -/

/-- The reference after some messages. -/
def replayed (r : Sim.RefBook) (ds : List Decoded) : Sim.RefBook :=
  ds.foldl (fun r d => r.apply d.toRefMsg) r

/-- Each message of a run is admissible for the reference that follows it, and no INSERT runs out of
probes. -/
def Lockstep (s : BookState .simulation) (r : Sim.RefBook) : List EngineIn → Prop
  | [] => True
  | i :: is => (∀ d ∈ s.accept i, Admissible r d) ∧ (s.step i).engine.table.insFailCount = 0
    ∧ (s.step i).Lockstep (replayed r (s.accept i).toList) is

instance decidableLockstep (s : BookState .simulation) (r : Sim.RefBook) :
    ∀ is, Decidable (s.Lockstep r is)
  | [] => .isTrue trivial
  | i :: is =>
    have := decidableLockstep (s.step i) (replayed r (s.accept i).toList) is
    inferInstanceAs (Decidable ((∀ d ∈ s.accept i, Admissible r d) ∧ _ ∧ _))

/-- The engine serves a book that mirrors the reference, unless an INSERT of the message on its way
will run out of probes. -/
structure ServesReference (s : BookState .simulation) (r : Sim.RefBook) : Prop where
  fits : s.engine.table.insFailCount = 0
  serves : ∃ k live, s.Serving k ∧ (k.table.insFailCount = 0 → Mirrors k live r)

theorem ServesReference.mirrors (h : s.ServesReference r) (hk : s.Rest k) :
    ∃ live, Mirrors k live r := by
  obtain ⟨k', live, hs, hm⟩ := h.serves
  have hcore : k' = k := (hs.rest_of_idle hk.state).core.symm.trans hk.core
  subst hcore
  have hfits : k'.table.insFailCount = s.engine.table.insFailCount := by
    rw [← hk.core]
    rfl
  exact ⟨live, hm (hfits.trans h.fits)⟩

/-- One cycle. -/
theorem ServesReference.step (h : s.ServesReference r) {i : EngineIn} (hi : Plain i)
    (hd : ∀ d ∈ s.accept i, Admissible r d) (hfits : (s.step i).engine.table.insFailCount = 0) :
    (s.step i).ServesReference (replayed r (s.accept i).toList) := by
  obtain ⟨k, live, hs, hm⟩ := h.serves
  cases ha : s.accept i with
  | none => exact ⟨hfits, k, live, hs.step_none hi ha, hm⟩
  | some d =>
    obtain ⟨hrest, hnext⟩ := hs.step_some hi ha
    obtain ⟨live', hk⟩ := h.mirrors hrest
    have hzero : k.table.insFailCount = 0 := by
      rw [← hrest.core]
      exact h.fits
    exact ⟨hfits, _, _, hnext, fun hfit => hk.apply (hd d ha) (hfit.trans hzero.symm)⟩

/-- A run. -/
theorem ServesReference.run (h : s.ServesReference r) (is : List EngineIn)
    (hi : ∀ i ∈ is, Plain i) (hf : s.Lockstep r is) :
    (is.foldl BookState.step s).ServesReference (replayed r (s.taken is)) := by
  induction is generalizing s r with
  | nil => exact h
  | cons i is ih =>
    have hstep := h.step (hi i List.mem_cons_self) hf.1 hf.2.1
    have htaken : replayed r (s.taken (i :: is))
        = replayed (replayed r (s.accept i).toList) ((s.step i).taken is) :=
      List.foldl_append
    rw [htaken]
    exact ih hstep (fun j hj => hi j (List.mem_cons_of_mem i hj)) hf.2.2

theorem servesReference_powerUp : (powerUp .simulation none).ServesReference {} :=
  ⟨rfl, _, ∅, Or.inl (rest_powerUp .simulation none), fun _ => Mirrors.powerUp⟩

/-- **The hardware book equals the reference.** In a run of admissible messages none of whose INSERTs
runs out of probes, what the hardware shows at each commit is what the reference shows after the
messages taken so far; and every message taken is committed. -/
theorem hardware_equals_reference (is : List EngineIn) (hi : ∀ i ∈ is, Plain i)
    (hf : (powerUp .simulation none).Lockstep {} is) :
    let s := is.foldl BookState.step (powerUp .simulation none)
    (s.engine.engineDone = true → ∀ i, Plain i →
      Matches (s.step i) (replayed {} ((powerUp .simulation none).taken is)))
      ∧ ∀ i d, Plain i → s.accept i = some d →
        ∃ n, ∀ js : List EngineIn, js.length = n → (∀ j ∈ js, Plain j) →
          ((i :: js).foldl BookState.step s).engine.engineDone = true ∧ s.taken (i :: js) = [d] := by
  intro s
  have hrun := servesReference_powerUp.run is hi hf
  obtain ⟨k, live, hserving, -⟩ := hrun.serves
  refine ⟨fun hdone i hplain => ?_, fun i d hplain hacc => ?_⟩
  · have hrest := hserving.rest_of_done hdone
    obtain ⟨live', hm⟩ := hrun.mirrors hrest
    exact matches_of_mirrors hrest hm hplain
  · have hrest := (hserving.step_some hplain hacc).1
    obtain ⟨n, hn⟩ := serves.run_of_leads (serves.serve hrest hplain hacc trivial)
    refine ⟨n, fun js hlen hjs => ⟨(hn js hlen hjs).1.2, ?_⟩⟩
    show (s.accept i).toList ++ taken (s.step i) js = [d]
    rw [hacc, show taken (s.step i) js = [] from (hn js hlen hjs).2]
    rfl

/-- An order, an execution of two of its shares, and a Replace of the others. -/
def executedOrder : List Decoded :=
  [{ mtype := tAdd, isBid := true, price := 100, shares := 5, orderRef := 7 },
    { mtype := tExec, shares := 2, orderRef := 7 },
    { mtype := tReplace, price := 101, shares := 4, orderRef := 7, newOrderRef := 8 }]

/-- They are offered one by one; the last commits at the end. -/
def executedRun : List EngineIn := executedOrder.flatMap fun d => offer d :: List.replicate 26 {}

theorem hardware_equals_reference_executed :
    Matches (((executedRun.foldl BookState.step (powerUp .simulation none)).step {}))
      (replayed {} executedOrder) := by
  have hplain : ∀ i ∈ executedRun, Plain i := by
    intro i hi
    obtain ⟨d, -, hd⟩ := List.mem_flatMap.mp hi
    rcases List.mem_cons.mp hd with rfl | hi
    · exact ⟨rfl, rfl⟩
    · rw [List.eq_of_mem_replicate hi]
      exact ⟨rfl, rfl⟩
  have hlock : (powerUp .simulation none).Lockstep {} executedRun := by decide +kernel
  have hdone : (executedRun.foldl BookState.step (powerUp .simulation none)).engine.engineDone
      = true := by decide +kernel
  have htaken : (powerUp .simulation none).taken executedRun = executedOrder := by decide +kernel
  rw [← htaken]
  exact (hardware_equals_reference executedRun hplain hlock).1 hdone {} ⟨rfl, rfl⟩

end BookState

end ItchOrderbook.Rtl
