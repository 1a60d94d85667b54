import ItchOrderbook.Util.ItchGenMirror

/-!
# When generated streams are clean

A stream is clean when the book engine applies all its messages and never shows a crossed book. It
is what the generator is for, and it fails three ways: the symbol with index 11 has both its sides
cut off at `max_price`, the one with index 65535 has the locate 0, and 4,294,968 orders of 1000
shares overflow a level. `generate_clean_iff` says that there is no other.
-/

namespace ItchOrderbook

open BookEngine LiveOrders

/-! ## Replays -/

/-- The engine after the messages, with room in its table for `capacity` orders. -/
def replayed (capacity : ℕ) (ms : List DecodedMessage) : BookEngine RefMap :=
  (BookEngine.new 1000000 (RefMap.new capacity)).run ms

/-- At every point of the replay the message was applied and no book is crossed. -/
def FaultlessReplay (capacity : ℕ) (ms : List DecodedMessage) : Prop :=
  ∀ k ≤ ms.length,
    let e := replayed capacity (ms.take k)
    (0 < k → e.lastStatus = .applied) ∧
      ∀ locate, e.bestBid locate ≠ 0 → e.bestAsk locate ≠ 0 → e.bestBid locate < e.bestAsk locate

/-- The stream of `n` steps is clean, in any table with room for all its orders. -/
def ItchGenerator.Clean (g : ItchGenerator) (n : ℕ) : Prop :=
  (parsedMessages (g.generate n).out).length = n + 4 ∧
    ∀ capacity, n ≤ capacity → FaultlessReplay capacity (parsedMessages (g.generate n).out)

section

variable {capacity : ℕ} {ms : List DecodedMessage} {m : DecodedMessage}

theorem replayed_snoc : replayed capacity (ms ++ [m]) = (replayed capacity ms).next m := by
  rw [replayed, BookEngine.run, List.foldl_append]
  rfl

theorem faultlessReplay_nil : FaultlessReplay capacity [] := by
  intro k hk
  obtain rfl : k = 0 := Nat.le_zero.mp hk
  exact ⟨fun h => absurd h (Nat.lt_irrefl 0), fun _ h => absurd rfl h⟩

theorem FaultlessReplay.left {tail : List DecodedMessage}
    (h : FaultlessReplay capacity (ms ++ tail)) :
    FaultlessReplay capacity ms := by
  intro k hk
  have hpart := h k (by rw [List.length_append]; omega)
  rwa [List.take_append_of_le_length hk] at hpart

theorem FaultlessReplay.last (h : FaultlessReplay capacity (ms ++ [m])) :
    ((replayed capacity ms).next m).lastStatus = .applied := by
  have hall := (h (ms ++ [m]).length le_rfl).1 (by simp)
  rwa [List.take_length, replayed_snoc] at hall

theorem FaultlessReplay.uncrossed (h : FaultlessReplay capacity ms) (locate : UInt16)
    (hbid : (replayed capacity ms).bestBid locate ≠ 0)
    (hask : (replayed capacity ms).bestAsk locate ≠ 0) :
    (replayed capacity ms).bestBid locate < (replayed capacity ms).bestAsk locate := by
  have hall := (h ms.length le_rfl).2 locate
  rw [List.take_length] at hall
  exact hall hbid hask

theorem FaultlessReplay.snoc (h : FaultlessReplay capacity ms)
    (hs : ((replayed capacity ms).next m).lastStatus = .applied)
    (hun : ∀ locate, ((replayed capacity ms).next m).bestBid locate ≠ 0 →
      ((replayed capacity ms).next m).bestAsk locate ≠ 0 →
      ((replayed capacity ms).next m).bestBid locate <
        ((replayed capacity ms).next m).bestAsk locate) :
    FaultlessReplay capacity (ms ++ [m]) := by
  intro k hk
  rcases Nat.lt_or_ge ms.length k with hlt | hge
  · rw [List.take_of_length_le (by simp; omega), replayed_snoc]
    exact ⟨fun _ => hs, hun⟩
  · rw [List.take_append_of_le_length hge]
    exact h k hge

end

namespace ItchGenerator

/-! ## What is written so far -/

/-- The stream so far is read as these messages. -/
def Written (g : ItchGenerator) (ms : List DecodedMessage) : Prop :=
  ∃ bodies : List (List UInt8), (∀ b ∈ bodies, b ≠ [] ∧ b.length < 65536) ∧
    g.out = bodies.flatMap Framing.frame ∧ bodies.map decoded = ms

variable {g g' : ItchGenerator} {ms : List DecodedMessage} {m : DecodedMessage}

theorem Written.snoc (h : Written g ms) (hm : Emits g m g') : Written g' (ms ++ [m]) := by
  obtain ⟨bodies, hb, hout, rfl⟩ := h
  obtain ⟨body, hne, hlen, hout', rfl⟩ := hm.written
  refine ⟨bodies ++ [body], fun b hmem => ?_, ?_, by rw [List.map_append, List.map_singleton]⟩
  · rcases List.mem_append.mp hmem with hold | hnew
    · exact hb b hold
    · rw [List.mem_singleton.mp hnew]
      exact ⟨hne, hlen⟩
  · rw [hout', hout, List.flatMap_append, List.flatMap_singleton]

theorem Written.parsed (h : Written g ms) : parsedMessages g.out = ms := by
  obtain ⟨bodies, hb, hout, rfl⟩ := h
  have hall : bodies.takeWhile (· ≠ []) = bodies :=
    List.takeWhile_eq_self_iff.mpr fun b hmem => decide_eq_true (hb b hmem).1
  rw [hout, parsedMessages_eq, streamBodies, Framing.split_flatMap fun b hmem => (hb b hmem).2,
    hall]

theorem steps_add (g : ItchGenerator) (i j : ℕ) : g.steps (i + j) = (g.steps i).steps j := by
  induction j with
  | zero => rfl
  | succ j ih => rw [← Nat.add_assoc, steps, ih, steps]

/-- Each step writes one message. Induction on the steps. -/
theorem written_steps (h : g.cfg.Standard) (hq : ∀ o ∈ g.live, o.Quoted g.cfg.numSymbols)
    (hw : Written g ms) (n : ℕ) : ∃ tail, tail.length = n ∧ Written (g.steps n) (ms ++ tail) := by
  suffices h : ∃ tail, tail.length = n ∧ Written (g.steps n) (ms ++ tail) ∧
      (g.steps n).cfg = g.cfg ∧ ∀ o ∈ (g.steps n).live, o.Quoted g.cfg.numSymbols by
    obtain ⟨tail, hlen, hwritten, -⟩ := h
    exact ⟨tail, hlen, hwritten⟩
  induction n with
  | zero => exact ⟨[], rfl, by rwa [List.append_nil], rfl, hq⟩
  | succ n ih =>
    obtain ⟨tail, hlen, hwritten, hcfg, hquoted⟩ := ih
    obtain ⟨m, hm⟩ := step_emits (g := g.steps n) (hcfg ▸ h) (hcfg ▸ hquoted)
    refine ⟨tail ++ [m], by simp [hlen], ?_, hm.cfg.trans hcfg,
      hcfg ▸ hm.effect.quoted (hcfg ▸ hquoted)⟩
    rw [← List.append_assoc]
    exact hwritten.snoc hm

/-- The generator behind its two opening messages. -/
def opened (g : ItchGenerator) : ItchGenerator :=
  ({ g with out := [], stats := {} }.emitSystem evtStartMessages).emitSystem evtStartHours

/-- The messages after `i` of the steps are followed by those of the other steps and the closing
two. -/
theorem parsed_generate {i j : ℕ} (h : (g.opened.steps i).cfg.Standard)
    (hq : ∀ o ∈ (g.opened.steps i).live, o.Quoted (g.opened.steps i).cfg.numSymbols)
    (hw : Written (g.opened.steps i) ms) : ∃ tail, tail.length = j + 2 ∧
      parsedMessages (g.generate (i + j)).out = ms ++ tail := by
  obtain ⟨tail, hlen, hsteps⟩ := written_steps h hq hw j
  rw [← steps_add] at hsteps
  obtain ⟨m₁, -, hm₁⟩ := @emitSystem_emits (g.opened.steps (i + j)) evtEndHours
  obtain ⟨m₂, -, hm₂⟩ :=
    @emitSystem_emits ((g.opened.steps (i + j)).emitSystem evtEndHours) evtEndMessages
  refine ⟨tail ++ [m₁] ++ [m₂], by simp [hlen], ?_⟩
  have hall := ((hsteps.snoc hm₁).snoc hm₂).parsed
  simp only [List.append_assoc] at hall ⊢
  exact hall

/-! ## The book that follows -/

/-- The generator has given out at most `k` references, and a book that applied all its messages
holds its live orders. -/
structure Followed (capacity k : ℕ) (g : ItchGenerator) (ms : List DecodedMessage) : Prop where
  standard : g.cfg.Standard
  written : Written g ms
  counted : Counted g.cfg.numSymbols k g.live g.nextRef
  capacity_eq : (replayed capacity ms).refs.capacity = capacity
  inv : (replayed capacity ms).Inv
  mirrored : FaultlessReplay capacity ms → Mirrored (replayed capacity ms) g.live

section

variable {capacity k : ℕ}

theorem capacity_next {e : BookEngine RefMap} (h : e.Inv) (m : DecodedMessage) :
    (e.next m).refs.capacity = e.refs.capacity :=
  (step_outcome h m).shape.capacity

theorem Followed.emit (h : Followed capacity k g ms) (hm : Emits g m g') (hk : k + 2 < 2 ^ 64) :
    Followed capacity (k + 1) g' (ms ++ [m]) where
  standard := hm.cfg ▸ h.standard
  written := h.written.snoc hm
  counted := hm.cfg ▸ hm.effect.counted hk h.counted
  capacity_eq := by rw [replayed_snoc, capacity_next h.inv, h.capacity_eq]
  inv := by
    rw [replayed_snoc]
    exact h.inv.next m
  mirrored hc := by
    rw [replayed_snoc]
    exact (h.mirrored hc.left).step h.counted hm.effect hc.last

/-- A system event gives out no reference. -/
theorem Followed.system (h : Followed capacity k g ms) (code : UInt8) :
    ∃ m, m.type = .systemEvent ∧ Followed capacity k (g.emitSystem code) (ms ++ [m]) := by
  obtain ⟨m, ht, hm⟩ := @emitSystem_emits g code
  refine ⟨m, ht, hm.cfg ▸ h.standard, h.written.snoc hm, h.counted, ?_, ?_, fun hc => ?_⟩
  · rw [replayed_snoc, capacity_next h.inv, h.capacity_eq]
  · rw [replayed_snoc]
    exact h.inv.next m
  · rw [replayed_snoc]
    exact (h.mirrored hc.left).step h.counted (.other (.inl ht)) hc.last

/-- The message of a step keeps the replay clean. -/
theorem Followed.clean_emit (h : Followed capacity k g ms) (hc : FaultlessReplay capacity ms)
    (hm : Emits g m g') (hsym : g.cfg.numSymbols ≤ 65535) (hk : k < 4294967) (hroom : k < capacity)
    (hsep : g.cfg.numSymbols ≤ 11 ∨ k = 0) : FaultlessReplay capacity (ms ++ [m]) := by
  have hmirror := h.mirrored hc
  have hs := hmirror.applied h.counted hsym hk (h.capacity_eq.symm ▸ hroom) hm.effect
  have hcount := hm.effect.counted (by omega) h.counted
  have hlength := hcount.length
  have hnext := hcount.next_le
  have hsep' : g.cfg.numSymbols ≤ 11 ∨ g'.live.length ≤ 1 := hsep.imp_right fun h0 => by omega
  exact hc.snoc hs fun locate =>
    (hmirror.step h.counted hm.effect hs).uncrossed hcount.quoted hsep' locate

theorem Followed.clean_system (h : Followed capacity k g ms) (hc : FaultlessReplay capacity ms)
    (ht : m.type = .systemEvent) (hsep : g.cfg.numSymbols ≤ 11 ∨ k ≤ 1) :
    FaultlessReplay capacity (ms ++ [m]) := by
  have hmirror := h.mirrored hc
  have hs := applied_of_no_reason hmirror.inv fun st => @Mirrored.no_reason_other _ m (.inl ht) st
  have hlength := h.counted.length
  have hnext := h.counted.next_le
  have hsep' : g.cfg.numSymbols ≤ 11 ∨ g.live.length ≤ 1 := hsep.imp_right fun h0 => by omega
  exact hc.snoc hs fun locate =>
    (hmirror.step h.counted (.other (.inl ht)) hs).uncrossed h.counted.quoted hsep' locate

end

/-- A fresh generator, over any draws. -/
def start (cfg : GenConfig) (draws : ℕ → UInt64) : ItchGenerator := { cfg := cfg, rng := draws }

variable {cfg : GenConfig} {draws : ℕ → UInt64}

theorem followed_start (h : cfg.Standard) (capacity : ℕ) :
    Followed capacity 0 (start cfg draws) [] where
  standard := h
  written := ⟨[], List.forall_mem_nil _, rfl, rfl⟩
  counted := counted_new
  capacity_eq := rfl
  inv := inv_new _ _
  mirrored _ := mirrored_new capacity

/-- The opening is followed, and clean. -/
theorem followed_opened (h : cfg.Standard) (capacity : ℕ) : ∃ ms, ms.length = 2 ∧
    Followed capacity 0 (start cfg draws).opened ms ∧ FaultlessReplay capacity ms := by
  have hstart := @followed_start cfg draws h capacity
  obtain ⟨m₁, ht₁, h₁⟩ := hstart.system evtStartMessages
  obtain ⟨m₂, ht₂, h₂⟩ := h₁.system evtStartHours
  have hc₁ := hstart.clean_system faultlessReplay_nil ht₁ (.inr (by decide))
  exact ⟨_, rfl, h₂, h₁.clean_system hc₁ ht₂ (.inr (by decide))⟩

/-- The steps are followed. Induction on them; each gives out one reference at most. -/
theorem followed_steps (h : cfg.Standard) (capacity : ℕ) {n : ℕ} (hn : n + 1 < 2 ^ 64) :
    ∃ ms, ms.length = n + 2 ∧ ((start cfg draws).opened.steps n).cfg = cfg ∧
      Followed capacity n ((start cfg draws).opened.steps n) ms ∧
      (n = 0 ∨ (n = 1 ∧ cfg.numSymbols ≤ 65535) ∨ (n ≤ 4294967 ∧ cfg.numSymbols ≤ 11) →
        n ≤ capacity → FaultlessReplay capacity ms) := by
  induction n with
  | zero =>
    obtain ⟨ms, hlen, hms, hc⟩ := @followed_opened cfg draws h capacity
    exact ⟨ms, hlen, rfl, hms, fun _ _ => hc⟩
  | succ n ih =>
    obtain ⟨ms, hlen, hcfg, hms, hc⟩ := ih (by omega)
    obtain ⟨m, hm⟩ := step_emits hms.standard hms.counted.quoted
    refine ⟨ms ++ [m], by simp [hlen], hm.cfg.trans hcfg, hms.emit hm (by omega),
      fun hcond hroom => ?_⟩
    have hbefore := hc (by omega) (by omega)
    exact hms.clean_emit hbefore hm (by rw [hcfg]; omega) (by omega) (by omega)
      (by rw [hcfg]; omega)

/-- The stream is clean where neither symbols nor orders are too many. -/
theorem clean_of_small (h : cfg.Standard) {n : ℕ}
    (hcond : n = 0 ∨ (n = 1 ∧ cfg.numSymbols ≤ 65535) ∨ (n ≤ 4294967 ∧ cfg.numSymbols ≤ 11)) :
    (start cfg draws).Clean n := by
  have hclosed (capacity : ℕ) : ∃ ms, ms.length = n + 4 ∧
      parsedMessages ((start cfg draws).generate n).out = ms ∧
      (n ≤ capacity → FaultlessReplay capacity ms) := by
    obtain ⟨ms, hlen, hcfg, hms, hc⟩ := @followed_steps cfg draws h capacity n (by omega)
    obtain ⟨m₁, ht₁, h₁⟩ := hms.system evtEndHours
    obtain ⟨m₂, ht₂, h₂⟩ := h₁.system evtEndMessages
    have hsep : ((start cfg draws).opened.steps n).cfg.numSymbols ≤ 11 ∨ n ≤ 1 := by
      rw [hcfg]
      omega
    refine ⟨_, by simp [hlen], h₂.written.parsed, fun hroom => ?_⟩
    exact h₁.clean_system (hms.clean_system (hc hcond hroom) ht₁ hsep) ht₂ hsep
  refine ⟨?_, fun capacity hroom => ?_⟩
  · obtain ⟨ms, hlen, hparsed, -⟩ := hclosed 0
    rw [hparsed, hlen]
  · obtain ⟨ms, -, hparsed, hc⟩ := hclosed capacity
    rw [hparsed]
    exact hc hroom

/-! ## Draws that add orders only -/

/-- Draws of a symbol: in each step, behind `lead` zeroes, an order of 1000 shares one tick off the
middle, on the side that the step has. -/
def ordersOnly (lead sym : ℕ) (buys : ℕ → Bool) (i : ℕ) : UInt64 :=
  let draw := i % (lead + 5)
  if draw = lead then UInt64.ofNat sym
  else if draw = lead + 1 then (if buys (i / (lead + 5)) then 1 else 0)
  else if draw = lead + 4 then 999 else 0

/-- Draw `r` of step `j`. -/
theorem ordersOnly_at (lead sym : ℕ) (buys : ℕ → Bool) (j : ℕ) {r : ℕ} (hr : r < lead + 5) :
    ordersOnly lead sym buys ((lead + 5) * j + r) =
      if r = lead then UInt64.ofNat sym
      else if r = lead + 1 then (if buys j then 1 else 0)
      else if r = lead + 4 then 999 else 0 := by
  have hdiv : ((lead + 5) * j + r) / (lead + 5) = j := by
    rw [Nat.mul_add_div (by omega), Nat.div_eq_of_lt hr, Nat.add_zero]
  have hmod : ((lead + 5) * j + r) % (lead + 5) = r := by
    rw [Nat.mul_add_mod, Nat.mod_eq_of_lt hr]
  simp only [ordersOnly, hdiv, hmod]

/-- The order of step `j`, as the book keeps it. -/
def orderOf (cfg : GenConfig) (sym : ℕ) (buys : ℕ → Bool) (j : ℕ) : Value where
  price := quoteAt cfg sym (if buys j then sideBuy else sideSell) 1
  shares := 1000
  locate := UInt16.ofNat (sym + 1)
  side := if buys j then sideBuy else sideSell

/-- Zeroes make the price one tick off, 999 makes the size 1000. -/
theorem emitAdd_live (h : g.cfg.Standard) (mpid : Bool) {sym : ℕ} (hsym : sym < g.cfg.numSymbols)
    {buy : Bool} (hdraw : g.rng g.drawn = UInt64.ofNat sym)
    (hside : g.rng (g.drawn + 1) = if buy then 1 else 0) (hk : g.rng (g.drawn + 2) = 0)
    (hk₂ : g.rng (g.drawn + 3) = 0) (hshares : g.rng (g.drawn + 4) = 999) :
    ∃ o, (g.emitAdd mpid).live = g.live ++ [o] ∧
      o.value = ⟨quoteAt g.cfg sym (if buy then sideBuy else sideSell) 1, 1000,
        UInt16.ofNat (sym + 1), if buy then sideBuy else sideSell⟩ := by
  have hint := g.cfg.int
  have h₁ : g.drawSymbol.1 = sym := by
    show (g.rng g.drawn).toNat % g.cfg.numSymbols = sym
    rw [hdraw, UInt64.toNat_ofNat', Nat.mod_eq_of_lt (a := sym) (by omega), Nat.mod_eq_of_lt hsym]
  have h₂ : (g.skip 1).drawSide.1 = if buy then sideBuy else sideSell := by
    show (if g.rng (g.drawn + 1) &&& 1 ≠ 0 then sideBuy else sideSell) = _
    rw [hside]
    cases buy <;> rfl
  have h₃ : ((g.skip 2).randPrice sym (if buy then sideBuy else sideSell)).1 =
      quoteAt g.cfg sym (if buy then sideBuy else sideSell) 1 := by
    rw [randPrice_fst]
    have hzero₁ : ((g.skip 2).drawUpTo (g.skip 2).cfg.bandTicks).1 = 1 := by
      show 1 + (g.rng (g.drawn + 2) % g.cfg.bandTicks.toUInt64).toUInt32 = 1
      rw [hk, h.bandTicks]
      decide
    have hzero₂ : (((g.skip 2).skip 1).drawUpTo (g.skip 2).cfg.bandTicks).1 = 1 := by
      show 1 + (g.rng (g.drawn + 3) % g.cfg.bandTicks.toUInt64).toUInt32 = 1
      rw [hk₂, h.bandTicks]
      decide
    rw [hzero₁, hzero₂]
    rfl
  have h₄ : ((g.skip 4).drawUpTo g.cfg.maxShares).1 = 1000 := by
    show 1 + (g.rng (g.drawn + 4) % g.cfg.maxShares.toUInt64).toUInt32 = 1000
    rw [hshares, h.maxShares]
    decide
  have hlive : (g.emitAdd mpid).live = g.live ++ [⟨g.nextRef, UInt16.ofNat (g.drawSymbol.1 + 1),
      (g.skip 1).drawSide.1, ((g.skip 2).randPrice g.drawSymbol.1 (g.skip 1).drawSide.1).1,
      ((g.skip 4).drawUpTo g.cfg.maxShares).1⟩] := rfl
  rw [h₁, h₂, h₃, h₄] at hlive
  exact ⟨_, hlive, rfl⟩

/-- The zeroes in front: one for the clock, and one for the roll or, where steps can sweep, three
for the sweep of an empty side. -/
def leadOf (cfg : GenConfig) : ℕ := if cfg.aggressProb > 0 then 4 else 2

/-- The generator after `j` steps of such draws. -/
structure AddsOnly (cfg : GenConfig) (sym : ℕ) (buys : ℕ → Bool) (j : ℕ) (g : ItchGenerator) :
    Prop where
  cfg_eq : g.cfg = cfg
  rng : g.rng = ordersOnly (leadOf cfg) sym buys
  drawn : g.drawn = (leadOf cfg + 5) * j
  live : g.live.map LiveOrder.value = (List.range j).map (orderOf cfg sym buys)

section

variable {sym : ℕ} {buys : ℕ → Bool} {j : ℕ}

theorem AddsOnly.draw_lead (h : AddsOnly cfg sym buys j g) {r : ℕ} (hr : r < leadOf cfg) :
    g.rng (g.drawn + r) = 0 := by
  rw [h.rng, h.drawn, ordersOnly_at _ _ _ _ (by omega), if_neg (by omega), if_neg (by omega),
    if_neg (by omega)]

theorem AddsOnly.draw_order (h : AddsOnly cfg sym buys j g) {r : ℕ} (hr : r < 5) :
    g.rng (g.drawn + leadOf cfg + r) = if r = 0 then UInt64.ofNat sym
      else if r = 1 then (if buys j then 1 else 0) else if r = 4 then 999 else 0 := by
  rw [h.rng, h.drawn, Nat.add_assoc, ordersOnly_at _ _ _ _ (by omega)]
  simp only [Nat.add_eq_left, Nat.add_left_cancel_iff]

theorem AddsOnly.exists_order (h : AddsOnly cfg sym buys j g) {i : ℕ} (hi : i < j) :
    ∃ o ∈ g.live, o.value = orderOf cfg sym buys i := by
  have hmem : orderOf cfg sym buys i ∈ g.live.map LiveOrder.value := by
    rw [h.live]
    exact List.mem_map.mpr ⟨i, List.mem_range.mpr hi, rfl⟩
  exact List.mem_map.mp hmem

theorem AddsOnly.value_eq (h : AddsOnly cfg sym buys j g) {o : LiveOrder} (ho : o ∈ g.live) :
    ∃ i, o.value = orderOf cfg sym buys i := by
  have hmem : o.value ∈ g.live.map LiveOrder.value := List.mem_map.mpr ⟨o, ho, rfl⟩
  rw [h.live] at hmem
  obtain ⟨i, -, hi⟩ := List.mem_map.mp hmem
  exact ⟨i, hi.symm⟩

theorem AddsOnly.length_eq (h : AddsOnly cfg sym buys j g) : g.live.length = j := by
  have hlen := congrArg List.length h.live
  rwa [List.length_map, List.length_map, List.length_range] at hlen

/-- A sweep of the first symbol's asks finds none, if the orders are of another symbol or bids. -/
theorem AddsOnly.no_sweep (h : AddsOnly cfg sym buys j g)
    (hfree : UInt16.ofNat (sym + 1) ≠ 1 ∨ ∀ j, buys j = true) :
    sweepBest g.live 1 sideSell = none := by
  cases hbest : sweepBest g.live 1 sideSell with
  | none => rfl
  | some i =>
    obtain ⟨o, ho, hloc, hside⟩ := sweepBest_some hbest
    obtain ⟨i, hi⟩ := h.value_eq (List.mem_of_getElem? ho)
    have hloc' : UInt16.ofNat (sym + 1) = 1 := (congrArg Value.locate hi).symm.trans hloc
    have hside' : (if buys i then sideBuy else sideSell) = sideSell :=
      (congrArg Value.side hi).symm.trans hside
    rcases hfree with hother | hbids
    · exact absurd hloc' hother
    · rw [hbids i, if_pos rfl] at hside'
      exact absurd hside'.symm sideSell_ne_sideBuy

theorem AddsOnly.added {g₀ : ItchGenerator} {mpid : Bool} (h : AddsOnly cfg sym buys j g)
    (hstd : cfg.Standard) (hsym : sym < cfg.numSymbols) (hcfg : g₀.cfg = g.cfg)
    (hrng : g₀.rng = g.rng) (hdrawn : g₀.drawn = g.drawn + leadOf cfg) (hlive : g₀.live = g.live) :
    AddsOnly cfg sym buys (j + 1) (g₀.emitAdd mpid).notePeak := by
  have hcfg' := hcfg.trans h.cfg_eq
  have hdraw {r : ℕ} (hr : r < 5) : g₀.rng (g₀.drawn + r) = if r = 0 then UInt64.ofNat sym
      else if r = 1 then (if buys j then 1 else 0) else if r = 4 then 999 else 0 := by
    rw [hrng, hdrawn]
    exact h.draw_order hr
  obtain ⟨o, hadd, hval⟩ := @emitAdd_live g₀ (hcfg' ▸ hstd) mpid sym (hcfg' ▸ hsym) (buys j)
    (hdraw (r := 0) (by decide)) (hdraw (r := 1) (by decide)) (hdraw (r := 2) (by decide))
    (hdraw (r := 3) (by decide)) (hdraw (r := 4) (by decide))
  refine ⟨hcfg', hrng.trans h.rng, ?_, ?_⟩
  · show g₀.drawn + 5 = _
    rw [hdrawn, h.drawn, Nat.mul_add, Nat.mul_one]
    omega
  · show (g₀.emitAdd mpid).live.map LiveOrder.value = _
    rw [hadd, List.map_append, hlive, h.live, List.range_succ, List.map_append, List.map_singleton,
      List.map_singleton, hval, hcfg']
    rfl

theorem AddsOnly.step (h : AddsOnly cfg sym buys j g) (hstd : cfg.Standard)
    (hsym : sym < cfg.numSymbols) (hfree : UInt16.ofNat (sym + 1) ≠ 1 ∨ ∀ j, buys j = true) :
    AddsOnly cfg sym buys (j + 1) g.step := by
  have hcfg := h.cfg_eq
  rw [step_eq, hcfg]
  by_cases hagg : cfg.aggressProb > 0
  · have hlead : leadOf cfg = 4 := if_pos hagg
    have hpos : (0 : UInt64) % 100 < cfg.aggressProb.toUInt64 := by
      rw [UInt64.lt_iff_toNat_lt, UInt32.toNat_toUInt64]
      exact UInt32.lt_iff_toNat_lt.mp hagg
    have hsym₀ : (g.clocked.skip 1).drawSymbol.1 = 0 := by
      show (g.rng (g.drawn + 2)).toNat % g.cfg.numSymbols = 0
      rw [h.draw_lead (by omega), UInt64.toNat_zero, Nat.zero_mod]
    have hside₀ : ((g.clocked.skip 1).skip 1).drawSide.1 = sideSell := by
      show (if g.rng (g.drawn + 3) &&& 1 ≠ 0 then sideBuy else sideSell) = sideSell
      rw [h.draw_lead (by omega)]
      rfl
    have hnone : sweepBest (g.clocked.skip 1).live (UInt16.ofNat (0 + 1)) sideSell = none :=
      h.no_sweep hfree
    rw [if_pos hagg, h.draw_lead (by omega), if_pos hpos, emitSweep_eq, hsym₀, hside₀, hnone]
    exact h.added hstd hsym rfl rfl (by rw [hlead]; rfl) rfl
  · have hlead : leadOf cfg = 2 := if_neg hagg
    rw [if_neg hagg, h.draw_lead (by omega)]
    have hroll : (g.clocked.skip 1).emitRolled ((0 : UInt64) % 100).toNat =
        (g.clocked.skip 1).emitAdd true := by
      unfold emitRolled
      rw [if_pos (.inr (by decide))]
      rfl
    rw [hroll]
    exact h.added hstd hsym rfl rfl (by rw [hlead]; rfl) rfl

theorem addsOnly_steps (hstd : cfg.Standard) (hsym : sym < cfg.numSymbols)
    (hfree : UInt16.ofNat (sym + 1) ≠ 1 ∨ ∀ j, buys j = true) (n : ℕ) : AddsOnly cfg sym buys n
      ((start cfg (ordersOnly (leadOf cfg) sym buys)).opened.steps n) := by
  induction n with
  | zero => exact ⟨rfl, rfl, rfl, rfl⟩
  | succ n ih => exact ih.step hstd hsym hfree

end

/-! ## Streams that are not clean -/

/-- A clean stream is clean up to any step. -/
theorem Clean.replay {i j capacity : ℕ} (hc : (start cfg draws).Clean (i + j))
    (hms : Followed capacity i ((start cfg draws).opened.steps i) ms) (hroom : i + j ≤ capacity) :
    FaultlessReplay capacity ms := by
  obtain ⟨tail, -, hparsed⟩ := @parsed_generate _ _ i j hms.standard hms.counted.quoted hms.written
  have hall := hc.2 capacity hroom
  rw [hparsed] at hall
  exact hall.left

/-- Both sides of the symbol with index 11 are cut off at the same price. -/
theorem quoteAt_cut (h : cfg.Standard) (side : UInt8) : quoteAt cfg 11 side 1 = 999990 := by
  have hmid : (cfg.mid 11).toNat = 1050000 := by
    rw [GenConfig.mid, h.basePrice, h.symSpacing, h.tick]
    rfl
  have hone : (1 : UInt32).toNat = 1 := rfl
  have hp := quoteAt_toNat h 11 side 1
  rw [hmid, hone] at hp
  refine UInt32.toNat_inj.mp (Int.natCast_inj.mp (hp.trans ?_))
  split <;> rfl

/-- A bid and an ask of that symbol leave its book locked. -/
theorem not_clean_cut (h : cfg.Standard) (hsym : 12 ≤ cfg.numSymbols) (j : ℕ) :
    ¬(start cfg (ordersOnly (leadOf cfg) 11 fun i => i == 0)).Clean (2 + j) := by
  intro hc
  obtain ⟨ms, -, -, hms, -⟩ := @followed_steps cfg
    (ordersOnly (leadOf cfg) 11 fun i => i == 0) h (2 + j) 2 (by decide)
  have hreplay := hc.replay hms le_rfl
  have hmirror := hms.mirrored hreplay
  have hadds := @addsOnly_steps cfg 11 (fun i => i == 0) h hsym (.inl (by decide)) 2
  obtain ⟨bid, hbid, hbidv⟩ := hadds.exists_order (i := 0) (by decide)
  obtain ⟨ask, hask, haskv⟩ := hadds.exists_order (i := 1) (by decide)
  have hbids := @Mirrored.level_ne _ _ hmirror bid hbid _ hbidv .buy rfl
  have hasks := @Mirrored.level_ne _ _ hmirror ask hask _ haskv .sell rfl
  have hcut (side : UInt8) := quoteAt_cut h side
  simp only [orderOf, hcut] at hbids hasks
  have hwf := (hmirror.inv.tracks (UInt16.ofNat (11 + 1))).wellFormed
  have hupper := hwf.best_bid.upper 999990 hbids
  obtain ⟨hne, hlower⟩ := hwf.best_ask.lower 999990 hasks
  have hne' : (replayed (2 + j) ms).bestBid (UInt16.ofNat (11 + 1)) ≠ 0 := fun h0 => by
    rw [show (OrderBook.bestBid _ : UInt32) = 0 from h0] at hupper
    exact absurd hupper (by decide)
  have hlt := hreplay.uncrossed (UInt16.ofNat (11 + 1)) hne' hne
  exact UInt32.lt_irrefl _ (UInt32.lt_of_le_of_lt hupper (UInt32.lt_of_lt_of_le hlt hlower))

/-- 4,294,968 orders of 1000 shares at one price are more than a level counts. -/
theorem not_clean_full (h : cfg.Standard) (j : ℕ) :
    ¬(start cfg (ordersOnly (leadOf cfg) 0 fun _ => true)).Clean (4294968 + j) := by
  intro hc
  obtain ⟨ms, -, -, hms, -⟩ := @followed_steps cfg
    (ordersOnly (leadOf cfg) 0 fun _ => true) h (4294968 + j) 4294968 (by decide)
  have hmirror := hms.mirrored (hc.replay hms le_rfl)
  have hadds := @addsOnly_steps cfg 0 (fun _ => true) h cfg.pos (.inr fun _ => rfl) 4294968
  have hlength := hadds.length_eq
  generalize (start cfg (ordersOnly (leadOf cfg) 0 fun _ => true)).opened.steps 4294968 = g at *
  have hall : ∀ o ∈ g.live, o.value = orderOf cfg 0 (fun _ => true) 0 := fun o ho => by
    obtain ⟨i, hi⟩ := hadds.value_eq ho
    exact hi
  have hshares := @Mirrored.sharesAt_eq _ _ hmirror _ hall .buy rfl
  rw [← (hmirror.inv.tracks _).shares, hlength] at hshares
  have hlt := (((replayed (4294968 + j) ms).bookOf
    (orderOf cfg 0 (fun _ => true) 0).locate).levels .buy
      (orderOf cfg 0 (fun _ => true) 0).price).totalShares.toNat_lt
  have hthousand : (orderOf cfg 0 (fun _ => true) 0).shares.toNat = 1000 := rfl
  omega

/-- The locate of the symbol with index 65535 is 0, which no order has. -/
theorem not_clean_locate (h : cfg.Standard) (hsym : 65536 ≤ cfg.numSymbols) (j : ℕ) :
    ¬(start cfg (ordersOnly (leadOf cfg) 65535 fun _ => true)).Clean (1 + j) := by
  intro hc
  obtain ⟨ms, -, -, hms, -⟩ := @followed_steps cfg
    (ordersOnly (leadOf cfg) 65535 fun _ => true) h (1 + j) 0 (by decide)
  have hadds := @addsOnly_steps cfg 65535 (fun _ => true) h hsym (.inl (by decide)) 1
  obtain ⟨m, hm⟩ := step_emits hms.standard hms.counted.quoted
  have hreplay := hc.replay (hms.emit hm (by decide)) le_rfl
  obtain ⟨o, ho, hov⟩ := hadds.exists_order (i := 0) (by decide)
  have hnil :
      ((start cfg (ordersOnly (leadOf cfg) 65535 fun _ => true)).opened.steps 0).live = [] := rfl
  have heff := hm.effect
  rw [hnil] at heff
  obtain ⟨ht, hloc⟩ := heff.of_nil ho
  -- the book takes no order without a locate
  have hzero : m.stockLocate = 0 := hloc.trans (congrArg Value.locate hov)
  exact (step_outcome hms.inv m).no_reason hreplay.last
    (.badAdd ht (.inr (.inr (.inl hzero))))

/-- **When generated streams are clean.** For every sequence of draws, exactly where there is no
order, or one order of a symbol with a locate of its own, or symbols whose two sides stay apart and
no more orders than a level can count. -/
theorem generate_clean_iff (h : cfg.Standard) (n : ℕ) :
    (∀ draws, (start cfg draws).Clean n) ↔
      n = 0 ∨ (n = 1 ∧ cfg.numSymbols ≤ 65535) ∨ (n ≤ 4294967 ∧ cfg.numSymbols ≤ 11) := by
  constructor
  · intro hall
    by_contra hcond
    rcases Nat.lt_or_ge n 4294968 with hn | hn
    · rcases Nat.lt_or_ge cfg.numSymbols 65536 with hsym | hsym
      · obtain ⟨j, rfl⟩ := Nat.exists_eq_add_of_le (show 2 ≤ n by omega)
        exact not_clean_cut h (by omega) j (hall _)
      · obtain ⟨j, rfl⟩ := Nat.exists_eq_add_of_le (show 1 ≤ n by omega)
        exact not_clean_locate h hsym j (hall _)
    · obtain ⟨j, rfl⟩ := Nat.exists_eq_add_of_le hn
      exact not_clean_full h j (hall _)
  · exact fun hcond draws => clean_of_small h hcond

/-- The defaults of `gen_itch`, four symbols and 200,000 messages, are clean. -/
theorem generate_clean_iff_default :
    let cfg : GenConfig := { numSymbols := 4, pos := by decide, int := by decide }
    ∀ draws, (start cfg draws).Clean 200000 := by
  intro cfg
  have h : cfg.Standard := ⟨rfl, rfl, rfl, rfl, rfl, rfl, rfl⟩
  exact (generate_clean_iff h 200000).mpr (.inr (.inr (by decide)))

/-- Twelve symbols and two orders, a bid and an ask at the highest price. -/
theorem twelve_symbols_not_clean :
    let cfg : GenConfig := { numSymbols := 12, pos := by decide, int := by decide }
    ¬(start cfg (ordersOnly 2 11 fun i => i == 0)).Clean 2 := by
  intro cfg
  have h : cfg.Standard := ⟨rfl, rfl, rfl, rfl, rfl, rfl, rfl⟩
  exact not_clean_cut h (by decide) 0

end ItchGenerator

end ItchOrderbook
