import ItchOrderbook.Util.ItchGenWire
import Mathlib.Data.List.Perm.Basic
import Mathlib.Tactic.IntervalCases

/-!
# One message of the generator

`Effect` is the inversion of the emitters: what one message says and what becomes of the live
orders with it. Where the orders stand in the list is left open, since `remove_live` moves them.
-/

namespace ItchOrderbook

open BigEndian

/-! ## Prices and sizes -/

/-- The fields that set prices and sizes have their defaults. -/
structure GenConfig.Standard (cfg : GenConfig) : Prop where
  basePrice : cfg.basePrice = 500000
  symSpacing : cfg.symSpacing = 50000
  tick : cfg.tick = 100
  bandTicks : cfg.bandTicks = 100
  maxPrice : cfg.maxPrice = 999990
  minPrice : cfg.minPrice = 10000
  maxShares : cfg.maxShares = 1000

theorem GenConfig.Standard.mid {cfg : GenConfig} (h : cfg.Standard) {sym : ℕ} (hsym : sym ≤ 10) :
    (cfg.mid sym).toNat = 500000 + 50000 * sym := by
  rw [GenConfig.mid, h.basePrice, h.symSpacing, h.tick]
  interval_cases sym <;> rfl

namespace ItchGenerator

variable (g : ItchGenerator)

/-- A draw from 1 up to a bound. -/
theorem drawUpTo_mem {bound : UInt32} (h : bound ≠ 0) :
    (g.drawUpTo bound).1 ≠ 0 ∧ (g.drawUpTo bound).1 ≤ bound := by
  have hb : 0 < bound.toNat := Nat.pos_of_ne_zero fun e => h (UInt32.toNat_inj.mp e)
  have hlt := Nat.mod_lt (g.rng g.drawn).toNat hb
  have hmax := bound.toNat_lt
  have hval : (g.drawUpTo bound).1.toNat = 1 + (g.rng g.drawn).toNat % bound.toNat := by
    show (1 + ((g.rng g.drawn) % bound.toUInt64).toUInt32).toNat = _
    rw [UInt32.toNat_add, UInt64.toNat_toUInt32, UInt64.toNat_mod, UInt32.toNat_toUInt64,
      UInt32.toNat_one]
    omega
  constructor
  · intro h0
    rw [h0, UInt32.toNat_zero] at hval
    omega
  · rw [UInt32.le_iff_toNat_le]
    omega

/-- The price `k` ticks off the middle, cut off at the bounds. -/
def quoteAt (cfg : GenConfig) (sym : ℕ) (side : UInt8) (k : UInt32) : UInt32 :=
  let m : ℤ := (cfg.mid sym).toNat
  let p := if side = sideBuy then m - k.toNat * cfg.tick.toNat else m + k.toNat * cfg.tick.toNat
  let p := if p < cfg.minPrice.toNat then (cfg.minPrice.toNat : ℤ) else p
  let p := if p > cfg.maxPrice.toNat then (cfg.maxPrice.toNat : ℤ) else p
  UInt32.ofNat p.toNat

theorem quoteAt_toNat {cfg : GenConfig} (h : cfg.Standard) (sym : ℕ) (side : UInt8) (k : UInt32) :
    ((quoteAt cfg sym side k).toNat : ℤ) =
      min 999990 (max 10000 (if side = sideBuy then ((cfg.mid sym).toNat : ℤ) - k.toNat * 100
        else (cfg.mid sym).toNat + k.toNat * 100)) := by
  have htick : ((100 : UInt32).toNat : ℤ) = 100 := rfl
  have hmin : ((10000 : UInt32).toNat : ℤ) = 10000 := rfl
  have hmax : ((999990 : UInt32).toNat : ℤ) = 999990 := rfl
  unfold quoteAt
  rw [h.tick, h.minPrice, h.maxPrice, htick, hmin, hmax]
  dsimp only
  rw [UInt32.toNat_ofNat']
  generalize (if side = sideBuy then _ else _ : ℤ) = p
  split <;> split <;> omega

/-- `rand_price` goes as many ticks off as the smaller of its two draws. -/
theorem randPrice_fst (sym : ℕ) (side : UInt8) : (g.randPrice sym side).1 =
    quoteAt g.cfg sym side
      (if ((g.skip 1).drawUpTo g.cfg.bandTicks).1 < (g.drawUpTo g.cfg.bandTicks).1
        then ((g.skip 1).drawUpTo g.cfg.bandTicks).1 else (g.drawUpTo g.cfg.bandTicks).1) := rfl

/-- A price is some ticks off the middle, cut off at the bounds. -/
theorem randPrice_eq (h : g.cfg.Standard) (sym : ℕ) (side : UInt8) :
    ∃ k : ℕ, 1 ≤ k ∧ k ≤ 100 ∧ ((g.randPrice sym side).1.toNat : ℤ) =
      min 999990 (max 10000 (if side = sideBuy then ((g.cfg.mid sym).toNat : ℤ) - k * 100
        else (g.cfg.mid sym).toNat + k * 100)) := by
  have hbound : g.cfg.bandTicks ≠ 0 := by rw [h.bandTicks]; decide
  have hfst := g.drawUpTo_mem hbound
  have hsnd := (g.skip 1).drawUpTo_mem hbound
  rw [randPrice_fst]
  generalize hk : (if ((g.skip 1).drawUpTo _).1 < _ then _ else _ : UInt32) = k
  have hmem : k ≠ 0 ∧ k ≤ g.cfg.bandTicks := by
    rw [← hk]
    split
    · exact hsnd
    · exact hfst
  rw [h.bandTicks, UInt32.le_iff_toNat_le] at hmem
  have hpos : k.toNat ≠ 0 := fun e => hmem.1 (UInt32.toNat_inj.mp e)
  exact ⟨k.toNat, by omega, hmem.2, quoteAt_toNat h sym side k⟩

/-- A price lies inside the bounds. -/
theorem randPrice_bounds (h : g.cfg.Standard) (sym : ℕ) (side : UInt8) :
    10000 ≤ (g.randPrice sym side).1.toNat ∧ (g.randPrice sym side).1.toNat ≤ 999990 := by
  obtain ⟨k, -, -, hp⟩ := g.randPrice_eq h sym side
  omega

/-- A bid is below the middle of its symbol. -/
theorem randPrice_bid (h : g.cfg.Standard) {sym : ℕ} (hsym : sym ≤ 10) {side : UInt8}
    (hside : side = sideBuy) :
    (g.randPrice sym side).1.toNat + 100 ≤ 500000 + 50000 * sym := by
  obtain ⟨k, hk1, hk2, hp⟩ := g.randPrice_eq h sym side
  rw [if_pos hside, h.mid hsym] at hp
  push_cast at hp
  omega

/-- An ask is above the middle of its symbol, up to what `max_price` cuts off. -/
theorem randPrice_ask (h : g.cfg.Standard) {sym : ℕ} (hsym : sym ≤ 10) {side : UInt8}
    (hside : side = sideSell) :
    500000 + 50000 * sym ≤ (g.randPrice sym side).1.toNat + 10 := by
  obtain ⟨k, hk1, hk2, hp⟩ := g.randPrice_eq h sym side
  rw [if_neg (by rw [hside]; exact sideSell_ne_sideBuy), h.mid hsym] at hp
  push_cast at hp
  omega

end ItchGenerator

/-! ## Live orders -/

/-- What the generator keeps of any live order. The prices keep the two sides apart as long as
`max_price` cuts off nothing but the asks of the last symbol. -/
structure LiveOrder.Quoted (numSymbols : ℕ) (o : LiveOrder) : Prop where
  side : o.side = sideBuy ∨ o.side = sideSell
  minPrice : 10000 ≤ o.price.toNat
  maxPrice : o.price.toNat ≤ 999990
  pos : o.shares ≠ 0
  maxShares : o.shares.toNat ≤ 1000
  locate_ne : numSymbols ≤ 65535 → o.stockLocate ≠ 0
  locate_le : numSymbols ≤ 11 → o.stockLocate.toNat ≤ 11
  bid_below : numSymbols ≤ 11 → o.side = sideBuy →
    o.price.toNat + 100 ≤ 450000 + 50000 * o.stockLocate.toNat
  ask_above : numSymbols ≤ 11 → o.side = sideSell →
    450000 + 50000 * o.stockLocate.toNat ≤ o.price.toNat + 10

/-- A message that takes an order off, or all of its shares. -/
def LiveOrder.EndedBy (o : LiveOrder) (m : DecodedMessage) : Prop :=
  m.type = .orderDelete ∨ (m.type.IsReduce ∧ m.shares = o.shares)

/-- Everything one message of the generator does. -/
inductive Effect (numSymbols : ℕ) : List LiveOrder → UInt64 → DecodedMessage →
    List LiveOrder → UInt64 → Prop where
  | other {live : List LiveOrder} {next : UInt64} {m : DecodedMessage}
      (ht : m.type = .systemEvent ∨ m.type = .trade) : Effect numSymbols live next m live next
  | add {live : List LiveOrder} {next : UInt64} {m : DecodedMessage} (o : LiveOrder)
      (ht : m.type.IsAdd) (href : o.ref = next) (hq : o.Quoted numSymbols)
      (hm : m.orderRef = o.ref ∧ m.stockLocate = o.stockLocate ∧ m.side = o.side
        ∧ m.price = o.price ∧ m.shares = o.shares) :
      Effect numSymbols live next m (live ++ [o]) (next + 1)
  | reduce {live live' : List LiveOrder} {next : UInt64} {m : DecodedMessage} (o : LiveOrder)
      (others : List LiveOrder) (hlive : live.Perm (o :: others)) (ht : m.type.IsReduce)
      (href : m.orderRef = o.ref) (h0 : m.shares ≠ 0) (hlt : m.shares < o.shares)
      (hlive' : live'.Perm ({ o with shares := o.shares - m.shares } :: others)) :
      Effect numSymbols live next m live' next
  | leave {live live' : List LiveOrder} {next : UInt64} {m : DecodedMessage} (o : LiveOrder)
      (hlive : live.Perm (o :: live')) (hend : o.EndedBy m) (href : m.orderRef = o.ref) :
      Effect numSymbols live next m live' next
  | replace {live live' : List LiveOrder} {next : UInt64} {m : DecodedMessage} (o o' : LiveOrder)
      (others : List LiveOrder) (hlive : live.Perm (o :: others)) (ht : m.type = .orderReplace)
      (href : m.orderRef = o.ref) (href' : o'.ref = next) (hq : o'.Quoted numSymbols)
      (hsame : o'.stockLocate = o.stockLocate ∧ o'.side = o.side)
      (hm : m.newOrderRef = o'.ref ∧ m.price = o'.price ∧ m.shares = o'.shares)
      (hlive' : live'.Perm (o' :: others)) :
      Effect numSymbols live next m live' (next + 1)

namespace ItchGenerator

/-- The order at a place, in front of the others. -/
theorem perm_eraseIdx {live : List LiveOrder} {i : ℕ} {o : LiveOrder} (h : live[i]? = some o) :
    live.Perm (o :: live.eraseIdx i) := by
  obtain ⟨hi, rfl⟩ := List.getElem?_eq_some_iff.mp h
  exact (List.getElem_cons_eraseIdx_perm hi).symm

/-- An order overwritten in its place. -/
theorem set_perm {live : List LiveOrder} {i : ℕ} {o : LiveOrder} (h : live[i]? = some o)
    (o' : LiveOrder) : (live.set i o').Perm (o' :: live.eraseIdx i) := by
  obtain ⟨hi, -⟩ := List.getElem?_eq_some_iff.mp h
  exact List.set_perm_cons_eraseIdx hi o'

/-- `remove_live` drops the order at `i`, whatever moves. -/
theorem removeLive_perm {live : List LiveOrder} {i : ℕ} {o : LiveOrder} (h : live[i]? = some o) :
    live.Perm (o :: removeLive live i) := by
  obtain ⟨hi, rfl⟩ := List.getElem?_eq_some_iff.mp h
  obtain ⟨front, back, rfl⟩ := List.eq_nil_or_concat live |>.resolve_left (by
    rintro rfl
    exact absurd hi (Nat.not_lt_zero i))
  have hremove : removeLive (front.concat back) i = ((front.concat back).set i back).dropLast := by
    simp [removeLive]
  rw [hremove]
  simp only [List.concat_eq_append, List.length_append, List.length_singleton] at hi ⊢
  rcases Nat.lt_or_eq_of_le (Nat.le_of_lt_succ hi) with hlt | rfl
  · -- the last order takes the place
    rw [List.set_append_left _ _ hlt, List.dropLast_concat, List.getElem_append_left hlt]
    have hset := List.set_perm_cons_eraseIdx hlt back
    have herase := (List.getElem_cons_eraseIdx_perm hlt).symm
    calc (front ++ [back]).Perm (back :: front) := List.perm_append_singleton back front
      _ |>.Perm (back :: front[i] :: front.eraseIdx i) := herase.cons back
      _ |>.Perm (front[i] :: back :: front.eraseIdx i) := List.Perm.swap _ _ _
      _ |>.Perm (front[i] :: front.set i back) := hset.symm.cons _
  · -- it was the last
    simp

/-! ## The emitters -/

variable {g : ItchGenerator}

/-- One message more is written, and the live orders follow it. -/
structure Emits (g : ItchGenerator) (m : DecodedMessage) (g' : ItchGenerator) : Prop where
  cfg : g'.cfg = g.cfg
  written : ∃ body, body ≠ [] ∧ body.length < 65536 ∧ g'.out = g.out ++ Framing.frame body
    ∧ decoded body = m
  effect : Effect g.cfg.numSymbols g.live g.nextRef m g'.live g'.nextRef

/-- The body behind a header, when it is as long as its type says. -/
theorem written_gen {g' : ItchGenerator} {type : UInt8} {locate track : UInt16} {ts : UInt64}
    {payload : List UInt8}
    (hout : g'.out = g.out ++ Framing.frame (genHeader type locate track ts ++ payload))
    (hlen : 13 + payload.length < 65536) :
    ∃ body, body ≠ [] ∧ body.length < 65536 ∧ g'.out = g.out ++ Framing.frame body
      ∧ decoded body = decoded (genHeader type locate track ts ++ payload) := by
  have hbody : (genHeader type locate track ts ++ payload).length = 13 + payload.length := by
    rw [List.length_append, genHeader_length]
  exact ⟨_, List.cons_ne_nil _ _, hbody ▸ hlen, hout, rfl⟩

theorem emitSystem_emits (code : UInt8) :
    ∃ m, m.type = .systemEvent ∧ Emits g m (g.emitSystem code) := by
  have ht := @decoded_type 'S'.toUInt8 0 g.track g.ts [code] rfl (.inr rfl)
  exact ⟨_, ht, rfl, written_gen (g.emitSystem_out code) (by simp), .other (.inl ht)⟩

theorem emitTrade_emits : ∃ m, Emits g m g.emitTrade := by
  obtain ⟨locate, payload, hlen, hout⟩ := g.emitTrade_out
  have ht := @decoded_type 'P'.toUInt8 locate g.track g.ts payload hlen (.inl rfl)
  exact ⟨_, rfl, written_gen hout (hlen ▸ by decide), .other (.inr ht)⟩

/-- An order at a price drawn for its symbol. -/
theorem quoted_randPrice (h : g.cfg.Standard) {numSymbols sym : ℕ} {ref : UInt64}
    {locate : UInt16} {side : UInt8} {shares : UInt32} (hside : side = sideBuy ∨ side = sideSell)
    (hne : numSymbols ≤ 65535 → locate ≠ 0)
    (hsym : numSymbols ≤ 11 → locate.toNat ≤ 11 ∧ locate.toNat = sym + 1)
    (h0 : shares ≠ 0) (hmax : shares.toNat ≤ 1000) :
    LiveOrder.Quoted numSymbols ⟨ref, locate, side, (g.randPrice sym side).1, shares⟩ where
  side := hside
  minPrice := (g.randPrice_bounds h sym side).1
  maxPrice := (g.randPrice_bounds h sym side).2
  pos := h0
  maxShares := hmax
  locate_ne := hne
  locate_le hn := (hsym hn).1
  bid_below hn hs := by
    obtain ⟨hle, heq⟩ := hsym hn
    have hbuy : side = sideBuy := hs
    have := g.randPrice_bid h (show sym ≤ 10 by omega) hbuy
    dsimp only
    omega
  ask_above hn hs := by
    obtain ⟨hle, heq⟩ := hsym hn
    have hsell : side = sideSell := hs
    have := g.randPrice_ask h (show sym ≤ 10 by omega) hsell
    dsimp only
    omega

theorem drawSide_mem : g.drawSide.1 = sideBuy ∨ g.drawSide.1 = sideSell := by
  show (if _ then sideBuy else sideSell) = sideBuy ∨ (if _ then sideBuy else sideSell) = sideSell
  split
  · exact .inl rfl
  · exact .inr rfl

theorem drawSymbol_lt : g.drawSymbol.1 < g.cfg.numSymbols := Nat.mod_lt _ g.cfg.pos

theorem drawShares_mem (h : g.cfg.Standard) :
    (g.drawUpTo g.cfg.maxShares).1 ≠ 0 ∧ (g.drawUpTo g.cfg.maxShares).1.toNat ≤ 1000 := by
  obtain ⟨h0, hle⟩ := @drawUpTo_mem g g.cfg.maxShares (by rw [h.maxShares]; decide)
  refine ⟨h0, (UInt32.le_iff_toNat_le.mp hle).trans ?_⟩
  rw [h.maxShares]
  rfl

/-- The order `addOrder` writes is the one it keeps. -/
theorem addOrder_emits {mpid : Bool} {sym : ℕ} {side : UInt8} {price shares : UInt32}
    (hq : LiveOrder.Quoted g.cfg.numSymbols
      ⟨g.nextRef, UInt16.ofNat (sym + 1), side, price, shares⟩) :
    ∃ m, Emits g m (g.addOrder mpid sym side price shares) := by
  obtain ⟨ht, href, hloc, hs, hp, hsh⟩ := decoded_add mpid (UInt16.ofNat (sym + 1)) g.track g.ts
    g.nextRef sym side price shares
  refine ⟨_, rfl, written_gen (g.addOrder_out mpid sym side price shares) ?_,
    .add _ ht rfl hq ⟨href, hloc, hs, hp, hsh⟩⟩
  cases mpid <;> simp [addPayload, stockBytes]

theorem emitAdd_emits (h : g.cfg.Standard) (mpid : Bool) : ∃ m, Emits g m (g.emitAdd mpid) := by
  have hsym : g.drawSymbol.1 < g.cfg.numSymbols := drawSymbol_lt
  have hshares := drawShares_mem (g := g.skip 4) h
  have hlocate : g.cfg.numSymbols ≤ 65535 →
      (UInt16.ofNat (g.drawSymbol.1 + 1)).toNat = g.drawSymbol.1 + 1 := fun hn => by
    rw [UInt16.toNat_ofNat']
    omega
  have hq : LiveOrder.Quoted g.cfg.numSymbols ⟨(g.skip 5).nextRef,
      UInt16.ofNat (g.drawSymbol.1 + 1), (g.skip 1).drawSide.1,
      ((g.skip 2).randPrice g.drawSymbol.1 (g.skip 1).drawSide.1).1,
      ((g.skip 4).drawUpTo g.cfg.maxShares).1⟩ := by
    refine quoted_randPrice (g := g.skip 2) h drawSide_mem (fun hn h0 => ?_) (fun hn => ?_)
      hshares.1 hshares.2
    · have := hlocate hn
      rw [h0, UInt16.toNat_zero] at this
      omega
    · have := hlocate (by omega)
      omega
  obtain ⟨m, hm⟩ := @addOrder_emits (g.skip 5) mpid _ _ _ _ hq
  exact ⟨m, hm.cfg, hm.written, hm.effect⟩

/-! ### On a live order -/

/-- A message that takes shares off the order at `i`: the order stays with the rest, or leaves. -/
theorem effect_reduce {numSymbols i : ℕ} {live : List LiveOrder} {next : UInt64} {o : LiveOrder}
    {m : DecodedMessage} {shares : UInt32} (h : live[i]? = some o) (ht : m.type.IsReduce)
    (href : m.orderRef = o.ref) (hsh : m.shares = shares) (h0 : shares ≠ 0)
    (hle : shares ≤ o.shares) :
    Effect numSymbols live next m (reduceLive live i o shares) next := by
  subst hsh
  have hle' := UInt32.le_iff_toNat_le.mp hle
  have hsub := UInt32.toNat_sub_of_le _ _ hle
  unfold reduceLive
  split
  · rename_i hgone
    rw [hgone, UInt32.toNat_zero] at hsub
    have heq : m.shares = o.shares := UInt32.toNat_inj.mp (by omega)
    exact .leave o (removeLive_perm h) (.inr ⟨ht, heq⟩) href
  · rename_i hkept
    have hne : m.shares.toNat ≠ o.shares.toNat := fun e => hkept (UInt32.toNat_inj.mp (by
      rw [hsub, UInt32.toNat_zero]
      omega))
    have hlt : m.shares < o.shares := UInt32.lt_iff_toNat_lt.mpr (by omega)
    exact .reduce o _ (perm_eraseIdx h) ht href h0 hlt (set_perm h _)

/-- A conversion is no larger than the number. -/
theorem toInt_le (x : ℕ) : (toInt x).toNat ≤ x := by
  unfold toInt
  split <;> omega

/-- `pick_live` gives an index, unless it gives none. -/
theorem pickLive_cases (g : ItchGenerator) : ∃ i k, g.pickLive = (i, g.skip k) ∧
    (¬i < 0 → ∃ o, g.live[i.toNat]? = some o) := by
  unfold pickLive
  by_cases hlive : g.live = []
  · rw [if_pos hlive]
    exact ⟨-1, 0, rfl, fun hi => absurd (by decide) hi⟩
  · rw [if_neg hlive]
    refine ⟨_, 1, rfl, fun _ => ?_⟩
    have hlen := Nat.mod_lt (g.rng g.drawn).toNat (List.length_pos_of_ne_nil hlive)
    exact ⟨_, List.getElem?_eq_getElem (Nat.lt_of_le_of_lt (toInt_le _) hlen)⟩

/-- A message that takes shares off a live order. -/
theorem reduce_emits {g' : ItchGenerator} {i : ℕ} {o : LiveOrder} {shares : UInt32} {type : UInt8}
    {track : UInt16} {ts : UInt64} {tail : List UInt8} (h : g.live[i]? = some o) (h0 : shares ≠ 0)
    (hle : shares ≤ o.shares) (ht : (MsgType.ofByte type).IsReduce)
    (hlen : 25 + tail.length = msgBodyLen (MsgType.ofByte type)) (hcfg : g'.cfg = g.cfg)
    (hnext : g'.nextRef = g.nextRef) (hlive : g'.live = reduceLive g.live i o shares)
    (hout : g'.out = g.out ++ Framing.frame (genHeader type o.stockLocate track ts ++
      (toBytes 8 o.ref.toNat ++ (toBytes 4 shares.toNat ++ tail)))) : ∃ m, Emits g m g' := by
  obtain ⟨htype, href, hsh⟩ := decoded_reduce ht o.stockLocate track ts o.ref shares tail hlen
  have heff := @effect_reduce g.cfg.numSymbols _ _ g.nextRef _ _ _ h htype href hsh h0 hle
  refine ⟨_, hcfg, written_gen hout ?_, by rwa [hlive, hnext]⟩
  have := ItchWriter.msgBodyLen_lt (MsgType.ofByte type)
  simp only [List.length_append, toBytes_length]
  omega

theorem execAt_emits {i : ℕ} {o : LiveOrder} (h : g.live[i]? = some o) (h0 : o.shares ≠ 0)
    (withPrice : Bool) : ∃ m, Emits g m (g.execAt i withPrice) := by
  obtain ⟨tail, hlen, hout⟩ := g.execAt_out h withPrice
  obtain ⟨hne, hle⟩ := g.drawUpTo_mem h0
  cases withPrice with
  | false =>
    refine reduce_emits h hne hle (.inl (.inl rfl)) hlen ?_ ?_ ?_ hout
    all_goals
      simp only [execAt, h]
      rfl
  | true =>
    refine reduce_emits h hne hle (.inl (.inr rfl)) hlen ?_ ?_ ?_ hout
    all_goals
      simp only [execAt, h]
      rfl

theorem Emits.of_skip {m : DecodedMessage} {g' : ItchGenerator} {k : ℕ}
    (h : Emits (g.skip k) m g') : Emits g m g' :=
  ⟨h.cfg, h.written, h.effect⟩

theorem emitExecute_emits (h : g.cfg.Standard) (hlive : ∀ o ∈ g.live, o.shares ≠ 0)
    (withPrice : Bool) : ∃ m, Emits g m (g.emitExecute withPrice) := by
  obtain ⟨i, k, hpick, hmem⟩ := g.pickLive_cases
  simp only [emitExecute, hpick]
  by_cases hi : i < 0
  · rw [if_pos hi]
    obtain ⟨m, hm⟩ := emitAdd_emits (g := g.skip k) h false
    exact ⟨m, hm.of_skip⟩
  · obtain ⟨o, ho⟩ := hmem hi
    rw [if_neg hi]
    obtain ⟨m, hm⟩ := execAt_emits (g := g.skip k) ho (hlive o (List.mem_of_getElem? ho)) withPrice
    exact ⟨m, hm.of_skip⟩

theorem emitCancel_emits (h : g.cfg.Standard) (hlive : ∀ o ∈ g.live, o.shares ≠ 0) :
    ∃ m, Emits g m g.emitCancel := by
  obtain ⟨i, k, hpick, hmem⟩ := g.pickLive_cases
  by_cases hi : i < 0
  · simp only [emitCancel, hpick, if_pos hi]
    obtain ⟨m, hm⟩ := emitAdd_emits (g := g.skip k) h false
    exact ⟨m, hm.of_skip⟩
  · obtain ⟨o, ho⟩ := hmem hi
    obtain ⟨hne, hle⟩ := (g.skip k).drawUpTo_mem (hlive o (List.mem_of_getElem? ho))
    have ht : (MsgType.ofByte 'X'.toUInt8).IsReduce := .inr rfl
    have hout := g.emitCancel_out hpick hi ho
    refine @reduce_emits g _ i.toNat o _ _ _ _ [] ho hne hle ht rfl ?_ ?_ ?_ hout
    all_goals
      simp only [emitCancel, hpick, if_neg hi, live_skip, ho]
      rfl

theorem emitDelete_emits (h : g.cfg.Standard) : ∃ m, Emits g m g.emitDelete := by
  obtain ⟨i, k, hpick, hmem⟩ := g.pickLive_cases
  by_cases hi : i < 0
  · simp only [emitDelete, hpick, if_pos hi]
    obtain ⟨m, hm⟩ := emitAdd_emits (g := g.skip k) h false
    exact ⟨m, hm.of_skip⟩
  · obtain ⟨o, ho⟩ := hmem hi
    obtain ⟨ht, href⟩ := decoded_delete o.stockLocate g.track g.ts o.ref
    have hout := g.emitDelete_out hpick hi ho
    have hleave : g.emitDelete.live = removeLive g.live i.toNat := by
      simp only [emitDelete, hpick, if_neg hi, live_skip, ho]
      rfl
    have hnext : g.emitDelete.nextRef = g.nextRef := by
      simp only [emitDelete, hpick, if_neg hi, live_skip, ho]
      rfl
    refine ⟨_, ?_, written_gen hout (by simp), ?_⟩
    · simp only [emitDelete, hpick, if_neg hi, live_skip, ho]
      rfl
    · rw [hleave, hnext]
      exact .leave o (removeLive_perm ho) (.inl ht) href

/-- The replacement is drawn for the symbol of the order it replaces. -/
theorem emitReplace_emits (h : g.cfg.Standard)
    (hlive : ∀ o ∈ g.live, o.Quoted g.cfg.numSymbols) : ∃ m, Emits g m g.emitReplace := by
  obtain ⟨i, k, hpick, hmem⟩ := g.pickLive_cases
  by_cases hi : i < 0
  · simp only [emitReplace, hpick, if_pos hi]
    obtain ⟨m, hm⟩ := emitAdd_emits (g := g.skip k) h false
    exact ⟨m, hm.of_skip⟩
  · obtain ⟨o, ho⟩ := hmem hi
    have hq := hlive o (List.mem_of_getElem? ho)
    let quoted := (g.skip k).takeRef.2.randPrice (o.stockLocate.toNat - 1) o.side
    let sized := quoted.2.drawUpTo g.cfg.maxShares
    let o' : LiveOrder := { o with ref := g.nextRef, price := quoted.1, shares := sized.1 }
    have hsized := drawShares_mem (g := quoted.2) h
    have hq' : o'.Quoted g.cfg.numSymbols := by
      refine quoted_randPrice (g := (g.skip k).takeRef.2) h hq.side hq.locate_ne (fun hn => ?_)
        hsized.1 hsized.2
      have hne : o.stockLocate.toNat ≠ 0 := fun e =>
        hq.locate_ne (by omega) (UInt16.toNat_inj.mp e)
      exact ⟨hq.locate_le hn, by omega⟩
    obtain ⟨ht, href, hnew, hprice, hsh⟩ := decoded_replace o.stockLocate g.track g.ts o.ref
      g.nextRef sized.1 quoted.1
    have hout := g.emitReplace_out hpick hi ho
    have hleave : g.emitReplace.live = g.live.set i.toNat o' := by
      simp only [emitReplace, hpick, if_neg hi, live_skip, ho]
      rfl
    have hnext : g.emitReplace.nextRef = g.nextRef + 1 := by
      simp only [emitReplace, hpick, if_neg hi, live_skip, ho]
      rfl
    refine ⟨_, ?_, written_gen hout (by simp), ?_⟩
    · simp only [emitReplace, hpick, if_neg hi, live_skip, ho]
      rfl
    · rw [hleave, hnext]
      exact .replace o o' _ (perm_eraseIdx ho) ht href rfl hq' ⟨rfl, rfl⟩ ⟨hnew, hprice, hsh⟩
        (set_perm ho o')

/-- The order a sweep takes is a live one of that side. -/
theorem sweepBest_some {live : List LiveOrder} {locate : UInt16} {side : UInt8} {i : ℕ}
    (h : sweepBest live locate side = some i) :
    ∃ o, live[i]? = some o ∧ o.stockLocate = locate ∧ o.side = side := by
  -- what the loop holds so far is always such an order
  let Found (best : Option ℕ) : Prop :=
    ∀ i, best = some i → ∃ o, live[i]? = some o ∧ o.stockLocate = locate ∧ o.side = side
  have hfound : Found (sweepBest live locate side) := by
    refine List.foldlRecOn _ _ (motive := Found) (fun i hi => nomatch hi) fun best hbest j _ => ?_
    cases hj : live[j]? with
    | none => exact hbest
    | some o =>
      dsimp only
      split
      · exact hbest
      · rename_i hmine
        rw [not_or, not_not, not_not] at hmine
        have hself : Found (some j) := fun i hi => ⟨o, Option.some_inj.mp hi ▸ hj, hmine⟩
        split
        · exact hself
        · split
          · exact hself
          · exact hbest
  exact hfound i h

/-- A sweep adds an order where it finds none to take. -/
theorem emitSweep_eq (g : ItchGenerator) : g.emitSweep =
    match sweepBest g.live (UInt16.ofNat (g.drawSymbol.1 + 1)) (g.skip 1).drawSide.1 with
    | none => (g.skip 2).emitAdd false
    | some best => (g.skip 2).execAt best false := rfl

theorem emitSweep_emits (h : g.cfg.Standard) (hlive : ∀ o ∈ g.live, o.shares ≠ 0) :
    ∃ m, Emits g m g.emitSweep := by
  rw [emitSweep_eq]
  split
  · obtain ⟨m, hm⟩ := emitAdd_emits (g := g.skip 2) h false
    exact ⟨m, hm.of_skip⟩
  · rename_i best hbest
    obtain ⟨o, ho, -⟩ := sweepBest_some hbest
    obtain ⟨m, hm⟩ := execAt_emits (g := g.skip 2) ho (hlive o (List.mem_of_getElem? ho)) false
    exact ⟨m, hm.of_skip⟩

theorem emitRolled_emits (h : g.cfg.Standard) (hlive : ∀ o ∈ g.live, o.Quoted g.cfg.numSymbols)
    (roll : ℕ) : ∃ m, Emits g m (g.emitRolled roll) := by
  have hpos : ∀ o ∈ g.live, o.shares ≠ 0 := fun o ho => (hlive o ho).pos
  unfold emitRolled
  split
  · exact emitAdd_emits h _
  split
  · exact emitExecute_emits h hpos _
  split
  · exact emitCancel_emits h hpos
  split
  · exact emitDelete_emits h
  split
  · exact emitReplace_emits h hlive
  · exact emitTrade_emits

/-- The generator behind the advance of its clock. -/
def clocked (g : ItchGenerator) : ItchGenerator :=
  { g.skip 1 with ts := g.ts + (1 + g.rng g.drawn % 50) * g.cfg.tsScale }

theorem step_eq (g : ItchGenerator) : g.step =
    if g.cfg.aggressProb > 0 then
      if g.rng (g.drawn + 1) % 100 < g.cfg.aggressProb.toUInt64
      then (g.clocked.skip 1).emitSweep.notePeak
      else ((g.clocked.skip 2).emitRolled (g.rng (g.drawn + 2) % 100).toNat).notePeak
    else ((g.clocked.skip 1).emitRolled (g.rng (g.drawn + 1) % 100).toNat).notePeak := by
  unfold step drawAggress draw
  dsimp only
  split
  · simp only [decide_eq_true_eq]
    split
    · rfl
    · rfl
  · rfl

theorem Emits.of_step {m : DecodedMessage} {g' : ItchGenerator} {k : ℕ}
    (h : Emits (g.clocked.skip k) m g') : Emits g m g'.notePeak :=
  ⟨h.cfg, h.written, h.effect⟩

/-- A step writes one message. -/
theorem step_emits (h : g.cfg.Standard) (hlive : ∀ o ∈ g.live, o.Quoted g.cfg.numSymbols) :
    ∃ m, Emits g m g.step := by
  have hpos : ∀ o ∈ g.live, o.shares ≠ 0 := fun o ho => (hlive o ho).pos
  have hrolled (k roll : ℕ) : ∃ m, Emits g m ((g.clocked.skip k).emitRolled roll).notePeak := by
    obtain ⟨m, hm⟩ := @emitRolled_emits (g.clocked.skip k) h hlive roll
    exact ⟨m, hm.of_step⟩
  rw [step_eq]
  split
  · split
    · obtain ⟨m, hm⟩ := @emitSweep_emits (g.clocked.skip 1) h hpos
      exact ⟨m, hm.of_step⟩
    · exact hrolled 2 _
  · exact hrolled 1 _

end ItchGenerator

end ItchOrderbook
