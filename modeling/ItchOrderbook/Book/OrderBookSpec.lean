import ItchOrderbook.Book.OrderBook

/-!
# What one order book keeps

`OrderBook.WellFormed` is the invariant of the class on its own: nothing rests outside the
price range and the cached bests are the true ones. Every update keeps it, whatever its
arguments; and each update that is let through changes exactly the levels it names
(`levels_add`, `levels_remove`).
-/

namespace ItchOrderbook

/-- The two sides of a book. -/
inductive Side where
  | buy
  | sell
  deriving DecidableEq, Repr

namespace Side

/-- The character a side is written as. -/
def code : Side → UInt8
  | buy => sideBuy
  | sell => sideSell

theorem code_injective : Function.Injective code := by
  intro s t h
  cases s <;> cases t <;> first | rfl | exact absurd h (by decide)

@[simp] theorem code_inj {s t : Side} : s.code = t.code ↔ s = t := code_injective.eq_iff

end Side

/-- A character is one of the two side codes. -/
theorem exists_side_of_code {side : UInt8} (h : ¬(side ≠ sideBuy ∧ side ≠ sideSell)) :
    ∃ s : Side, side = s.code := by
  by_cases hb : side = sideBuy
  · exact ⟨.buy, hb⟩
  · by_cases hs : side = sideSell
    · exact ⟨.sell, hs⟩
    · exact absurd ⟨hb, hs⟩ h

/-! ## Best prices -/

/-- `best` is the highest price with shares, 0 when there is none. Price 0 never has any. -/
structure IsBestBid (levels : UInt32 → PriceLevel) (best : UInt32) : Prop where
  upper : ∀ p, (levels p).totalShares ≠ 0 → p ≤ best
  attained : best ≠ 0 → (levels best).totalShares ≠ 0

/-- `best` is the lowest price with shares, 0 when there is none. -/
structure IsBestAsk (levels : UInt32 → PriceLevel) (best : UInt32) : Prop where
  lower : ∀ p, (levels p).totalShares ≠ 0 → best ≠ 0 ∧ best ≤ p
  attained : best ≠ 0 → (levels best).totalShares ≠ 0

theorem IsBestBid.isGreatest {levels : UInt32 → PriceLevel} {best : UInt32}
    (h : IsBestBid levels best) (hne : best ≠ 0) :
    IsGreatest {p | (levels p).totalShares ≠ 0} best :=
  ⟨h.attained hne, fun p hp => h.upper p hp⟩

theorem IsBestAsk.isLeast {levels : UInt32 → PriceLevel} {best : UInt32}
    (h : IsBestAsk levels best) (hne : best ≠ 0) :
    IsLeast {p | (levels p).totalShares ≠ 0} best :=
  ⟨h.attained hne, fun p hp => (h.lower p hp).2⟩

section BestMaintenance

variable {levels : UInt32 → PriceLevel} {best price : UInt32} {l : PriceLevel}

/-- A level that gains shares moves the best bid up to it or leaves it. -/
theorem IsBestBid.add (h : IsBestBid levels best) (hl : l.totalShares ≠ 0) :
    IsBestBid (Function.update levels price l) (if price > best then price else best) := by
  have hle : price ≤ (if price > best then price else best)
      ∧ best ≤ (if price > best then price else best) := by
    split
    · exact ⟨UInt32.le_refl _, UInt32.le_of_lt ‹_›⟩
    · exact ⟨UInt32.not_lt.mp ‹_›, UInt32.le_refl _⟩
  refine ⟨fun p hp => ?_, fun hne => ?_⟩
  · by_cases hpp : p = price
    · exact hpp ▸ hle.1
    · rw [Function.update_of_ne hpp] at hp
      exact UInt32.le_trans (h.upper p hp) hle.2
  · by_cases hpp : (if price > best then price else best) = price
    · rw [hpp, Function.update_self]
      exact hl
    · rw [Function.update_of_ne hpp]
      split at hpp
      · exact absurd rfl hpp
      · rw [if_neg ‹_›] at hne ⊢
        exact h.attained hne

/-- A level that loses shares without emptying the best leaves the best bid. -/
theorem IsBestBid.keep (h : IsBestBid levels best) (hpos : (levels price).totalShares ≠ 0)
    (hkeep : ¬(l.totalShares = 0 ∧ price = best)) :
    IsBestBid (Function.update levels price l) best := by
  refine ⟨fun p hp => ?_, fun hne => ?_⟩
  · by_cases hpp : p = price
    · exact hpp ▸ h.upper price hpos
    · rw [Function.update_of_ne hpp] at hp
      exact h.upper p hp
  · by_cases hpp : best = price
    · rw [hpp, Function.update_self]
      exact fun hl => hkeep ⟨hl, hpp.symm⟩
    · rw [Function.update_of_ne hpp]
      exact h.attained hne

/-- Emptying the best bid level, the highest nonempty price below it is the best. -/
theorem IsBestBid.rescan {found : UInt32} (h : IsBestBid levels price) (h0 : price ≠ 0)
    (hl : l.totalShares = 0) (hzero : (levels 0).totalShares = 0)
    (hscan : (∀ p : UInt32, p ≠ 0 → p.toNat ≤ (price - 1).toNat →
        (Function.update levels price l p).totalShares ≠ 0 → p ≤ found)
      ∧ (found ≠ 0 → (Function.update levels price l found).totalShares ≠ 0
          ∧ found.toNat ≤ (price - 1).toNat)) :
    IsBestBid (Function.update levels price l) found := by
  refine ⟨fun p hp => ?_, fun hne => (hscan.2 hne).1⟩
  have hpp : p ≠ price := by
    rintro rfl
    rw [Function.update_self] at hp
    exact hp hl
  have hp' := hp
  rw [Function.update_of_ne hpp] at hp'
  have hp0 : p ≠ 0 := fun e => hp' (e ▸ hzero)
  refine hscan.1 p hp0 ?_ hp
  have hle := UInt32.le_iff_toNat_le.mp (h.upper p hp')
  have hne' : p.toNat ≠ price.toNat := fun e => hpp (UInt32.toNat_inj.mp e)
  have := price.toNat_lt
  rw [UInt32.toNat_sub, UInt32.toNat_one]
  omega

/-- A level that gains shares moves the best ask down to it or leaves it. -/
theorem IsBestAsk.add (h : IsBestAsk levels best) (h0 : price ≠ 0) (hl : l.totalShares ≠ 0) :
    IsBestAsk (Function.update levels price l)
      (if best = 0 ∨ price < best then price else best) := by
  have hne : (if best = 0 ∨ price < best then price else best) ≠ 0 := by
    split
    · exact h0
    · rename_i hn
      exact fun e => hn (Or.inl e)
  have hle : (if best = 0 ∨ price < best then price else best) ≤ price
      ∧ (best ≠ 0 → (if best = 0 ∨ price < best then price else best) ≤ best) := by
    split
    · rename_i hor
      exact ⟨UInt32.le_refl _, fun hb => UInt32.le_of_lt (hor.resolve_left hb)⟩
    · rename_i hn
      exact ⟨UInt32.not_lt.mp (not_or.mp hn).2, fun _ => UInt32.le_refl _⟩
  refine ⟨fun p hp => ⟨hne, ?_⟩, fun _ => ?_⟩
  · by_cases hpp : p = price
    · exact hpp ▸ hle.1
    · rw [Function.update_of_ne hpp] at hp
      have hlo := h.lower p hp
      exact UInt32.le_trans (hle.2 hlo.1) hlo.2
  · by_cases hpp : (if best = 0 ∨ price < best then price else best) = price
    · rw [hpp, Function.update_self]
      exact hl
    · rw [Function.update_of_ne hpp]
      split at hpp
      · exact absurd rfl hpp
      · rw [if_neg ‹_›] at hne ⊢
        exact h.attained hne

/-- A level that loses shares without emptying the best leaves the best ask. -/
theorem IsBestAsk.keep (h : IsBestAsk levels best) (hpos : (levels price).totalShares ≠ 0)
    (hkeep : ¬(l.totalShares = 0 ∧ price = best)) :
    IsBestAsk (Function.update levels price l) best := by
  refine ⟨fun p hp => ?_, fun hne => ?_⟩
  · by_cases hpp : p = price
    · exact hpp ▸ h.lower price hpos
    · rw [Function.update_of_ne hpp] at hp
      exact h.lower p hp
  · by_cases hpp : best = price
    · rw [hpp, Function.update_self]
      exact fun hl => hkeep ⟨hl, hpp.symm⟩
    · rw [Function.update_of_ne hpp]
      exact h.attained hne

/-- Emptying the best ask level, the lowest nonempty price above it is the best. -/
theorem IsBestAsk.rescan {found : UInt32} {n : ℕ} (h : IsBestAsk levels price)
    (hl : l.totalShares = 0)
    (hin : ∀ p : UInt32, (levels p).totalShares ≠ 0 → p.toNat < price.toNat + 1 + n)
    (hscan : (∀ q : UInt32, price.toNat + 1 ≤ q.toNat → q.toNat < price.toNat + 1 + n →
        (Function.update levels price l q).totalShares ≠ 0 → found ≠ 0 ∧ found ≤ q)
      ∧ (found ≠ 0 → (Function.update levels price l found).totalShares ≠ 0)) :
    IsBestAsk (Function.update levels price l) found := by
  refine ⟨fun p hp => ?_, hscan.2⟩
  have hpp : p ≠ price := by
    rintro rfl
    rw [Function.update_self] at hp
    exact hp hl
  have hp' := hp
  rw [Function.update_of_ne hpp] at hp'
  have hle := UInt32.le_iff_toNat_le.mp (h.lower p hp').2
  have hne' : p.toNat ≠ price.toNat := fun e => hpp (UInt32.toNat_inj.mp e)
  exact hscan.1 p (by omega) (hin p hp') hp

end BestMaintenance

namespace OrderBook

/-! ## The scans -/

/-- The downward scan finds the highest nonempty price at or below its start. Induction on
the start, one price a step. -/
theorem scanDownFrom_spec (levels : UInt32 → PriceLevel) {n : ℕ} (hn : n < 2 ^ 32) :
    (∀ p : UInt32, p ≠ 0 → p.toNat ≤ n → (levels p).totalShares ≠ 0 →
        p ≤ (scanDownFrom levels n).1)
      ∧ ((scanDownFrom levels n).1 ≠ 0 →
        (levels (scanDownFrom levels n).1).totalShares ≠ 0
          ∧ (scanDownFrom levels n).1.toNat ≤ n) := by
  induction n with
  | zero =>
    refine ⟨fun p hp hle _ => ?_, fun h => absurd rfl h⟩
    exact absurd (UInt32.toNat_inj.mp (by simpa using hle)) hp
  | succ n ih =>
    obtain ⟨ihu, iha⟩ := ih (by omega)
    have hto : (UInt32.ofNat (n + 1)).toNat = n + 1 := UInt32.toNat_ofNat_of_lt' hn
    unfold scanDownFrom
    by_cases h : (levels (UInt32.ofNat (n + 1))).totalShares ≠ 0
    · rw [if_pos h]
      refine ⟨fun p _ hle _ => ?_, fun _ => ⟨h, hto.le⟩⟩
      rw [UInt32.le_iff_toNat_le, hto]
      exact hle
    · rw [if_neg h]
      refine ⟨fun p hp hle hne => ?_, fun hr => ⟨(iha hr).1, (iha hr).2.trans (by omega)⟩⟩
      by_cases heq : p = UInt32.ofNat (n + 1)
      · exact absurd (heq ▸ hne) h
      · have : p.toNat ≠ n + 1 := fun e => heq (UInt32.toNat_inj.mp (e.trans hto.symm))
        exact ihu p hp (by omega) hne

/-- The upward scan finds the lowest nonempty price among the `n` from `p` on. -/
theorem scanUpFrom_spec (levels : UInt32 → PriceLevel) {p n : ℕ} (hp : 0 < p)
    (hn : p + n ≤ 2 ^ 32) :
    (∀ q : UInt32, p ≤ q.toNat → q.toNat < p + n → (levels q).totalShares ≠ 0 →
        (scanUpFrom levels p n).1 ≠ 0 ∧ (scanUpFrom levels p n).1 ≤ q)
      ∧ ((scanUpFrom levels p n).1 ≠ 0 →
        (levels (scanUpFrom levels p n).1).totalShares ≠ 0) := by
  induction n generalizing p with
  | zero =>
    refine ⟨fun q hlo hhi _ => ?_, fun h => absurd rfl h⟩
    omega
  | succ n ih =>
    obtain ⟨ihl, iha⟩ := ih (p := p + 1) (by omega) (by omega)
    have hto : (UInt32.ofNat p).toNat = p := UInt32.toNat_ofNat_of_lt' (by
      simp only [UInt32.size]; omega)
    unfold scanUpFrom
    by_cases h : (levels (UInt32.ofNat p)).totalShares ≠ 0
    · rw [if_pos h]
      have hne : UInt32.ofNat p ≠ 0 := fun e => by
        have := congrArg UInt32.toNat e
        rw [hto] at this
        simp at this
        omega
      refine ⟨fun q hlo _ _ => ⟨hne, ?_⟩, fun _ => h⟩
      rw [UInt32.le_iff_toNat_le, hto]
      exact hlo
    · rw [if_neg h]
      refine ⟨fun q hlo hhi hq => ?_, iha⟩
      by_cases heq : q = UInt32.ofNat p
      · exact absurd (heq ▸ hq) h
      · have : q.toNat ≠ p := fun e => heq (UInt32.toNat_inj.mp (e.trans hto.symm))
        exact ihl q (by omega) (by omega) hq

/-! ## The levels of a side -/

/-- One side's levels. -/
def levels (b : OrderBook) : Side → UInt32 → PriceLevel
  | .buy => b.bid
  | .sell => b.ask

@[simp] theorem level_code (b : OrderBook) (s : Side) (p : UInt32) :
    b.level s.code p = b.levels s p := by
  cases s <;> rfl

/-- The levels with one of them replaced. -/
def setLevel (b : OrderBook) (s : Side) (p : UInt32) (l : PriceLevel) :
    Side → UInt32 → PriceLevel :=
  fun s' p' => if s' = s ∧ p' = p then l else b.levels s' p'

theorem setLevel_self (b : OrderBook) (s : Side) (p : UInt32) (l : PriceLevel) :
    b.setLevel s p l s = Function.update (b.levels s) p l := by
  funext p'
  simp [setLevel, Function.update_apply]

theorem setLevel_of_ne (b : OrderBook) {s s' : Side} (h : s' ≠ s) (p : UInt32)
    (l : PriceLevel) : b.setLevel s p l s' = b.levels s' := by
  funext p'
  simp [setLevel, h]

/-- `WellFormed b`: nothing rests outside the price range and the cached bests are right. -/
structure WellFormed (b : OrderBook) : Prop where
  maxPrice_lt : b.maxPrice.toNat + 1 < 2 ^ 32
  outside : ∀ s p, p = 0 ∨ b.maxPrice < p → b.levels s p = {}
  best_bid : IsBestBid b.bid b.bestBid
  best_ask : IsBestAsk b.ask b.bestAsk

theorem wellFormed_new (priceLevels : UInt32) : (new priceLevels).WellFormed where
  maxPrice_lt := by
    have := priceLevels.toNat_lt
    simp only [new]
    split
    · rename_i h
      rw [gt_iff_lt, UInt32.lt_iff_toNat_lt] at h
      simp only [UInt32.toNat_sub, UInt32.toNat_one, UInt32.toNat_zero] at h ⊢
      omega
    · simp
  outside s p _ := by cases s <;> rfl
  best_bid := ⟨fun p h => absurd rfl h, fun h => absurd rfl h⟩
  best_ask := ⟨fun p h => absurd rfl h, fun h => absurd rfl h⟩

/-! ## Adding -/

/-- The argument check all updates share, for a side that is a side. -/
theorem guard_iff (s : Side) (price shares maxPrice : UInt32) :
    ((s.code ≠ sideBuy ∧ s.code ≠ sideSell) ∨ price = 0 ∨ price > maxPrice ∨ shares = 0)
      ↔ ¬(price ≠ 0 ∧ price ≤ maxPrice ∧ shares ≠ 0) := by
  have hside : ¬(s.code ≠ sideBuy ∧ s.code ≠ sideSell) := by cases s <;> decide
  simp only [hside, false_or, not_and_or, not_not, UInt32.not_le, gt_iff_lt]

/-- What `can_add` admits, over the naturals. -/
theorem canAdd_iff (b : OrderBook) (s : Side) (price shares : UInt32) :
    b.canAdd s.code price shares = true ↔
      price ≠ 0 ∧ price ≤ b.maxPrice ∧ shares ≠ 0
        ∧ ((b.levels s price).totalShares = 0 ↔ (b.levels s price).orderCount = 0)
        ∧ (b.levels s price).totalShares.toNat + shares.toNat < 2 ^ 32
        ∧ (b.levels s price).orderCount.toNat + 1 < 2 ^ 32 := by
  have hle : (b.levels s price).totalShares ≤ 0xFFFFFFFF - shares
      ↔ (b.levels s price).totalShares.toNat + shares.toNat < 2 ^ 32 := by
    have := shares.toNat_lt
    rw [UInt32.le_iff_toNat_le, UInt32.toNat_sub]
    simp only [UInt32.reduceToNat]
    omega
  have hct : (b.levels s price).orderCount ≠ 0xFFFFFFFF
      ↔ (b.levels s price).orderCount.toNat + 1 < 2 ^ 32 := by
    have := (b.levels s price).orderCount.toNat_lt
    rw [Ne, ← UInt32.toNat_inj]
    simp only [UInt32.reduceToNat]
    omega
  have hbe : ((((b.levels s price).totalShares == 0) == ((b.levels s price).orderCount == 0))
        = true)
      ↔ ((b.levels s price).totalShares = 0 ↔ (b.levels s price).orderCount = 0) := by
    rw [beq_iff_eq, Bool.eq_iff_iff, beq_iff_eq, beq_iff_eq]
  unfold canAdd
  have hguard := guard_iff s price shares b.maxPrice
  by_cases hg : price ≠ 0 ∧ price ≤ b.maxPrice ∧ shares ≠ 0
  · rw [if_neg (fun h => hguard.mp h hg)]
    simp only [level_code, Bool.and_eq_true, decide_eq_true_eq, bne_iff_ne, hle, hct, hbe]
    rw [and_assoc]
    exact ⟨fun h => ⟨hg.1, hg.2.1, hg.2.2, h⟩, fun h => h.2.2.2⟩
  · rw [if_pos (hguard.mpr hg)]
    exact ⟨fun h => absurd h Bool.false_ne_true, fun h => absurd ⟨h.1, h.2.1, h.2.2.1⟩ hg⟩

/-- `can_add` admits only the two side codes. -/
theorem exists_side_of_canAdd {b : OrderBook} {side : UInt8} {price shares : UInt32}
    (h : b.canAdd side price shares = true) : ∃ s : Side, side = s.code := by
  apply exists_side_of_code
  intro hside
  simp [canAdd, hside] at h

theorem add_of_not_canAdd {b : OrderBook} {side : UInt8} {price shares : UInt32}
    (h : b.canAdd side price shares = false) : b.add side price shares = (false, b) := by
  simp [add, h]

theorem add_fst (b : OrderBook) (side : UInt8) (price shares : UInt32) :
    (b.add side price shares).1 = b.canAdd side price shares := by
  unfold add
  cases b.canAdd side price shares
  · rfl
  · simp only [Bool.not_true, Bool.false_eq_true, if_false]
    split <;> rfl

@[simp] theorem maxPrice_add (b : OrderBook) (side : UInt8) (price shares : UInt32) :
    (b.add side price shares).2.maxPrice = b.maxPrice := by
  unfold add
  repeat' split
  all_goals rfl

theorem add_buy {b : OrderBook} {price shares : UInt32}
    (h : b.canAdd sideBuy price shares = true) :
    (b.add sideBuy price shares).2 =
      { b with
        bid := Function.update b.bid price
          ⟨(b.bid price).totalShares + shares, (b.bid price).orderCount + 1⟩
        bestBid := if price > b.bestBid then price else b.bestBid } := by
  simp [add, h]

theorem add_sell {b : OrderBook} {price shares : UInt32}
    (h : b.canAdd sideSell price shares = true) :
    (b.add sideSell price shares).2 =
      { b with
        ask := Function.update b.ask price
          ⟨(b.ask price).totalShares + shares, (b.ask price).orderCount + 1⟩
        bestAsk := if b.bestAsk = 0 ∨ price < b.bestAsk then price else b.bestAsk } := by
  simp [add, h, sideSell_ne_sideBuy]

/-- An admitted add changes one level, by the order's shares and one order. -/
theorem levels_add {b : OrderBook} {s : Side} {price shares : UInt32}
    (h : b.canAdd s.code price shares = true) :
    (b.add s.code price shares).2.levels
      = b.setLevel s price
          ⟨(b.levels s price).totalShares + shares, (b.levels s price).orderCount + 1⟩ := by
  funext s' p'
  cases s with
  | buy =>
    rw [Side.code, add_buy h]
    cases s' <;> simp [levels, setLevel, Function.update_apply]
  | sell =>
    rw [Side.code, add_sell h]
    cases s' <;> simp [levels, setLevel, Function.update_apply]

/-- The level an admitted add leaves is not empty. -/
theorem totalShares_add_ne_zero {b : OrderBook} {s : Side} {price shares : UInt32}
    (h : b.canAdd s.code price shares = true) :
    (b.levels s price).totalShares + shares ≠ 0 := by
  obtain ⟨-, -, hs, -, hlt, -⟩ := (canAdd_iff b s price shares).mp h
  intro he
  have := congrArg UInt32.toNat he
  rw [UInt32.toNat_add] at this
  have : shares.toNat ≠ 0 := fun e => hs (UInt32.toNat_inj.mp e)
  simp only [UInt32.toNat_zero] at *
  omega

/-- Adding keeps the book well formed, whatever the arguments. -/
theorem WellFormed.add {b : OrderBook} (hb : b.WellFormed) (side : UInt8)
    (price shares : UInt32) : (b.add side price shares).2.WellFormed := by
  cases h : b.canAdd side price shares with
  | false => rw [add_of_not_canAdd h]; exact hb
  | true =>
    obtain ⟨s, rfl⟩ := exists_side_of_canAdd h
    have hne := totalShares_add_ne_zero h
    obtain ⟨h0, hle, -⟩ := (canAdd_iff b s price shares).mp h
    have hout : ∀ s' p, p = 0 ∨ b.maxPrice < p →
        (b.add s.code price shares).2.levels s' p = {} := by
      intro s' p hp
      rw [levels_add h, setLevel, if_neg, hb.outside s' p hp]
      rintro ⟨-, rfl⟩
      exact hp.elim h0 (UInt32.not_lt.mpr hle)
    have hmax := maxPrice_add b s.code price shares
    refine ⟨by rw [hmax]; exact hb.maxPrice_lt, by rw [hmax]; exact hout, ?_, ?_⟩
    · cases s with
      | buy => rw [Side.code, add_buy h]; exact hb.best_bid.add hne
      | sell => rw [Side.code, add_sell h]; exact hb.best_bid
    · cases s with
      | buy => rw [Side.code, add_buy h]; exact hb.best_ask
      | sell => rw [Side.code, add_sell h]; exact hb.best_ask.add h0 hne

/-! ## Removing -/

/-- What `can_remove` admits. -/
theorem canRemove_iff (b : OrderBook) (s : Side) (price shares : UInt32) (orderGone : Bool) :
    b.canRemove s.code price shares orderGone = true ↔
      price ≠ 0 ∧ price ≤ b.maxPrice ∧ shares ≠ 0
        ∧ shares ≤ (b.levels s price).totalShares
        ∧ (orderGone = true → (b.levels s price).orderCount ≠ 0)
        ∧ (((b.levels s price).take shares orderGone).totalShares = 0
          ↔ ((b.levels s price).take shares orderGone).orderCount = 0) := by
  have hguard := guard_iff s price shares b.maxPrice
  have hrest : ((b.levels s price).orderCount - (if orderGone then 1 else 0))
      = ((b.levels s price).take shares orderGone).orderCount := by
    cases orderGone <;> simp [PriceLevel.take]
  unfold canRemove
  by_cases hg : price ≠ 0 ∧ price ≤ b.maxPrice ∧ shares ≠ 0
  · rw [if_neg (fun h => hguard.mp h hg)]
    simp only [level_code, hrest, gt_iff_lt]
    by_cases hover : (b.levels s price).totalShares < shares
        ∨ orderGone = true ∧ (b.levels s price).orderCount = 0
    · rw [if_pos hover]
      refine ⟨fun h => absurd h Bool.false_ne_true, fun ⟨_, _, _, hle, hct, _⟩ => ?_⟩
      rcases hover with hlt | ⟨hgone, hz⟩
      · exact absurd hlt (UInt32.not_lt.mpr hle)
      · exact absurd hz (hct hgone)
    · rw [if_neg hover, beq_iff_eq, Bool.eq_iff_iff, beq_iff_eq, beq_iff_eq]
      rw [not_or, not_and, UInt32.not_lt] at hover
      exact ⟨fun h => ⟨hg.1, hg.2.1, hg.2.2, hover.1, hover.2, h⟩, fun h => h.2.2.2.2.2⟩
  · rw [if_pos (hguard.mpr hg)]
    exact ⟨fun h => absurd h Bool.false_ne_true, fun h => absurd ⟨h.1, h.2.1, h.2.2.1⟩ hg⟩

/-- `can_remove` admits nothing at an empty level. -/
theorem nonempty_of_canRemove {b : OrderBook} {s : Side} {price shares : UInt32}
    {orderGone : Bool} (h : b.canRemove s.code price shares orderGone = true) :
    (b.levels s price).totalShares ≠ 0 := by
  obtain ⟨-, -, hs, hle, -⟩ := (canRemove_iff b s price shares orderGone).mp h
  intro e
  rw [e, UInt32.le_zero_iff] at hle
  exact hs hle

/-- `can_remove` admits only the two side codes. -/
theorem exists_side_of_canRemove {b : OrderBook} {side : UInt8} {price shares : UInt32}
    {orderGone : Bool} (h : b.canRemove side price shares orderGone = true) :
    ∃ s : Side, side = s.code := by
  apply exists_side_of_code
  intro hside
  simp [canRemove, hside] at h

theorem remove_of_not_canRemove {b : OrderBook} {side : UInt8} {price shares : UInt32}
    {orderGone : Bool} (h : b.canRemove side price shares orderGone = false) :
    b.remove side price shares orderGone = (false, b) := by
  simp [remove, h]

theorem remove_fst (b : OrderBook) (side : UInt8) (price shares : UInt32) (orderGone : Bool) :
    (b.remove side price shares orderGone).1 = b.canRemove side price shares orderGone := by
  unfold remove
  cases b.canRemove side price shares orderGone with
  | false => rfl
  | true =>
    simp only [Bool.not_true, Bool.false_eq_true, if_false]
    repeat' split
    all_goals rfl

@[simp] theorem maxPrice_remove (b : OrderBook) (side : UInt8) (price shares : UInt32)
    (orderGone : Bool) : (b.remove side price shares orderGone).2.maxPrice = b.maxPrice := by
  unfold remove
  simp only [scanDown, scanUp]
  repeat' split
  all_goals rfl

theorem bid_remove {b : OrderBook} {price shares : UInt32} {orderGone : Bool}
    (h : b.canRemove sideBuy price shares orderGone = true) :
    (b.remove sideBuy price shares orderGone).2.bid
        = Function.update b.bid price ((b.bid price).take shares orderGone)
      ∧ (b.remove sideBuy price shares orderGone).2.ask = b.ask
      ∧ (b.remove sideBuy price shares orderGone).2.bestAsk = b.bestAsk := by
  simp only [remove, h, Bool.not_true, Bool.false_eq_true, if_false, if_true, scanDown]
  split <;> exact ⟨rfl, rfl, rfl⟩

theorem ask_remove {b : OrderBook} {price shares : UInt32} {orderGone : Bool}
    (h : b.canRemove sideSell price shares orderGone = true) :
    (b.remove sideSell price shares orderGone).2.ask
        = Function.update b.ask price ((b.ask price).take shares orderGone)
      ∧ (b.remove sideSell price shares orderGone).2.bid = b.bid
      ∧ (b.remove sideSell price shares orderGone).2.bestBid = b.bestBid := by
  simp only [remove, h, Bool.not_true, Bool.false_eq_true, if_false, sideSell_ne_sideBuy, scanUp]
  split <;> exact ⟨rfl, rfl, rfl⟩

/-- An admitted removal changes one level, by the shares and the order taken. -/
theorem levels_remove {b : OrderBook} {s : Side} {price shares : UInt32} {orderGone : Bool}
    (h : b.canRemove s.code price shares orderGone = true) :
    (b.remove s.code price shares orderGone).2.levels
      = b.setLevel s price ((b.levels s price).take shares orderGone) := by
  funext s' p'
  cases s with
  | buy =>
    obtain ⟨hbid, hask, -⟩ := bid_remove h
    cases s' with
    | buy => simp [levels, setLevel, Side.code, hbid, Function.update_apply]
    | sell => simp [levels, setLevel, Side.code, hask]
  | sell =>
    obtain ⟨hask, hbid, -⟩ := ask_remove h
    cases s' with
    | buy => simp [levels, setLevel, Side.code, hbid]
    | sell => simp [levels, setLevel, Side.code, hask, Function.update_apply]

/-- The best bid after an admitted removal of bids: rescanned from just below when the best
level was emptied, else as it was. -/
theorem bestBid_remove {b : OrderBook} {price shares : UInt32} {orderGone : Bool}
    (h : b.canRemove sideBuy price shares orderGone = true) :
    (b.remove sideBuy price shares orderGone).2.bestBid =
      if ((b.bid price).take shares orderGone).totalShares = 0 ∧ price = b.bestBid then
        (scanDownFrom (Function.update b.bid price ((b.bid price).take shares orderGone))
          (price - 1).toNat).1
      else b.bestBid := by
  obtain ⟨h0, hle, -⟩ := (canRemove_iff b .buy price shares orderGone).mp h
  have hle' : price - 1 ≤ b.maxPrice := by
    rw [UInt32.le_iff_toNat_le] at hle ⊢
    have hne : price.toNat ≠ 0 := fun e => h0 (UInt32.toNat_inj.mp e)
    have := price.toNat_lt
    rw [UInt32.toNat_sub, UInt32.toNat_one]
    omega
  have hstart : (if price - 1 = 0 ∨ price - 1 > b.maxPrice
      then (if price - 1 > b.maxPrice then b.maxPrice else 0) else price - 1) = price - 1 := by
    rw [if_neg (show ¬(price - 1 > b.maxPrice) from UInt32.not_lt.mpr hle')]
    split
    · rename_i hor
      exact (hor.resolve_right (UInt32.not_lt.mpr hle')).symm
    · rfl
  simp only [remove, h, Bool.not_true, Bool.false_eq_true, if_false, if_true, scanDown, h0, hstart]
  split <;> rfl

/-- The best ask after an admitted removal of asks: rescanned from just above when the best
level was emptied, else as it was. -/
theorem bestAsk_remove {b : OrderBook} (hb : b.WellFormed) {price shares : UInt32}
    {orderGone : Bool} (h : b.canRemove sideSell price shares orderGone = true) :
    (b.remove sideSell price shares orderGone).2.bestAsk =
      if ((b.ask price).take shares orderGone).totalShares = 0 ∧ price = b.bestAsk then
        (scanUpFrom (Function.update b.ask price ((b.ask price).take shares orderGone))
          (price.toNat + 1) (b.maxPrice.toNat - price.toNat)).1
      else b.bestAsk := by
  obtain ⟨-, hle, -⟩ := (canRemove_iff b .sell price shares orderGone).mp h
  have hto : (price + 1).toNat = price.toNat + 1 := by
    have := hb.maxPrice_lt
    rw [UInt32.le_iff_toNat_le] at hle
    rw [UInt32.toNat_add, UInt32.toNat_one]
    omega
  have hne : price + 1 ≠ 0 := fun e => by
    have := congrArg UInt32.toNat e
    rw [hto] at this
    simp at this
  simp only [remove, h, Bool.not_true, Bool.false_eq_true, if_false, sideSell_ne_sideBuy, scanUp,
    hne, hto, Nat.add_sub_add_right]
  split <;> rfl

/-- Removing keeps the book well formed, whatever the arguments. -/
theorem WellFormed.remove {b : OrderBook} (hb : b.WellFormed) (side : UInt8)
    (price shares : UInt32) (orderGone : Bool) :
    (b.remove side price shares orderGone).2.WellFormed := by
  cases h : b.canRemove side price shares orderGone with
  | false => rw [remove_of_not_canRemove h]; exact hb
  | true =>
    obtain ⟨s, rfl⟩ := exists_side_of_canRemove h
    obtain ⟨h0, hle, -⟩ := (canRemove_iff b s price shares orderGone).mp h
    have hpos := nonempty_of_canRemove h
    have hout : ∀ s' p, p = 0 ∨ b.maxPrice < p →
        (b.remove s.code price shares orderGone).2.levels s' p = {} := by
      intro s' p hp
      rw [levels_remove h, setLevel, if_neg, hb.outside s' p hp]
      rintro ⟨-, rfl⟩
      exact hp.elim h0 (UInt32.not_lt.mpr hle)
    have hmax := maxPrice_remove b s.code price shares orderGone
    refine ⟨by rw [hmax]; exact hb.maxPrice_lt, by rw [hmax]; exact hout, ?_, ?_⟩
    · cases s with
      | buy =>
        rw [Side.code, (bid_remove h).1, bestBid_remove h]
        split
        · rename_i hemp
          refine (hemp.2 ▸ hb.best_bid).rescan h0 hemp.1 ?_
            (scanDownFrom_spec _ (price - 1).toNat_lt)
          exact congrArg PriceLevel.totalShares (hb.outside .buy 0 (Or.inl rfl))
        · exact hb.best_bid.keep hpos ‹_›
      | sell =>
        obtain ⟨-, hbid, hbest⟩ := ask_remove h
        rw [Side.code, hbid, hbest]
        exact hb.best_bid
    · cases s with
      | buy =>
        obtain ⟨-, hask, hbest⟩ := bid_remove h
        rw [Side.code, hask, hbest]
        exact hb.best_ask
      | sell =>
        rw [Side.code, (ask_remove h).1, bestAsk_remove hb h]
        have hlt := hb.maxPrice_lt
        have hle' := UInt32.le_iff_toNat_le.mp hle
        split
        · rename_i hemp
          refine (hemp.2 ▸ hb.best_ask).rescan hemp.1 ?_
            (scanUpFrom_spec _ (Nat.succ_pos _) (by omega))
          intro p hp
          have hin : ¬b.maxPrice < p := fun hgt =>
            hp (congrArg PriceLevel.totalShares (hb.outside .sell p (Or.inr hgt)))
          rw [UInt32.not_lt, UInt32.le_iff_toNat_le] at hin
          omega
        · exact hb.best_ask.keep hpos ‹_›

/-! ## Replacing -/

/-- What `can_replace` admits can be carried out: the removal and then the addition. -/
theorem replace_admitted {b : OrderBook} {s : Side}
    {oldPrice oldShares newPrice newShares : UInt32}
    (h : b.canReplace s.code oldPrice oldShares newPrice newShares = true) :
    b.canRemove s.code oldPrice oldShares true = true
      ∧ (b.remove s.code oldPrice oldShares true).2.canAdd s.code newPrice newShares = true := by
  unfold canReplace at h
  split at h
  · cases h
  · rename_i hguard
    simp only [Bool.not_eq_true', not_or, Bool.not_eq_false, gt_iff_lt, UInt32.not_lt] at hguard
    obtain ⟨hrem, hn0, hnle, hns⟩ := hguard
    refine ⟨hrem, ?_⟩
    obtain ⟨-, -, -, hsh, hct, hzero⟩ := (canRemove_iff b s oldPrice oldShares true).mp hrem
    have hct' := hct rfl
    rw [canAdd_iff, maxPrice_remove, levels_remove hrem]
    split at h
    · rename_i hne
      rw [canAdd_iff] at h
      simpa [setLevel, Ne.symm hne] using h
    · rename_i heq
      obtain rfl : oldPrice = newPrice := by simpa using heq
      simp only [level_code, decide_eq_true_eq] at h
      simp only [setLevel, and_self, if_true]
      refine ⟨hn0, hnle, hns, hzero, ?_, ?_⟩
      · have := newShares.toNat_lt
        rw [UInt32.le_iff_toNat_le, UInt32.toNat_sub 0xFFFFFFFF] at h
        simp only [UInt32.reduceToNat] at h
        simp only [PriceLevel.take]
        omega
      · have hc0 : (b.levels s oldPrice).orderCount.toNat ≠ 0 := fun e =>
          hct' (UInt32.toNat_inj.mp e)
        have := (b.levels s oldPrice).orderCount.toNat_lt
        simp only [PriceLevel.take, if_true, UInt32.toNat_sub, UInt32.toNat_one]
        omega

/-- A replacement that `can_replace` admits goes through. -/
theorem replace_of_canReplace {b : OrderBook} {s : Side}
    {oldPrice oldShares newPrice newShares : UInt32}
    (h : b.canReplace s.code oldPrice oldShares newPrice newShares = true) :
    b.replace s.code oldPrice oldShares newPrice newShares
      = (true, ((b.remove s.code oldPrice oldShares true).2.add s.code newPrice newShares).2) := by
  obtain ⟨hrem, hadd⟩ := replace_admitted h
  simp only [replace, h, Bool.not_true, Bool.false_eq_true, if_false, remove_fst, add_fst, hrem,
    hadd, Bool.and_true]

end OrderBook

end ItchOrderbook
