import ItchOrderbook.Trade.BarBuilder

/-!
# The bars of a sequence of trades

`expected` says what the bars are, bucket by bucket: a trade belongs to the largest bucket seen up to
it, a bar has the first, highest, lowest and last price of its trades and their shares, and a bucket
without trades is flat at the last close. The builder emits these bars (`feed_spec`), and what its
calls return adds up to their number exactly if no trade is 2^31 buckets beyond the ones before it
(`bars_aggregate`).
-/

namespace ItchOrderbook

open FloatOps

/-- A trade print. -/
structure TradePrint where
  tsNs : UInt64
  price : UInt32
  shares : UInt32
  deriving DecidableEq, Repr

/-- Integers below 2^24 are exact in a `float`: comparing and adding them is. -/
class ExactInts (F : Type) [FloatOps F] : Prop where
  lt_ofInt : ∀ {m n : ℕ}, m < 2 ^ 24 → n < 2 ^ 24 → lt (ofInt m : F) (ofInt n) = decide (m < n)
  ofInt_add : ∀ {m n : ℕ}, m + n < 2 ^ 24 → (ofInt m : F) + ofInt n = ofInt ((m + n : ℕ) : ℤ)
  zero_eq : (zero : F) = ofInt (0 : ℕ)

instance : ExactInts ℚ where
  lt_ofInt {m n} _ _ := by
    show decide (((m : ℤ) : ℚ) < ((n : ℤ) : ℚ)) = decide (m < n)
    rw [decide_eq_decide, Int.cast_lt, Int.ofNat_lt]
  ofInt_add {m n} _ := by
    show (((m : ℤ) : ℚ) + ((n : ℤ) : ℚ)) = (((m + n : ℕ) : ℤ) : ℚ)
    rw [← Int.cast_add, Nat.cast_add]
  zero_eq := by decide +kernel

/-! ## The bars that are meant -/

/-- A bar, with its values as integers. -/
structure Bar where
  o : ℕ
  h : ℕ
  l : ℕ
  c : ℕ
  v : ℕ
  deriving DecidableEq, Repr

section

variable (barNs : UInt64)

/-- The bucket of a timestamp. -/
def bucket (t : TradePrint) : ℕ := t.tsNs.toNat / barNs.toNat

/-- The largest bucket seen, from `m` on. -/
def largest (m : ℕ) (ts : List TradePrint) : ℕ := ts.foldl (fun m t => max m (bucket barNs t)) m

/-- Every trade with the bucket it belongs to, the largest seen up to it. -/
def assigned : ℕ → List TradePrint → List (ℕ × TradePrint)
  | _, [] => []
  | m, t :: ts => (max m (bucket barNs t), t) :: assigned (max m (bucket barNs t)) ts

/-- How far the trades move the largest bucket on one by one, when it is `m` before. -/
def advances : ℕ → List TradePrint → List ℕ
  | _, [] => []
  | m, t :: ts => (max m (bucket barNs t) - m) :: advances (max m (bucket barNs t)) ts

end

/-- The trades of a bucket. -/
def group (as : List (ℕ × TradePrint)) (k : ℕ) : List TradePrint :=
  (as.filter fun a => a.1 = k).map Prod.snd

/-- The bar of a bucket: flat at the close before it when it has no trades. -/
def barOf (prev : ℕ) : List TradePrint → Bar
  | [] => ⟨prev, prev, prev, prev, 0⟩
  | t :: ts =>
    { o := t.price.toNat
      h := ts.foldl (fun h u => max h u.price.toNat) t.price.toNat
      l := ts.foldl (fun l u => min l u.price.toNat) t.price.toNat
      c := (ts.getLast?.getD t).price.toNat
      v := ((t :: ts).map (·.shares.toNat)).sum }

/-- The bars of `n` buckets from `k` on. -/
def barsFrom (as : List (ℕ × TradePrint)) : ℕ → ℕ → ℕ → List Bar
  | _, _, 0 => []
  | prev, k, n + 1 =>
    barOf prev (group as k) :: barsFrom as (barOf prev (group as k)).c (k + 1) n

/-- The bars of a sequence of trades, one for every bucket from the first trade's to the largest. -/
def expected (barNs : UInt64) : List TradePrint → List Bar
  | [] => []
  | t :: ts =>
    barsFrom (assigned barNs 0 (t :: ts)) 0 (bucket barNs t)
      (largest barNs 0 (t :: ts) - bucket barNs t + 1)

/-! ## One bar -/

theorem barOf_of_ne_nil {g : List TradePrint} (h : g ≠ []) (prev prev' : ℕ) :
    barOf prev g = barOf prev' g := by
  cases g with
  | nil => exact absurd rfl h
  | cons t ts => rfl

/-- A trade more in a bucket that has some. -/
theorem barOf_concat {g : List TradePrint} (h : g ≠ []) (prev : ℕ) (t : TradePrint) :
    barOf prev (g ++ [t]) =
      { o := (barOf prev g).o
        h := max (barOf prev g).h t.price.toNat
        l := min (barOf prev g).l t.price.toNat
        c := t.price.toNat
        v := (barOf prev g).v + t.shares.toNat } := by
  cases g with
  | nil => exact absurd rfl h
  | cons u us =>
    rw [List.cons_append, barOf, barOf, List.foldl_append, List.foldl_append,
      List.getLast?_concat, ← List.cons_append, List.map_append, List.sum_append]
    rfl

theorem volume_barOf (prev : ℕ) (g : List TradePrint) :
    (barOf prev g).v = (g.map (·.shares.toNat)).sum := by
  cases g <;> rfl

/-- The prices of a bar are prices of its trades. -/
theorem barOf_lt {g : List TradePrint} {bound : ℕ} (h : ∀ t ∈ g, t.price.toNat < bound)
    (hne : g ≠ []) (prev : ℕ) :
    (barOf prev g).h < bound ∧ (barOf prev g).l < bound := by
  induction g using List.reverseRecOn with
  | nil => exact absurd rfl hne
  | append_singleton g t ih =>
    have ht : t.price.toNat < bound := h t (List.mem_append_right _ List.mem_cons_self)
    cases g with
    | nil => exact ⟨ht, ht⟩
    | cons u us =>
      obtain ⟨hh, hl⟩ := ih (fun x hx => h x (List.mem_append_left _ hx)) (List.cons_ne_nil _ _)
      rw [barOf_concat (List.cons_ne_nil _ _)]
      exact ⟨max_lt hh ht, lt_of_le_of_lt (min_le_right _ _) ht⟩

/-! ## Bars of consecutive buckets -/

/-- The close behind `n` buckets. -/
def closeAfter (as : List (ℕ × TradePrint)) : ℕ → ℕ → ℕ → ℕ
  | prev, _, 0 => prev
  | prev, k, n + 1 => closeAfter as (barOf prev (group as k)).c (k + 1) n

theorem barsFrom_congr {as as' : List (ℕ × TradePrint)} {k n : ℕ}
    (h : ∀ i, k ≤ i → i < k + n → group as i = group as' i) (prev : ℕ) :
    barsFrom as prev k n = barsFrom as' prev k n := by
  induction n generalizing k prev with
  | zero => rfl
  | succ n ih =>
    rw [barsFrom, barsFrom, h k (Nat.le_refl k) (by omega),
      ih fun i hi hlt => h i (by omega) (by omega)]

theorem barsFrom_add (as : List (ℕ × TradePrint)) (prev k m n : ℕ) :
    barsFrom as prev k (m + n) =
      barsFrom as prev k m ++ barsFrom as (closeAfter as prev k m) (k + m) n := by
  induction m generalizing prev k with
  | zero => rw [Nat.zero_add]; rfl
  | succ m ih =>
    rw [Nat.succ_add, barsFrom, ih, barsFrom, closeAfter, List.cons_append, Nat.succ_add_eq_add_succ]

theorem barsFrom_flat {as : List (ℕ × TradePrint)} {k n : ℕ}
    (h : ∀ i, k ≤ i → i < k + n → group as i = []) (prev : ℕ) :
    barsFrom as prev k n = List.replicate n ⟨prev, prev, prev, prev, 0⟩ := by
  induction n generalizing k with
  | zero => rfl
  | succ n ih =>
    rw [barsFrom, h k (Nat.le_refl k) (by omega), List.replicate_succ]
    exact congrArg _ (ih fun i hi hlt => h i (by omega) (by omega))

theorem length_barsFrom (as : List (ℕ × TradePrint)) (prev k n : ℕ) :
    (barsFrom as prev k n).length = n := by
  induction n generalizing prev k with
  | zero => rfl
  | succ n ih => rw [barsFrom, List.length_cons, ih]

/-! ## A trade more -/

section

variable (barNs : UInt64) (m : ℕ) (ts : List TradePrint) (t : TradePrint)

theorem largest_concat : largest barNs m (ts ++ [t]) = max (largest barNs m ts) (bucket barNs t) :=
  List.foldl_concat ..

theorem assigned_concat : assigned barNs m (ts ++ [t]) =
    assigned barNs m ts ++ [(max (largest barNs m ts) (bucket barNs t), t)] := by
  induction ts generalizing m with
  | nil => rfl
  | cons u us ih => rw [List.cons_append, assigned, assigned, ih, List.cons_append]; rfl

theorem group_concat (as : List (ℕ × TradePrint)) (k k' : ℕ) :
    group (as ++ [(k', t)]) k = if k' = k then group as k ++ [t] else group as k := by
  rw [group, List.filter_append, List.map_append, List.filter_cons, List.filter_nil]
  dsimp only
  split
  · rename_i h
    rw [if_pos (of_decide_eq_true h)]
    rfl
  · rename_i h
    rw [if_neg fun heq => h (decide_eq_true heq)]
    exact List.append_nil _

theorem assigned_snd : (assigned barNs m ts).map Prod.snd = ts := by
  induction ts generalizing m with
  | nil => rfl
  | cons u us ih => exact congrArg (u :: ·) (ih _)

theorem mem_of_mem_group {k : ℕ} {u : TradePrint} (h : u ∈ group (assigned barNs m ts) k) :
    u ∈ ts := by
  obtain ⟨a, ha, rfl⟩ := List.mem_map.1 h
  rw [← assigned_snd barNs m ts]
  exact List.mem_map_of_mem (List.mem_filter.1 ha).1

/-- No trade belongs to a bucket that is not reached. -/
theorem group_of_lt {k : ℕ} (h : largest barNs m ts < k) : group (assigned barNs m ts) k = [] := by
  induction ts using List.reverseRecOn with
  | nil => rfl
  | append_singleton ts t ih =>
    rw [largest_concat] at h
    rw [assigned_concat, group_concat, if_neg (by omega)]
    exact ih (lt_of_le_of_lt (le_max_left _ _) h)

end

/-! ## The builder -/

namespace BarBuilder

variable {F : Type} [FloatOps F]

/-- The series hold these bars. -/
structure Holds (bars : BarSeries F) (l : List Bar) : Prop where
  opens : bars.o = l.map fun b => ofInt b.o
  highs : bars.h = l.map fun b => ofInt b.h
  lows : bars.l = l.map fun b => ofInt b.l
  closes : bars.c = l.map fun b => ofInt b.c
  volumes : bars.v = l.map fun b => ofInt b.v

theorem Holds.push {bars : BarSeries F} {l : List Bar} (hl : Holds bars l) {o h lo c v : F}
    {b : Bar} (ho : o = ofInt b.o) (hh : h = ofInt b.h) (hlo : lo = ofInt b.l)
    (hc : c = ofInt b.c) (hv : v = ofInt b.v) :
    Holds (bars.push o h lo c v) (l ++ [b]) := by
  constructor
  case opens => rw [List.map_append, ← hl.opens, ho]; rfl
  case highs => rw [List.map_append, ← hl.highs, hh]; rfl
  case lows => rw [List.map_append, ← hl.lows, hlo]; rfl
  case closes => rw [List.map_append, ← hl.closes, hc]; rfl
  case volumes => rw [List.map_append, ← hl.volumes, hv]; rfl

theorem Holds.size_eq {bars : BarSeries F} {l : List Bar} (hl : Holds bars l) :
    bars.size = l.length := by
  rw [BarSeries.size, hl.closes, List.length_map]

/-- The open bar has the values of a bar. -/
structure Shows (b : BarBuilder F) (bar : Bar) : Prop where
  o : b.o = ofInt bar.o
  h : b.h = ofInt bar.h
  l : b.l = ofInt bar.l
  c : b.c = ofInt bar.c
  vol : b.vol = ofInt bar.v

/-- What the builder has done after some trades: the bars below the largest bucket are closed, and
its bar is open. -/
structure Built (barNs : UInt64) (first : ℕ) (ts : List TradePrint) (b : BarBuilder F) : Prop where
  sameNs : b.barNs = barNs
  isOpen : b.open_ = true
  curBucket : b.curBucket.toInt = largest barNs 0 ts
  first_le : first ≤ largest barNs 0 ts
  some_trade : group (assigned barNs 0 ts) (largest barNs 0 ts) ≠ []
  shows : Shows b (barOf 0 (group (assigned barNs 0 ts) (largest barNs 0 ts)))
  bars : Holds b.bars (barsFrom (assigned barNs 0 ts) 0 first (largest barNs 0 ts - first))

/-- The trades are in the range where everything is exact. -/
structure Exact (barNs : UInt64) (ts : List TradePrint) : Prop where
  bucket_lt : ∀ t ∈ ts, bucket barNs t < 2 ^ 63
  price_lt : ∀ t ∈ ts, t.price.toNat < 2 ^ 24
  volume_lt : ∀ k, ((group (assigned barNs 0 ts) k).map (·.shares.toNat)).sum < 2 ^ 24

theorem Exact.prefix_concat {barNs : UInt64} {ts : List TradePrint} {t : TradePrint}
    (h : Exact barNs (ts ++ [t])) : Exact barNs ts := by
  refine ⟨fun u hu => h.bucket_lt u (List.mem_append_left _ hu),
    fun u hu => h.price_lt u (List.mem_append_left _ hu), fun k => lt_of_le_of_lt ?_ (h.volume_lt k)⟩
  rw [assigned_concat, group_concat]
  split
  · rw [List.map_append, List.sum_append]
    exact Nat.le_add_right _ _
  · exact Nat.le_refl _

theorem Exact.of_append {barNs : UInt64} {ts us : List TradePrint} (h : Exact barNs (ts ++ us)) :
    Exact barNs ts := by
  induction us using List.reverseRecOn with
  | nil => rwa [List.append_nil] at h
  | append_singleton us u ih =>
    rw [← List.append_assoc] at h
    exact ih h.prefix_concat

/-- Below 2^63 a bucket is a 64-bit integer. -/
theorem toInt_bucket {barNs : UInt64} {t : TradePrint} (h : bucket barNs t < 2 ^ 63) :
    (t.tsNs / barNs).toInt64.toInt = bucket barNs t := by
  have hdiv : (t.tsNs / barNs).toBitVec.toNat = bucket barNs t := UInt64.toNat_div _ _
  show (t.tsNs / barNs).toBitVec.toInt = _
  rw [BitVec.toInt_eq_toNat_of_lt (by omega), hdiv]

theorem emitFlat_spec [ExactInts F] {l : List Bar} {close : ℕ} (n : ℕ) {completed : Int32}
    {b : BarBuilder F} (hl : Holds b.bars l) (hc : b.c = ofInt close) :
    (emitFlat n (completed, b)).1 = completed + Int32.ofNat n ∧
      (emitFlat n (completed, b)).2 = { b with bars := (emitFlat n (completed, b)).2.bars } ∧
      Holds (emitFlat n (completed, b)).2.bars
        (l ++ List.replicate n ⟨close, close, close, close, 0⟩) := by
  induction n generalizing completed b l with
  | zero =>
    refine ⟨(Int32.add_zero completed).symm, rfl, ?_⟩
    · rw [List.replicate_zero, List.append_nil]
      exact hl
  | succ n ih =>
    have hpush : Holds (b.emit b.c b.c b.c b.c zero).bars
        (l ++ [⟨close, close, close, close, 0⟩]) :=
      hl.push hc hc hc hc ExactInts.zero_eq
    obtain ⟨hret, hsame, hbars⟩ := @ih (l ++ [⟨close, close, close, close, 0⟩]) (completed + 1)
      (b.emit b.c b.c b.c b.c zero) hpush hc
    refine ⟨?_, hsame, ?_⟩
    · refine hret.trans ?_
      rw [Nat.add_comm n 1, Int32.ofNat_add, Int32.add_assoc]
      rfl
    · rw [List.append_assoc] at hbars
      exact hbars

/-- The first trade opens a bar. -/
theorem built_first (barNs : UInt64) {t : TradePrint} (hx : Exact barNs [t]) :
    ((new barNs : BarBuilder F).onTrade t.tsNs t.price t.shares).1 = 0 ∧
      Built barNs (bucket barNs t) [t]
        ((new barNs : BarBuilder F).onTrade t.tsNs t.price t.shares).2 := by
  have hlargest : largest barNs 0 [t] = bucket barNs t := Nat.zero_max _
  have hgroup : group (assigned barNs 0 [t]) (bucket barNs t) = [t] := by
    have hconcat := group_concat t [] (bucket barNs t) (bucket barNs t)
    rw [if_pos rfl] at hconcat
    show group [(max 0 (bucket barNs t), t)] _ = _
    rw [Nat.zero_max]
    exact hconcat
  refine ⟨rfl, rfl, rfl, ?_, hlargest.ge, ?_, ?_, ?_⟩
  · rw [hlargest]
    exact toInt_bucket (hx.bucket_lt t List.mem_cons_self)
  · rw [hlargest, hgroup]
    exact List.cons_ne_nil t []
  · rw [hlargest, hgroup]
    exact ⟨rfl, rfl, rfl, rfl, rfl⟩
  · rw [hlargest, Nat.sub_self]
    exact ⟨rfl, rfl, rfl, rfl, rfl⟩

/-- A trade that is folded into the open bar. -/
theorem Built.fold [ExactInts F] {barNs : UInt64} {first : ℕ} {ts : List TradePrint}
    {b : BarBuilder F} (hb : Built barNs first ts b) {t : TradePrint}
    (hx : Exact barNs (ts ++ [t])) (hle : bucket barNs t ≤ largest barNs 0 ts) :
    (b.onTrade t.tsNs t.price t.shares).1 = 0 ∧
      Built barNs first (ts ++ [t]) (b.onTrade t.tsNs t.price t.shares).2 := by
  have hlargest : largest barNs 0 (ts ++ [t]) = largest barNs 0 ts := by
    rw [largest_concat, max_eq_left hle]
  have hassigned : assigned barNs 0 (ts ++ [t]) =
      assigned barNs 0 ts ++ [(largest barNs 0 ts, t)] := by
    rw [assigned_concat, max_eq_left hle]
  -- not later than the open bar, so the code folds the trade into that one
  have hcur : (t.tsNs / b.barNs).toInt64 ≤ b.curBucket := by
    rw [Int64.le_iff_toInt_le, hb.curBucket, hb.sameNs,
      toInt_bucket (hx.bucket_lt t (List.mem_append_right _ List.mem_cons_self))]
    exact Int.ofNat_le.2 hle
  -- the model gives it to the same bucket, behind the trades it has
  have hgroup : group (assigned barNs 0 (ts ++ [t])) (largest barNs 0 ts) =
      group (assigned barNs 0 ts) (largest barNs 0 ts) ++ [t] := by
    rw [hassigned, group_concat, if_pos rfl]
  set g := group (assigned barNs 0 ts) (largest barNs 0 ts) with hg
  have hprices : ∀ u ∈ g, u.price.toNat < 2 ^ 24 := fun u hu =>
    hx.price_lt u (List.mem_append_left _ (mem_of_mem_group barNs 0 ts hu))
  have hbound := barOf_lt hprices hb.some_trade 0
  have hpx : t.price.toNat < 2 ^ 24 :=
    hx.price_lt t (List.mem_append_right _ List.mem_cons_self)
  have hvolume : (barOf 0 g).v + t.shares.toNat < 2 ^ 24 := by
    have hlt := hx.volume_lt (largest barNs 0 ts)
    rw [hgroup, List.map_append, List.sum_append] at hlt
    rw [volume_barOf]
    exact hlt
  have hshows := hb.shows
  rw [onTrade, hb.isOpen, if_neg (by decide), if_pos hcur]
  refine ⟨rfl, hb.sameNs, rfl, ?_, ?_, ?_, ?_, ?_⟩
  · rw [hlargest]
    exact hb.curBucket
  · rw [hlargest]
    exact hb.first_le
  · rw [hlargest, hgroup]
    exact List.append_ne_nil_of_left_ne_nil hb.some_trade _
  · rw [hlargest, hgroup, barOf_concat hb.some_trade]
    constructor
    case o => exact hshows.o
    case h =>
      show (if lt b.h (ofInt t.price.toNat) = true then ofInt t.price.toNat else b.h) =
        ofInt ((max (barOf 0 g).h t.price.toNat : ℕ) : ℤ)
      rw [hshows.h, ExactInts.lt_ofInt hbound.1 hpx]
      split
      · rename_i hlt
        rw [max_eq_right (of_decide_eq_true hlt).le]
      · rename_i hge
        rw [max_eq_left (Nat.not_lt.1 fun hlt => hge (decide_eq_true hlt))]
    case l =>
      show (if lt (ofInt t.price.toNat) b.l = true then ofInt t.price.toNat else b.l) =
        ofInt ((min (barOf 0 g).l t.price.toNat : ℕ) : ℤ)
      rw [hshows.l, ExactInts.lt_ofInt hpx hbound.2]
      split
      · rename_i hlt
        rw [min_eq_right (of_decide_eq_true hlt).le]
      · rename_i hge
        rw [min_eq_left (Nat.not_lt.1 fun hlt => hge (decide_eq_true hlt))]
    case c => rfl
    case vol =>
      show b.vol + ofInt t.shares.toNat = _
      rw [hshows.vol]
      exact ExactInts.ofInt_add hvolume
  · -- the bars in front of the open one do not see the trade
    have hsame : barsFrom (assigned barNs 0 (ts ++ [t])) 0 first (largest barNs 0 ts - first) =
        barsFrom (assigned barNs 0 ts) 0 first (largest barNs 0 ts - first) := by
      refine barsFrom_congr (fun i hi hlt => ?_) 0
      rw [hassigned, group_concat, if_neg (by omega)]
    rw [hlargest, hsame]
    exact hb.bars

/-- A trade that closes the open bar, and fills the gap in front of its own. -/
theorem Built.close [ExactInts F] {barNs : UInt64} {first : ℕ} {ts : List TradePrint}
    {b : BarBuilder F} (hb : Built barNs first ts b) {t : TradePrint}
    (hx : Exact barNs (ts ++ [t])) (hlt : largest barNs 0 ts < bucket barNs t) :
    (b.onTrade t.tsNs t.price t.shares).1 =
        Int32.ofNat (bucket barNs t - largest barNs 0 ts) ∧
      Built barNs first (ts ++ [t]) (b.onTrade t.tsNs t.price t.shares).2 := by
  set m := largest barNs 0 ts with hm
  set k := bucket barNs t with hk
  have hlargest : largest barNs 0 (ts ++ [t]) = k := by
    rw [largest_concat, max_eq_right hlt.le]
  have hassigned : assigned barNs 0 (ts ++ [t]) = assigned barNs 0 ts ++ [(k, t)] := by
    rw [assigned_concat, max_eq_right hlt.le]
  have hbucket : (t.tsNs / b.barNs).toInt64.toInt = k := by
    rw [hb.sameNs, toInt_bucket (hx.bucket_lt t (List.mem_append_right _ List.mem_cons_self))]
  have hcur : ¬ (t.tsNs / b.barNs).toInt64 ≤ b.curBucket := by
    rw [Int64.le_iff_toInt_le, hb.curBucket, hbucket]
    omega
  have hgap : ((t.tsNs / b.barNs).toInt64.toInt - b.curBucket.toInt - 1).toNat = k - m - 1 := by
    rw [hb.curBucket, hbucket]
    omega
  -- the trades of the buckets before, and the one of the new bucket
  have hbefore (i : ℕ) (hi : i < k) :
      group (assigned barNs 0 (ts ++ [t])) i = group (assigned barNs 0 ts) i := by
    rw [hassigned, group_concat, if_neg (by omega)]
  have hnew : group (assigned barNs 0 (ts ++ [t])) k = [t] := by
    rw [hassigned, group_concat, if_pos rfl, group_of_lt barNs 0 ts hlt]
    rfl
  set bar := barOf 0 (group (assigned barNs 0 ts) m) with hbar
  have hshows := hb.shows
  have hclosed : Holds (b.emit b.o b.h b.l b.c b.vol).bars
      (barsFrom (assigned barNs 0 ts) 0 first (m - first) ++ [bar]) :=
    hb.bars.push hshows.o hshows.h hshows.l hshows.c hshows.vol
  obtain ⟨hret, hsame, hflat⟩ := @emitFlat_spec F _ _ _ bar.c (k - m - 1) 1 _ hclosed hshows.c
  have hbars : barsFrom (assigned barNs 0 (ts ++ [t])) 0 first (k - first) =
      barsFrom (assigned barNs 0 ts) 0 first (m - first) ++ [bar] ++
        List.replicate (k - m - 1) ⟨bar.c, bar.c, bar.c, bar.c, 0⟩ := by
    have hfirst := hb.first_le
    have hsplit : k - first = m - first + (1 + (k - m - 1)) := by omega
    have hpast : barsFrom (assigned barNs 0 (ts ++ [t])) 0 first (m - first) =
        barsFrom (assigned barNs 0 ts) 0 first (m - first) :=
      barsFrom_congr (fun i hi hlt' => hbefore i (by omega)) 0
    have hopen (prev : ℕ) : barOf prev (group (assigned barNs 0 (ts ++ [t])) m) = bar := by
      rw [hbefore m hlt]
      exact barOf_of_ne_nil hb.some_trade prev 0
    have hempty : barsFrom (assigned barNs 0 (ts ++ [t])) bar.c (m + 1) (k - m - 1) =
        List.replicate (k - m - 1) ⟨bar.c, bar.c, bar.c, bar.c, 0⟩ := by
      refine barsFrom_flat (fun i hi hlt' => ?_) bar.c
      rw [hbefore i (by omega), group_of_lt barNs 0 ts (by omega)]
    rw [hsplit, barsFrom_add, hpast, Nat.add_sub_cancel' hfirst, Nat.add_comm 1, barsFrom, hopen,
      hempty, List.append_assoc]
    rfl
  rw [onTrade, hb.isOpen, if_neg (by decide), if_neg hcur, hgap]
  generalize emitFlat (k - m - 1) (1, b.emit b.o b.h b.l b.c b.vol) = r at hret hsame hflat
  obtain ⟨completed, b'⟩ := r
  dsimp only at hret hsame hflat ⊢
  have hns := congrArg BarBuilder.barNs hsame
  have hopen := congrArg BarBuilder.open_ hsame
  refine ⟨?_, hns.trans hb.sameNs, hopen.trans hb.isOpen, ?_, ?_, ?_, ?_, ?_⟩
  · have hone : k - m = 1 + (k - m - 1) := by omega
    rw [hret, hone, Int32.ofNat_add, ← hone]
    rfl
  · rw [hlargest]
    exact hbucket
  · rw [hlargest]
    exact hb.first_le.trans hlt.le
  · rw [hlargest, hnew]
    exact List.cons_ne_nil t []
  · rw [hlargest, hnew]
    exact ⟨rfl, rfl, rfl, rfl, rfl⟩
  · rw [hlargest, hbars]
    exact hflat

/-- One trade: what it returns is how far it moves the largest bucket on. -/
theorem Built.trade [ExactInts F] {barNs : UInt64} {first : ℕ} {ts : List TradePrint}
    {b : BarBuilder F} (hb : Built barNs first ts b) {t : TradePrint}
    (hx : Exact barNs (ts ++ [t])) :
    (b.onTrade t.tsNs t.price t.shares).1 =
        Int32.ofNat (max (largest barNs 0 ts) (bucket barNs t) - largest barNs 0 ts) ∧
      Built barNs first (ts ++ [t]) (b.onTrade t.tsNs t.price t.shares).2 := by
  rcases Nat.lt_or_ge (largest barNs 0 ts) (bucket barNs t) with hlt | hle
  · rw [max_eq_right hlt.le]
    exact hb.close hx hlt
  · rw [max_eq_left hle, Nat.sub_self]
    exact hb.fold hx hle

/-! ## A whole sequence of trades -/

/-- Trades fed one by one, with what the calls return. -/
def feed (b : BarBuilder F) : List TradePrint → List Int32 × BarBuilder F
  | [] => ([], b)
  | t :: ts =>
    let (r, b) := b.onTrade t.tsNs t.price t.shares
    let (rs, b) := feed b ts
    (r :: rs, b)

/-- The trades and then `flush`. -/
def session (F : Type) [FloatOps F] (barNs : UInt64) (ts : List TradePrint) :
    List Int32 × BarSeries F :=
  let (rs, b) := feed (new barNs) ts
  let (r, b) := b.flush
  (rs ++ [r], b.bars)

theorem feed_cons (b : BarBuilder F) (t : TradePrint) (ts : List TradePrint) :
    feed b (t :: ts) =
      ((b.onTrade t.tsNs t.price t.shares).1 :: (feed (b.onTrade t.tsNs t.price t.shares).2 ts).1,
        (feed (b.onTrade t.tsNs t.price t.shares).2 ts).2) := rfl

/-- All trades behind some that are built. Induction on the trades. -/
theorem Built.feed [ExactInts F] {barNs : UInt64} {first : ℕ} {ts us : List TradePrint}
    {b : BarBuilder F} (hb : Built barNs first ts b) (hx : Exact barNs (ts ++ us)) :
    (feed b us).1 = (advances barNs (largest barNs 0 ts) us).map Int32.ofNat ∧
      Built barNs first (ts ++ us) (feed b us).2 := by
  induction us generalizing ts b with
  | nil => exact ⟨rfl, (List.append_nil ts).symm ▸ hb⟩
  | cons u us ih =>
    have hassoc : ts ++ u :: us = ts ++ [u] ++ us := by
      rw [List.append_assoc]
      rfl
    rw [hassoc] at hx ⊢
    obtain ⟨hret, hbuilt⟩ := hb.trade hx.of_append
    obtain ⟨hrets, hall⟩ := ih hbuilt hx
    rw [feed_cons]
    refine ⟨?_, hall⟩
    dsimp only
    rw [hret, hrets, largest_concat]
    rfl

/-- How far each trade is beyond the largest bucket before it; the first has none before it. -/
def advancesOf (barNs : UInt64) : List TradePrint → List ℕ
  | [] => []
  | t :: ts => 0 :: advances barNs (bucket barNs t) ts

theorem sum_advances (barNs : UInt64) (m : ℕ) (ts : List TradePrint) :
    m + (advances barNs m ts).sum = largest barNs m ts := by
  induction ts generalizing m with
  | nil => rfl
  | cons t ts ih =>
    have hle := le_max_left m (bucket barNs t)
    show m + (max m (bucket barNs t) - m + (advances barNs (max m (bucket barNs t)) ts).sum) = _
    rw [← Nat.add_assoc, Nat.add_sub_cancel' hle, ih]
    rfl

/-- The bars of a session, and what its calls return. -/
theorem session_spec [ExactInts F] {barNs : UInt64} {ts : List TradePrint}
    (hx : Exact barNs ts) :
    Holds (session F barNs ts).2 (expected barNs ts) ∧
      (session F barNs ts).1 = (advancesOf barNs ts).map Int32.ofNat ++ [if ts = [] then 0 else 1] ∧
      (session F barNs ts).2.size = (advancesOf barNs ts).sum + if ts = [] then 0 else 1 := by
  cases ts with
  | nil => exact ⟨⟨rfl, rfl, rfl, rfl, rfl⟩, rfl, rfl⟩
  | cons t ts =>
    have hone : Exact barNs [t] := @Exact.of_append barNs [t] ts hx
    obtain ⟨hret, hbuilt⟩ := @built_first F _ barNs t hone
    obtain ⟨hrets, hall⟩ := hbuilt.feed hx
    have hbucket : largest barNs 0 [t] = bucket barNs t := Nat.zero_max _
    have hlargest : largest barNs (bucket barNs t) ts = largest barNs 0 (t :: ts) := by
      show _ = largest barNs (max 0 (bucket barNs t)) ts
      rw [Nat.zero_max]
    set b := (feed (new barNs : BarBuilder F) (t :: ts)).2 with hb
    change Built barNs (bucket barNs t) (t :: ts) b at hall
    have hflush : b.flush = (1, { b.emit b.o b.h b.l b.c b.vol with open_ := false }) := by
      rw [flush, hall.isOpen]
      rfl
    have hbars : Holds (session F barNs (t :: ts)).2 (expected barNs (t :: ts)) := by
      show Holds b.flush.2.bars _
      rw [hflush, expected, barsFrom_add, Nat.add_sub_cancel' hall.first_le, barsFrom, barsFrom,
        barOf_of_ne_nil hall.some_trade _ 0]
      exact hall.bars.push hall.shows.o hall.shows.h hall.shows.l hall.shows.c hall.shows.vol
    refine ⟨hbars, ?_, ?_⟩
    · show (feed (new barNs : BarBuilder F) (t :: ts)).1 ++ [b.flush.1] = _
      rw [feed_cons, hret, hrets, hflush, hbucket, if_neg (List.cons_ne_nil t ts)]
      rfl
    · have hsum := sum_advances barNs (bucket barNs t) ts
      rw [hlargest] at hsum
      rw [hbars.size_eq, expected, length_barsFrom, if_neg (List.cons_ne_nil t ts)]
      show _ = 0 + (advances barNs (bucket barNs t) ts).sum + 1
      omega

/-- An `int` is at most the number it stands for, and is it below 2^31 only. -/
theorem toInt_ofNat_le (n : ℕ) : (Int32.ofNat n).toInt ≤ n ∧
    ((Int32.ofNat n).toInt = n ↔ n < 2 ^ 31) := by
  rw [Int32.toInt_ofNat', Int.bmod_def, show ((Int32.size : ℕ) : ℤ) = 2 ^ 32 from rfl]
  constructor
  · split <;> omega
  · split <;> omega

theorem sum_toInt_eq_iff (ns : List ℕ) :
    ((ns.map Int32.ofNat).map Int32.toInt).sum ≤ (ns.sum : ℕ) ∧
      (((ns.map Int32.ofNat).map Int32.toInt).sum = (ns.sum : ℕ) ↔ ∀ n ∈ ns, n < 2 ^ 31) := by
  induction ns with
  | nil => exact ⟨Int.le_refl 0, iff_of_true rfl fun n hn => absurd hn List.not_mem_nil⟩
  | cons n ns ih =>
    obtain ⟨hle, hiff⟩ := toInt_ofNat_le n
    obtain ⟨hles, hiffs⟩ := ih
    rw [List.map_cons, List.map_cons, List.sum_cons, List.sum_cons, Nat.cast_add,
      List.forall_mem_cons, ← hiff, ← hiffs]
    exact ⟨by omega, by omega⟩

/-- The bars are the ones meant, and what the calls return adds up to their number exactly if no
trade is 2^31 buckets or more beyond the largest before it. -/
theorem bars_aggregate [ExactInts F] (barNs : UInt64) (ts : List TradePrint)
    (hx : Exact barNs ts) :
    (Holds (session F barNs ts).2 (expected barNs ts) ∧
      ((session F barNs ts).1.map Int32.toInt).sum = (session F barNs ts).2.size) ↔
    ∀ n ∈ advancesOf barNs ts, n < 2 ^ 31 := by
  obtain ⟨hbars, hret, hsize⟩ := @session_spec F _ _ barNs ts hx
  rw [and_iff_right hbars, hret, hsize, ← (sum_toInt_eq_iff (advancesOf barNs ts)).2,
    List.map_append, List.sum_append, Nat.cast_add]
  cases ts with
  | nil => exact iff_of_true rfl rfl
  | cons t ts =>
    rw [if_neg (List.cons_ne_nil t ts), if_neg (List.cons_ne_nil t ts)]
    exact ⟨fun h => add_right_cancel h, fun h => congrArg (· + 1) h⟩

/-- Small trades are exact. -/
theorem exact_of_total {barNs : UInt64} {ts : List TradePrint}
    (hbucket : ∀ t ∈ ts, bucket barNs t < 2 ^ 63) (hprice : ∀ t ∈ ts, t.price.toNat < 2 ^ 24)
    (htotal : (ts.map (·.shares.toNat)).sum < 2 ^ 24) : Exact barNs ts := by
  refine ⟨hbucket, hprice, fun k => lt_of_le_of_lt ?_ htotal⟩
  have hsub : (group (assigned barNs 0 ts) k).Sublist ts := by
    have hfilter := (List.filter_sublist (p := fun a : ℕ × TradePrint => decide (a.1 = k))
      (l := assigned barNs 0 ts)).map Prod.snd
    rwa [assigned_snd] at hfilter
  exact (hsub.map _).sum_le_sum fun n _ => Nat.zero_le n

/-- A trade, and one four buckets on. -/
def gapTrades : List TradePrint := [⟨100, 5000, 10⟩, ⟨4000000005, 5300, 2⟩]

theorem bars_aggregate_gap :
    Holds (session ℚ 1000000000 gapTrades).2 (expected 1000000000 gapTrades) ∧
      ((session ℚ 1000000000 gapTrades).1.map Int32.toInt).sum =
        (session ℚ 1000000000 gapTrades).2.size :=
  (bars_aggregate 1000000000 gapTrades
    (exact_of_total (by decide) (by decide) (by decide))).2 (by decide)

/-- A trade, and one 2^31 nanoseconds later. -/
def farTrades : List TradePrint := [⟨0, 5000, 1⟩, ⟨2147483648, 5000, 1⟩]

/-- With bars of a nanosecond the second call completes 2^31 bars, which it cannot return. -/
theorem far_trades_overflow :
    Exact 1 farTrades ∧
      ((session ℚ 1 farTrades).1.map Int32.toInt).sum ≠ (session ℚ 1 farTrades).2.size := by
  have hexact : Exact 1 farTrades := exact_of_total (by decide) (by decide) (by decide)
  have hadvances : advancesOf 1 farTrades = [0, 2147483648] := by decide
  obtain ⟨-, hret, hsize⟩ := @session_spec ℚ _ _ 1 farTrades hexact
  refine ⟨hexact, ?_⟩
  rw [hret, hsize, hadvances]
  decide

end BarBuilder

end ItchOrderbook
