import ItchOrderbook.Lib.Drawdown
import ItchOrderbook.Replay.MainReplaySpec
import ItchOrderbook.Trade.TradingRun
import ItchOrderbook.Util.CleanStreams

/-!
# What a trading session reports

What `run_session` returns is read off the locals at the end of the stream (`Ended`). The bars, the
counts and the counters are those of the stream, whatever the strategy does (`runSession_market`);
the manager ends flat, and the cash and the return are the gains of the trades
(`runSession_settles`); the drawdown is the largest of the equity curve. `runSession_returns` says
when there is a result, and `runSession_trusted_iff` when `trade_main` trusts it.
-/

namespace ItchOrderbook

open BigEndian FloatOps Framing TradingSession

/-! ## How many bars there are -/

namespace BarBuilder

variable {F : Type} [FloatOps F]

/-- No more bars are completed than there are buckets below the open bar's. -/
structure Within (barNs : UInt64) (bound : ℕ) (b : BarBuilder F) : Prop where
  barNs_eq : b.barNs = barNs
  fresh : b.open_ = false → b.bars.size = 0
  current : b.open_ = true → (b.bars.size : ℤ) ≤ b.curBucket.toInt ∧ b.curBucket.toInt < bound

variable {barNs : UInt64} {bound : ℕ} {b : BarBuilder F}

theorem size_emitFlat_eq (n : ℕ) (p : Int32 × BarBuilder F) :
    (emitFlat n p).2.bars.size = p.2.bars.size + n ∧ (emitFlat n p).2.barNs = p.2.barNs := by
  induction n generalizing p with
  | zero => exact ⟨rfl, rfl⟩
  | succ n ih =>
    obtain ⟨hsize, hns⟩ := ih (p.1 + 1, p.2.emit p.2.c p.2.c p.2.c p.2.c zero)
    refine ⟨hsize.trans ?_, hns⟩
    show (p.2.bars.push p.2.c p.2.c p.2.c p.2.c zero).size + n = _
    rw [size_push]
    omega

/-- A trade closes the open bar and fills the gap up to its own bucket. -/
theorem Within.onTrade (h : Within barNs bound b) {t : TradePrint}
    (ht : bucket barNs t < bound) (hbound : bound ≤ 2 ^ 63) :
    Within barNs bound (b.onTrade t.tsNs t.price t.shares).2 := by
  have hbucket : (t.tsNs / b.barNs).toInt64.toInt = bucket barNs t := by
    rw [h.barNs_eq]
    exact toInt_bucket (ht.trans_le hbound)
  have hfresh : (b.onTrade t.tsNs t.price t.shares).2.open_ = false →
      (b.onTrade t.tsNs t.price t.shares).2.bars.size = 0 := fun hclosed => by
    rw [open_onTrade] at hclosed
    cases hclosed
  suffices hrest : (b.onTrade t.tsNs t.price t.shares).2.barNs = barNs ∧
      ((b.onTrade t.tsNs t.price t.shares).2.bars.size : ℤ) ≤
          (b.onTrade t.tsNs t.price t.shares).2.curBucket.toInt ∧
        (b.onTrade t.tsNs t.price t.shares).2.curBucket.toInt < bound from
    ⟨hrest.1, hfresh, fun _ => hrest.2⟩
  cases hopen : b.open_ with
  | false =>
    have hnone := h.fresh hopen
    rw [BarBuilder.onTrade, hopen, if_pos (by decide)]
    dsimp only
    rw [hbucket, hnone]
    exact ⟨h.barNs_eq, by omega, by omega⟩
  | true =>
    obtain ⟨hsize, hlt⟩ := h.current hopen
    rw [BarBuilder.onTrade, hopen, if_neg (by decide)]
    dsimp only
    by_cases hle : (t.tsNs / b.barNs).toInt64 ≤ b.curBucket
    · rw [if_pos hle]
      exact ⟨h.barNs_eq, hsize, hlt⟩
    · rw [if_neg hle]
      obtain ⟨hsize', hns'⟩ := size_emitFlat_eq
        ((t.tsNs / b.barNs).toInt64.toInt - b.curBucket.toInt - 1).toNat
        (1, b.emit b.o b.h b.l b.c b.vol)
      have hemit : (b.emit b.o b.h b.l b.c b.vol).bars.size = b.bars.size + 1 := size_push ..
      have hpast : b.curBucket.toInt < (t.tsNs / b.barNs).toInt64.toInt := by
        rw [Int64.le_iff_toInt_le] at hle
        omega
      rw [hbucket] at hpast hsize' hns'
      dsimp only
      rw [hbucket, hsize', hemit]
      exact ⟨hns'.trans h.barNs_eq, by omega, by omega⟩

/-- Buckets below a bound give at most as many bars. -/
theorem size_session_le {ts : List TradePrint} (hbound : bound ≤ 2 ^ 63)
    (hts : ∀ t ∈ ts, bucket barNs t < bound) : (session F barNs ts).2.size ≤ bound := by
  have hfeed : Within barNs bound (feed (new barNs : BarBuilder F) ts).2 := by
    induction ts using List.reverseRecOn with
    | nil => exact ⟨rfl, fun _ => rfl, fun hopen => by cases hopen⟩
    | append_singleton ts t ih =>
      rw [feed_concat]
      exact (ih fun u hu => hts u (List.mem_append_left _ hu)).onTrade
        (hts t (List.mem_append_right _ List.mem_cons_self)) hbound
  show (feed (new barNs : BarBuilder F) ts).2.flush.2.bars.size ≤ bound
  generalize (feed (new barNs : BarBuilder F) ts).2 = b at hfeed
  unfold flush
  cases hopen : b.open_ with
  | false =>
    rw [if_pos (by decide)]
    exact (hfeed.fresh hopen).le.trans (Nat.zero_le _)
  | true =>
    obtain ⟨hsize, hlt⟩ := hfeed.current hopen
    rw [if_neg (by decide)]
    show (b.bars.push b.o b.h b.l b.c b.vol).size ≤ bound
    rw [size_push]
    omega

end BarBuilder

/-! ## The end of a session -/

/-- The table of a session. -/
def sessionTable : OrderRefTable := .empty ((1 : UInt32) <<< 20)

theorem sessionTable_pow : ((1 : UInt32) <<< 20).toNat = 2 ^ 20 := by decide

theorem new_sessionTable : OrderRefTable.new ((1 : UInt32) <<< 20) = some sessionTable :=
  OrderRefTable.new_eq sessionTable_pow

theorem refines_sessionTable : sessionTable.Refines (RefMap.new (2 ^ 20)) :=
  OrderRefTable.refines_empty sessionTable_pow

/-- The engine of a session. -/
def tableEngine : BookEngine OrderRefTable := .new 1000000 sessionTable

/-- The locals when `run_session` returns, after the messages `ms`. -/
structure TradingSession.Ended {F : Type} [FloatMath F] (sc : SessionConfig F)
    (ms : List DecodedMessage) (s : TradingSession F) : Prop where
  run : Session.Runs (mapSession sc) .done ⟨mapEngine.run (knownMessages ms), s.om⟩
  ctr : s.eng.ctr = (mapEngine.run (knownMessages ms)).ctr
  bars : s.bb.bars = (BarBuilder.session F sc.barNs
    (mapEngine.tradePrints sc.locate (knownMessages ms))).2
  equity : s.bb.bars.size < 2 ^ 31 → s.equity.length = s.bb.bars.size
  submissions : s.om.submissions.length ≤ ms.length + 2 ^ 32
  messages : s.messages = UInt64.ofNat ms.length
  malformed : s.malformedMessages = UInt64.ofNat (ms.countP fun m => m.type = .unknown)

section Sessions

variable {F : Type} [FloatMath F] {data : List UInt8} {prog : Program} {sc : SessionConfig F}
  {res : SessionResult F}

/-- The flush and `finish` end a session. -/
theorem TradingSession.After.close {ms : List DecodedMessage} {s s' : TradingSession F}
    (h : After prog sc ms s) (hclose : s.close = .ok s') : Ended sc ms s' ∧ s'.eng = s.eng := by
  obtain ⟨s₁, hflush, hfinish⟩ := CheckedState.bind_eq_ok.1 hclose
  cases hfinish
  obtain ⟨hfollows, hbb, hnext, heng, hmessages, hmalformed⟩ := h.flushBars hflush
  obtain ⟨r, -, hover⟩ := hfollows.backed
  refine ⟨⟨hfollows.run.finish s₁.lastTs, ?_, ?_, ?_, ?_, ?_, ?_⟩, heng⟩
  · rw [← hover]
    rfl
  · show s₁.bb.bars = _
    rw [hbb, h.bars]
    rfl
  · intro hsize
    show s₁.equity.length = s₁.bb.bars.size
    rw [hfollows.equity, hnext hsize]
  · show (s₁.om.finish s₁.lastTs).submissions.length ≤ _
    rw [(OrderManager.same_finish s₁.om s₁.lastTs).submissions]
    -- two for each bar, and an `int` counts the bars
    have hsubs := hfollows.submissions
    have hlt := hfollows.nextBar_lt
    omega
  · exact hmessages.trans h.messages
  · exact hmalformed.trans h.malformed

/-- What the locals have gone through when a session ends. -/
theorem runToEnd_cases {left : List UInt8} {s : TradingSession F}
    (h : runToEnd data prog sc = some (.ok (left, s))) :
    tableEngine.runs (knownMessages (messagesOf data)) = some s.eng ∧
      Ended sc (messagesOf data) s ∧ left = rest data := by
  unfold runToEnd at h
  split at h
  · cases h
  · split at h
    · cases h
    · cases h
    · rename_i refs vm hrefs hvm
      obtain rfl : refs = sessionTable := Option.some.inj (hrefs.symm.trans new_sessionTable)
      obtain ⟨ended, hloop, h⟩ := Option.map_eq_some_iff.1 h
      rw [loop_eq] at hloop
      obtain ⟨run, htakes, rfl⟩ := Option.map_eq_some_iff.1 hloop
      cases run with
      | error f => cases h
      | ok s₁ =>
        obtain ⟨⟨left', s₂⟩, hsame, h⟩ := CheckedState.bind_eq_ok.1 h
        cases hsame
        obtain ⟨s', hclosed, h⟩ := CheckedState.bind_eq_ok.1 h
        cases h
        cases hclose : s₁.close with
        | error f =>
          rw [hclose] at hclosed
          cases hclosed
        | ok s₃ =>
          rw [hclose] at hclosed
          cases hclosed
          obtain ⟨hafter, hruns⟩ := (after_new hrefs hvm).takes htakes
          obtain ⟨hended, heng⟩ := hafter.close hclose
          exact ⟨heng ▸ hruns, hended, rfl⟩

/-- The result is read off the locals at the end. -/
theorem runSession_ok_iff : runSession data prog sc = some (.ok res) ↔
    ∃ left s, runToEnd data prog sc = some (.ok (left, s)) ∧
      res = s.result sc (decide (left.length ≠ 0)) := by
  unfold runSession
  constructor
  · intro h
    obtain ⟨ended, hended, h⟩ := Option.map_eq_some_iff.1 h
    cases ended with
    | error what => cases h
    | ok p =>
      cases h
      exact ⟨p.1, p.2, hended, rfl⟩
  · rintro ⟨left, s, hended, rfl⟩
    rw [hended]
    rfl

/-- What a session does when it returns a result. -/
theorem runSession_cases (h : runSession data prog sc = some (.ok res)) :
    ∃ s, tableEngine.runs (knownMessages (messagesOf data)) = some s.eng ∧
      Ended sc (messagesOf data) s ∧ res = s.result sc (decide ((rest data).length ≠ 0)) := by
  obtain ⟨left, s, hend, hres⟩ := runSession_ok_iff.1 h
  obtain ⟨hruns, hended, rfl⟩ := runToEnd_cases hend
  exact ⟨s, hruns, hended, hres⟩

end Sessions

/-! ## Streams that do not fill the table -/

namespace BookEngine

theorem size_insert_le (live : LiveOrders) (ref : UInt64) (v : Value) :
    (live.insert ref v).size ≤ live.size + 1 := by
  cases hv : live.lookup ref with
  | none => rw [Finmap.size_insert_of_notMem v (Finmap.lookup_eq_none.1 hv)]
  | some v' =>
    rw [Finmap.size_insert_of_lookup v hv]
    exact Nat.le_succ _

/-- A message adds at most one order. -/
theorem size_next {e : BookEngine RefMap} (hinv : e.Inv) (m : DecodedMessage) :
    (e.next m).refs.live.size ≤ e.refs.live.size + 1 := by
  have hout := step_outcome hinv m
  generalize (e.step m).2 = out at hout
  cases hout with
  | rejected _ same => exact same.refs ▸ Nat.le_succ _
  | printed _ _ same => exact same.refs ▸ Nat.le_succ _
  | system _ _ same => exact same.refs ▸ Nat.le_succ _
  | added _ _ _ _ _ _ _ _ _ _ _ upd =>
    rw [upd.live_eq]
    exact size_insert_le ..
  | reduced v _ _ hv _ _ _ upd =>
    rw [upd.live_eq, reduceLive]
    split
    · exact (Finmap.size_erase_le ..).trans (Nat.le_succ _)
    · exact size_insert_le ..
  | deleted _ _ _ _ _ upd =>
    rw [upd.live_eq]
    exact (Finmap.size_erase_le ..).trans (Nat.le_succ _)
  | replaced _ _ _ _ _ _ _ _ _ _ _ _ upd =>
    rw [upd.live_eq]
    exact (size_insert_le ..).trans (Nat.succ_le_succ (Finmap.size_erase_le ..))

variable {e : BookEngine OrderRefTable} {r : RefMap}

/-- As long as there is room for all the messages, the engine goes the way of the one over the map.
Induction on the messages. -/
theorem runs_of_room (href : e.refs.Refines r) (hinv : (e.over r).Inv) {ms : List DecodedMessage}
    (hroom : r.live.size + ms.length ≤ r.capacity) :
    (∃ e', e.runs ms = some e') ∧
      ((∀ k < ms.length, ((e.over r).run (ms.take (k + 1))).lastStatus = .applied) →
        e.AppliesAll ms) := by
  induction ms generalizing e r with
  | nil => exact ⟨⟨e, rfl⟩, fun _ => trivial⟩
  | cons m ms ih =>
    rw [List.length_cons] at hroom
    have hnot : ¬e.Endless m := by
      rintro ⟨-, hfull⟩
      have hsize := href.size_eq
      have hcap : e.refs.capacity = r.capacity := href.capacity.symm
      omega
    obtain ⟨x, hx⟩ := apply_returns href hinv hnot
    obtain ⟨-, r', href', hnext⟩ := apply_some href hinv hx
    have hinv' : (x.1.1.over r').Inv := hnext ▸ hinv.next m
    have hsize := size_next hinv m
    have hcap : ((e.over r).next m).refs.capacity = r.capacity :=
      (step_outcome hinv m).shape.capacity
    rw [hnext] at hsize hcap
    obtain ⟨⟨e', hrun⟩, happ⟩ := ih href' hinv'
      (by rw [refs_over] at hsize hcap; rw [refs_over] at hsize; omega)
    refine ⟨⟨e', ?_⟩, fun hall => ⟨x, hx, ?_, happ fun k hk => ?_⟩⟩
    · rw [runs_cons, hx]
      exact hrun
    · have hfirst := hall 0 (Nat.succ_pos _)
      change ((e.over r).next m).lastStatus = .applied at hfirst
      rw [hnext] at hfirst
      exact hfirst
    · have hlater := hall (k + 1) (Nat.succ_lt_succ hk)
      rw [List.take_succ_cons] at hlater
      rw [← hnext]
      exact hlater

end BookEngine

/-! ## Sessions that return -/

section Returning

variable {F : Type} [FloatMath F] {data : List UInt8} {prog : Program} {sc : SessionConfig F}
  {res : SessionResult F}

theorem new_isOk_iff {params : List F} : (∃ vm, StrategyVM.new prog params = .ok vm) ↔
    params = [] ∨ params.length = prog.paramDefaults.length := by
  unfold StrategyVM.new
  rcases eq_or_ne params [] with rfl | hne
  · simp [pure, Except.pure]
  · have hnil : params.isEmpty = false := by simpa using hne
    simp only [hnil, Bool.false_eq_true, if_false, hne, false_or, ne_eq]
    split
    · rename_i hlen
      exact iff_of_false (by rintro ⟨vm, hvm⟩; cases hvm) hlen
    · rename_i hlen
      exact iff_of_true ⟨_, rfl⟩ (by simpa using hlen)

/-- What the constructors throw otherwise. -/
theorem runSession_throws (h : ¬(sc.barNs ≠ 0 ∧
      (sc.params = [] ∨ sc.params.length = prog.paramDefaults.length))) :
    (∃ what, runSession data prog sc = some (.error (.invalidArgument what))) ∨
      ∃ what, runSession data prog sc = some (.error (.runtimeError what)) := by
  unfold runSession runToEnd
  split
  · exact .inl ⟨_, rfl⟩
  · rename_i hns
    have hparams : ¬∃ vm : StrategyVM F, StrategyVM.new prog sc.params = .ok vm :=
      fun hvm => h ⟨hns, new_isOk_iff.1 hvm⟩
    rw [new_sessionTable]
    cases hvm : StrategyVM.new prog sc.params with
    | error what => exact .inr ⟨what, rfl⟩
    | ok vm => exact absurd ⟨vm, hvm⟩ hparams

/-- How a session with a sane configuration ends: not at all, or with a result. -/
theorem runSession_ends [CountsBack F] (hp : prog.Accepted) (hsinks : prog.SinksOnce)
    (hns : sc.barNs ≠ 0)
    (hparams : sc.params = [] ∨ sc.params.length = prog.paramDefaults.length) :
    (runSession data prog sc = none ∧ tableEngine.runs (knownMessages (messagesOf data)) = none) ∨
      ∃ res, runSession data prog sc = some (.ok res) := by
  obtain ⟨vm, hvm⟩ := new_isOk_iff.2 hparams
  have hstart := after_new new_sessionTable hvm
  unfold runSession runToEnd
  rw [if_neg hns, new_sessionTable, hvm]
  dsimp only
  rw [loop_eq, show (split data).map decoded = messagesOf data from rfl]
  rcases hstart.takes_returns hp hsinks with ⟨htakes, hruns⟩ | ⟨s, htakes⟩
  · refine .inl ⟨?_, hruns⟩
    rw [htakes]
    rfl
  · obtain ⟨s', hclose⟩ := ((hstart.takes htakes).1).close_returns hp hsinks
    refine .inr ⟨s'.result sc (decide ((rest data).length ≠ 0)), ?_⟩
    rw [htakes]
    show some (Except.map _ (do
      let s ← s.close.mapError SessionError.fault
      return (rest data, s))) = _
    rw [hclose]
    rfl

/-- Fewer messages than the table has slots do not fill it. -/
theorem runs_of_few {ms : List DecodedMessage} (hfew : ms.length ≤ 2 ^ 20) :
    (∃ e, tableEngine.runs ms = some e) ∧
      ((∀ k < ms.length, (mapEngine.run (ms.take (k + 1))).lastStatus = .applied) →
        tableEngine.AppliesAll ms) := by
  have hinv : (tableEngine.over (RefMap.new (2 ^ 20))).Inv := BookEngine.inv_new _ _
  have hroom : (RefMap.new (2 ^ 20)).live.size + ms.length ≤ (RefMap.new (2 ^ 20)).capacity := by
    show 0 + ms.length ≤ 2 ^ 20
    omega
  exact BookEngine.runs_of_room refines_sessionTable hinv hroom

end Returning

/-! ### A session -/

/-- A strategy that enters long on every bar. -/
def alwaysLong : Program :=
  { code := [0, 0x29000000, 0x31000000], consts := [0x3F800000], maxStack := 1 }

theorem parse_alwaysLong : Program.parse (Program.encode alwaysLong) = .ok alwaysLong := by
  decide +kernel

/-- The body of an order or a trade of fifty shares at a second, to sell. -/
def sellBody (type : Char) (second price tail : ℕ) : List UInt8 :=
  [type.toUInt8, 0, 1, 0, 0] ++ toBytes 8 (second * 1000000000) ++ toBytes 8 1 ++ [sideSell] ++
    toBytes 4 50 ++ toBytes 8 0 ++ toBytes 4 price ++ toBytes tail 0

/-- An order to sell, and two trades two bars apart. -/
def tapeBodies : List (List UInt8) :=
  [sellBody 'A' 1 5010 0, sellBody 'P' 2 5000 8, sellBody 'P' 4 5005 8]

/-- Their stream. -/
def tape : List UInt8 := tapeBodies.flatMap frame

/-- A message takes two bytes at least. -/
theorem length_messagesOf_le (data : List UInt8) : 2 * (messagesOf data).length ≤ data.length := by
  unfold messagesOf
  rw [List.length_map]
  induction data using split.induct with
  | case1 data hshort =>
    rw [Incomplete.split_eq hshort]
    exact Nat.zero_le _
  | case2 data hfull ih =>
    rw [split, if_neg hfull, List.length_cons]
    rw [List.length_drop] at ih
    omega

theorem messagesOf_tape : messagesOf tape = tapeBodies.map decoded := by
  rw [messagesOf, tape, split_flatMap (by decide)]

/-- The tape is short, its seconds are few, and each of its messages is applied. -/
theorem tape_facts : tape.length ≤ 200 ∧
    (∀ m ∈ tapeBodies.map decoded, m.timestamp.toNat / 1000000000 < 2 ^ 31 - 1) ∧
    ∀ k < (tapeBodies.map decoded).length,
      (mapEngine.run ((tapeBodies.map decoded).take (k + 1))).lastStatus = .applied := by
  decide +kernel

theorem tape_length : tape.length < 2 ^ 63 := by
  have := tape_facts.1
  omega

theorem length_messagesOf_tape : (messagesOf tape).length ≤ 2 ^ 20 := by
  have hmessages := length_messagesOf_le tape
  have := tape_facts.1
  omega

theorem length_known_tape : (knownMessages (messagesOf tape)).length ≤ 2 ^ 20 :=
  (List.length_filter_le _ _).trans length_messagesOf_tape

/-- Bars of a second, and entries that cross. -/
def tapeConfig : SessionConfig ℚ :=
  { locate := 1, barNs := 1000000000, om := Session.crossConfig, params := [] }

theorem session_tape : ∃ res, runSession tape alwaysLong tapeConfig = some (.ok res) := by
  obtain ⟨⟨e, hruns⟩, -⟩ := runs_of_few length_known_tape
  rcases @runSession_ends ℚ _ tape _ tapeConfig _ (Program.parse_accepted parse_alwaysLong)
    (by decide) (by decide) (.inl rfl) with ⟨-, hnone⟩ | hres
  · rw [hnone] at hruns
    cases hruns
  · exact hres

/-! ### The result -/

/-- **When a session returns.** A program that `Program::parse` accepts, with each signal sink at
most once, never accesses anything out of range; the session has a result exactly if its bars have a
length, its parameters have the right number, and the book engine returns on every message; and on
no more messages than its table has slots it does. -/
theorem runSession_returns {F : Type} [FloatMath F] [CountsBack F] {data : List UInt8}
    {prog : Program} {sc : SessionConfig F} {bytes : List UInt8}
    (hparse : Program.parse bytes = .ok prog) (hsinks : prog.SinksOnce) :
    (∀ f, runSession data prog sc ≠ some (.error (.fault f))) ∧
      ((∃ res, runSession data prog sc = some (.ok res)) ↔
        sc.barNs ≠ 0 ∧ (sc.params = [] ∨ sc.params.length = prog.paramDefaults.length) ∧
          ∃ e, tableEngine.runs (knownMessages (messagesOf data)) = some e) ∧
      ((knownMessages (messagesOf data)).length ≤ 2 ^ 20 →
        ∃ e, tableEngine.runs (knownMessages (messagesOf data)) = some e) := by
  have hp := Program.parse_accepted hparse
  refine ⟨fun f h => ?_, ⟨fun ⟨res, h⟩ => ?_, fun ⟨hns, hparams, e, hruns⟩ => ?_⟩,
    fun hfew => (runs_of_few hfew).1⟩
  · by_cases hsane : sc.barNs ≠ 0 ∧
        (sc.params = [] ∨ sc.params.length = prog.paramDefaults.length)
    · rcases runSession_ends hp hsinks hsane.1 hsane.2 with ⟨hnone, -⟩ | ⟨res, hres⟩
      · rw [hnone] at h
        cases h
      · rw [hres] at h
        cases h
    · rcases runSession_throws hsane with ⟨what, hthrow⟩ | ⟨what, hthrow⟩
      · rw [hthrow] at h
        cases h
      · rw [hthrow] at h
        cases h
  · obtain ⟨s, hruns, -⟩ := runSession_cases h
    by_contra hnot
    rw [← and_assoc, and_iff_left ⟨_, hruns⟩] at hnot
    rcases runSession_throws hnot with ⟨what, hthrow⟩ | ⟨what, hthrow⟩
    · rw [hthrow] at h
      cases h
    · rw [hthrow] at h
      cases h
  · rcases runSession_ends hp hsinks hns hparams with ⟨-, hnone⟩ | hres
    · rw [hnone] at hruns
      cases hruns
    · exact hres

theorem runSession_returns_tape :
    ∃ res, runSession tape alwaysLong tapeConfig = some (.ok res) := by
  obtain ⟨-, hiff, hfew⟩ := @runSession_returns ℚ _ _ tape alwaysLong tapeConfig _ parse_alwaysLong
    (by decide)
  exact hiff.2 ⟨by decide, .inl rfl, hfew length_known_tape⟩

section Reports

variable {F : Type} [FloatMath F] {data : List UInt8} {prog : Program} {sc : SessionConfig F}
  {res : SessionResult F}

/-! ## The market -/

omit [FloatMath F] in
theorem mem_tradePrints {locate : UInt16} {e : BookEngine RefMap} {ms : List DecodedMessage}
    {t : TradePrint} (ht : t ∈ e.tradePrints locate ms) : ∃ m ∈ ms, t.tsNs = m.timestamp := by
  induction ms generalizing e with
  | nil => cases ht
  | cons m ms ih =>
    rcases List.mem_append.1 ht with hfirst | hrest
    · unfold BookEngine.printOf at hfirst
      dsimp only at hfirst
      split at hfirst
      · rw [List.mem_singleton.1 hfirst]
        exact ⟨m, List.mem_cons_self, rfl⟩
      · cases hfirst
    · obtain ⟨m', hm', heq⟩ := ih hrest
      exact ⟨m', List.mem_cons_of_mem _ hm', heq⟩

/-- **The market of a session.** The bars are those of the trade prints of the stream, with the
prices and volumes meant where floats are exact. As long as an `int` counts them, which it does of
early enough messages, one value of equity belongs to each. Messages, malformed ones and the
engine's counters are those of the stream; and it is truncated if something is left of it. Neither
the strategy nor its orders have a part in any of this. -/
theorem runSession_market [ExactInts F] (h : runSession data prog sc = some (.ok res)) :
    let ms := messagesOf data
    let prints := mapEngine.tradePrints sc.locate (knownMessages ms)
    res.bars = (BarBuilder.session F sc.barNs prints).2 ∧
      (BarBuilder.Exact sc.barNs prints → BarBuilder.Holds res.bars (expected sc.barNs prints)) ∧
      (res.bars.size < 2 ^ 31 → res.equity.length = res.bars.size) ∧
      ((∀ m ∈ ms, m.timestamp.toNat / sc.barNs.toNat < 2 ^ 31 - 1) → res.bars.size < 2 ^ 31) ∧
      res.messages = UInt64.ofNat ms.length ∧
      res.malformedMessages = UInt64.ofNat (ms.countP fun m => m.type = .unknown) ∧
      res.bookCounters = (mapEngine.run (knownMessages ms)).ctr ∧
      (res.truncatedStream = true ↔ rest data ≠ []) := by
  intro ms prints
  obtain ⟨s, -, hended, rfl⟩ := runSession_cases h
  refine ⟨hended.bars, fun hx => ?_, hended.equity, fun hbars => ?_, hended.messages,
    hended.malformed, hended.ctr, ?_⟩
  · obtain ⟨hbars, -⟩ := BarBuilder.session_spec (F := F) hx
    show BarBuilder.Holds s.bb.bars _
    rw [hended.bars]
    exact hbars
  · show s.bb.bars.size < 2 ^ 31
    have hsize : s.bb.bars.size ≤ 2 ^ 31 - 1 := by
      rw [hended.bars]
      refine BarBuilder.size_session_le (by norm_num) fun t ht => ?_
      obtain ⟨m, hm, heq⟩ := mem_tradePrints ht
      rw [bucket, heq]
      exact hbars m (List.mem_of_mem_filter hm)
    omega
  · show decide ((rest data).length ≠ 0) = true ↔ _
    rw [decide_eq_true_iff, Ne, List.length_eq_zero_iff]

end Reports

theorem bars_tape :
    let prints := mapEngine.tradePrints tapeConfig.locate (knownMessages (tapeBodies.map decoded))
    let bars := (BarBuilder.session ℚ tapeConfig.barNs prints).2
    bars.c = [5000, 5000, 5005] ∧ bars.v = [50, 0, 50] := by
  decide +kernel

/-- The two trades give three bars. -/
theorem runSession_market_tape : ∃ res, runSession tape alwaysLong tapeConfig = some (.ok res) ∧
    res.bars.c = [5000, 5000, 5005] ∧ res.bars.v = [50, 0, 50] ∧ res.equity.length = 3 ∧
      res.messages = 3 := by
  obtain ⟨res, hres⟩ := session_tape
  obtain ⟨hbars, -, hequity, hint, hmessages, -⟩ := runSession_market hres
  rw [messagesOf_tape] at hbars hmessages hint
  obtain ⟨hcloses, hvolumes⟩ := bars_tape
  rw [← hbars] at hcloses hvolumes
  refine ⟨res, hres, hcloses, hvolumes, ?_, hmessages⟩
  rw [hequity (hint tape_facts.2.1), BarSeries.size, hcloses]
  rfl

/-! ## The money -/

section Money

variable {data : List UInt8} {prog : Program} {sc : SessionConfig ℚ} {res : SessionResult ℚ}

/-- At the end the manager is flat, as long as references last. -/
theorem TradingSession.Ended.holds {ms : List DecodedMessage} {s : TradingSession ℚ}
    (h : Ended sc ms s) (hlen : ms.length < 2 ^ 62) :
    Session.Holds sc.om .done ⟨mapEngine.run (knownMessages ms), s.om⟩ := by
  have hsubs := h.submissions
  exact h.run.holds (by dsimp only; omega)

theorem later_of_lt (x y : ℚ) : (if lt x y = true then y else x) = max x y := by
  show (if decide (x < y) = true then y else x) = _
  rw [max_def_lt]
  simp only [decide_eq_true_eq]

theorem drawdown_eq (p : ℚ × ℚ) (e : ℚ) : drawdown p e = Drawdown.track p e := by
  unfold drawdown Drawdown.track
  dsimp only
  rw [later_of_lt, later_of_lt, show (zero : ℚ) = 0 from exact_id.zero]
  show (if decide (0 < max p.1 e) = true then _ else _) = _
  simp only [decide_eq_true_eq]
  split <;> rfl

theorem countInt_eq {α : Type} (p : α → Bool) (xs : List α) :
    countInt p xs = Int32.ofNat (xs.countP p) := by
  unfold countInt
  induction xs using List.reverseRecOn with
  | nil => rfl
  | append_singleton xs x ih =>
    rw [List.foldl_append, ih, List.countP_append, List.foldl_cons, List.foldl_nil,
      List.countP_singleton]
    split
    · rw [Int32.ofNat_add]
      rfl
    · rfl

/-- An `int` counts fewer than 2^31. -/
theorem toInt_countInt {α : Type} (p : α → Bool) {xs : List α} (h : xs.length < 2 ^ 31) :
    (countInt p xs).toInt = xs.countP p := by
  rw [countInt_eq, Int32.toInt_ofNat_of_lt (List.countP_le_length.trans_lt h)]

/-- **What a session earns**, in exact arithmetic. When it ends, no order is open and the position
is closed, so the final equity is what it started from and the gains of the trades, and the return
is the gains over it. Fills and trades are counted right up to what an `int` holds. -/
theorem runSession_settles (h : runSession data prog sc = some (.ok res))
    (hlen : data.length < 2 ^ 63) :
    let gains := (res.trades.map TradeRecT.pnl).sum
    (∃ left s, runToEnd data prog sc = some (.ok (left, s)) ∧ s.om.fe.openOrders = [] ∧
        s.om.side = 0 ∧ s.om.qty = 0) ∧
      res.finalEquity = sc.om.equity0 + gains ∧
      (sc.om.equity0 ≠ 0 → res.totalReturn = gains / sc.om.equity0) ∧
      (res.fills.length < 2 ^ 31 →
        res.makerFills.toInt + res.takerFills.toInt = res.fills.length) ∧
      (res.trades.length < 2 ^ 31 →
        res.wins.toInt = res.trades.countP fun t => decide (0 < t.pnl)) := by
  intro gains
  obtain ⟨left, s, hend, rfl⟩ := runSession_ok_iff.1 h
  obtain ⟨-, hended, -⟩ := runToEnd_cases hend
  have hmessages := length_messagesOf_le data
  have hholds := hended.holds (by omega)
  obtain ⟨hopen, hside, hqty⟩ := hholds.ended rfl
  have haccounts := hholds.inv.accounts
  have hcash : s.om.cash = sc.om.equity0 + gains := by
    have hledger : s.om.cash = s.om.cfg.equity0 + (s.om.trades.map TradeRecT.pnl).sum
        + s.om.side * (s.om.exitNotional - s.om.entryNotional) - s.om.feesOpen :=
      haccounts.ledger id exact_id
    obtain ⟨-, hentry, hexit, hfees⟩ := haccounts.clean hside
    dsimp only at hentry hexit hfees
    rw [hledger, hentry, hexit, hfees, show s.om.cfg = sc.om from hholds.cfg,
      show (zero : ℚ) = 0 from exact_id.zero]
    show _ = sc.om.equity0 + (s.om.trades.map TradeRecT.pnl).sum
    ring
  refine ⟨⟨left, s, hend, hopen, hside, hqty⟩, hcash, fun hne => ?_, fun hfills => ?_,
    fun htrades => ?_⟩
  · show (if (!decide (sc.om.equity0 = zero)) = true then s.om.cash / sc.om.equity0 - one else zero)
      = _
    rw [show (zero : ℚ) = 0 from exact_id.zero, if_pos (by simp [hne]), hcash, add_div,
      div_self hne, show (one : ℚ) = 1 from by decide +kernel]
    ring
  · have hsplit := List.length_eq_countP_add_countP (l := s.om.fillsLog) (·.maker)
    simp only [Bool.not_eq_true] at hsplit
    change s.om.fillsLog.length < 2 ^ 31 at hfills
    show (countInt (·.maker) s.om.fillsLog).toInt + (countInt (!·.maker) s.om.fillsLog).toInt
      = s.om.fillsLog.length
    rw [toInt_countInt _ hfills, toInt_countInt _ hfills, hsplit]
    simp
  · change s.om.trades.length < 2 ^ 31 at htrades
    show (countInt (fun t => lt zero t.pnl) s.om.trades).toInt = _
    rw [toInt_countInt _ htrades, show (zero : ℚ) = 0 from exact_id.zero]
    rfl

theorem runSession_settles_tape : ∃ res, runSession tape alwaysLong tapeConfig = some (.ok res) ∧
    res.finalEquity = 100000 + (res.trades.map TradeRecT.pnl).sum := by
  obtain ⟨res, hres⟩ := session_tape
  exact ⟨res, hres, (runSession_settles hres tape_length).2.1⟩

/-- **The drawdown of a session**, in exact arithmetic: the largest fall of its equity curve from
the peak before. -/
theorem runSession_drawdown (h : runSession data prog sc = some (.ok res)) :
    Drawdown.IsMaxDrawdown res.equity res.maxDd := by
  obtain ⟨s, -, -, rfl⟩ := runSession_cases h
  have hworst : (s.equity.foldl drawdown (zero, zero)).2 = Drawdown.worst s.equity := by
    rw [Drawdown.worst, show (zero : ℚ) = 0 from exact_id.zero]
    congr 2
    funext p e
    exact drawdown_eq p e
  show Drawdown.IsMaxDrawdown s.equity (s.equity.foldl drawdown (zero, zero)).2
  rw [hworst]
  exact Drawdown.isMaxDrawdown_worst s.equity

theorem runSession_drawdown_tape : ∃ res, runSession tape alwaysLong tapeConfig = some (.ok res) ∧
    Drawdown.IsMaxDrawdown res.equity res.maxDd := by
  obtain ⟨res, hres⟩ := session_tape
  exact ⟨res, hres, runSession_drawdown hres⟩

end Money

/-! ## The gate -/

/-- Known messages that return leave the integrity counters at zero exactly if all are applied. -/
theorem integrity_runs_iff {ms : List DecodedMessage} {e : BookEngine OrderRefTable}
    (hruns : tableEngine.runs ms = some e) (hknown : ∀ m ∈ ms, m.type ≠ .unknown)
    (hlen : ms.length < 2 ^ 64) :
    (∀ c ∈ e.ctr.integrity, c = 0) ↔ tableEngine.AppliesAll ms := by
  have hfold (r : Replay OrderRefTable) : ∀ us : List DecodedMessage,
      (∀ m ∈ us, m.type ≠ .unknown) →
        us.foldlM Replay.take r = (r.engine.runs us).map fun e => { r with engine := e } := by
    intro us hus
    induction us generalizing r with
    | nil => rfl
    | cons u us ih =>
      obtain ⟨hu, hus⟩ := List.forall_mem_cons.1 hus
      rw [List.foldlM_cons, runs_cons]
      have htake : Replay.take r u =
          (r.engine.apply u).map fun x => ({ r with engine := x.1.1 } : Replay OrderRefTable) := by
        unfold Replay.take
        rw [if_neg hu]
        cases r.engine.apply u <;> rfl
      rw [htake]
      cases r.engine.apply u with
      | none => rfl
      | some x => exact ih _ hus
  have hzeros : ∀ c ∈ ({} : Counters).integrity, c = 0 := by simp [Counters.integrity]
  have hstart : Replay.Bounded 0 ({ engine := tableEngine } : Replay OrderRefTable) :=
    ⟨Nat.le_refl 0, fun c hc => by rw [hzeros c hc]; exact Nat.le_refl 0⟩
  have hclean := Replay.takes_clean_iff hstart (by rw [Nat.zero_add]; exact hlen)
  rw [hfold _ ms hknown, hruns] at hclean
  constructor
  · intro hzero
    exact (hclean.1 ⟨_, rfl, rfl, hzero⟩).2.2
  · intro happ
    obtain ⟨r', hr', -, hzero⟩ := hclean.2 ⟨⟨rfl, hzeros⟩, hknown, happ⟩
    cases hr'
    exact hzero

/-- Messages that are all applied are known. -/
theorem known_of_appliesAll {ms : List DecodedMessage} {e : BookEngine OrderRefTable}
    (h : e.AppliesAll ms) : ∀ m ∈ ms, m.type ≠ .unknown := by
  induction ms generalizing e with
  | nil => exact List.forall_mem_nil _
  | cons m ms ih =>
    obtain ⟨⟨⟨e', l⟩, er⟩, happ, hs, hrest⟩ := h
    refine List.forall_mem_cons.2 ⟨fun ht => ?_, ih hrest⟩
    have hignored := (BookEngine.apply_unknown happ ht).1
    rw [hs] at hignored
    cases hignored

theorem knownMessages_eq {ms : List DecodedMessage} (h : ∀ m ∈ ms, m.type ≠ .unknown) :
    knownMessages ms = ms := List.filter_eq_self.2 fun m hm => decide_eq_true (h m hm)

section Gate

variable {F : Type} [FloatMath F] {data : List UInt8} {prog : Program} {sc : SessionConfig F}
  {res : SessionResult F}

omit [FloatMath F] in
theorem incomplete_eq_false : res.incomplete = false ↔
    (res.malformedMessages = 0 ∧ res.truncatedStream = false) ∧
      ∀ c ∈ res.bookCounters.integrity, c = 0 := by
  unfold SessionResult.incomplete Counters.integrity
  simp only [Bool.or_eq_false_iff, bne_eq_false_iff_eq, List.forall_mem_cons, List.not_mem_nil,
    false_imp_iff, implies_true, and_true]
  tauto

theorem TradingSession.Ended.trusted_iff {s : TradingSession F}
    (hended : Ended sc (messagesOf data) s)
    (hruns : tableEngine.runs (knownMessages (messagesOf data)) = some s.eng)
    (hlen : (messagesOf data).length < 2 ^ 64) :
    (s.result sc (decide ((rest data).length ≠ 0))).incomplete = false ↔
      rest data = [] ∧ tableEngine.AppliesAll (messagesOf data) := by
  have htruncated : (s.result sc (decide ((rest data).length ≠ 0))).truncatedStream = false ↔
      rest data = [] := by
    show decide ((rest data).length ≠ 0) = false ↔ _
    rw [decide_eq_false_iff_not, Ne, not_not, List.length_eq_zero_iff]
  have hmalformed : (s.result sc (decide ((rest data).length ≠ 0))).malformedMessages = 0 ↔
      ∀ m ∈ messagesOf data, m.type ≠ .unknown := by
    have hcount : (messagesOf data).countP (fun m => m.type = .unknown) < 2 ^ 64 :=
      List.countP_le_length.trans_lt hlen
    show s.malformedMessages = 0 ↔ _
    rw [hended.malformed, ← UInt64.toNat_inj, UInt64.toNat_ofNat_of_lt' hcount,
      show (0 : UInt64).toNat = 0 from rfl, List.countP_eq_zero]
    simp
  rw [incomplete_eq_false, htruncated, hmalformed]
  constructor
  · rintro ⟨⟨hknown, hrest⟩, hzero⟩
    rw [knownMessages_eq hknown] at hruns
    exact ⟨hrest, (integrity_runs_iff hruns hknown hlen).1 hzero⟩
  · rintro ⟨hrest, happ⟩
    have hknown := known_of_appliesAll happ
    rw [knownMessages_eq hknown] at hruns
    exact ⟨⟨hknown, hrest⟩, (integrity_runs_iff hruns hknown hlen).2 happ⟩

/-- **When `main` trusts a result.** Exactly when the stream is whole frames and the book engine,
over its table, applies the message in each; a result that fails this is suppressed. -/
theorem runSession_trusted_iff (h : runSession data prog sc = some (.ok res))
    (hlen : data.length < 2 ^ 64) :
    res.incomplete = false ↔ rest data = [] ∧ tableEngine.AppliesAll (messagesOf data) := by
  obtain ⟨s, hruns, hended, rfl⟩ := runSession_cases h
  have hmessages := length_messagesOf_le data
  exact hended.trusted_iff hruns (by omega)

end Gate

/-- All of the tape is applied. -/
theorem runSession_trusted_iff_tape :
    ∃ res, runSession tape alwaysLong tapeConfig = some (.ok res) ∧ res.incomplete = false := by
  obtain ⟨res, hres⟩ := session_tape
  obtain ⟨-, happ⟩ := runs_of_few length_messagesOf_tape
  have hlen := tape_length
  refine ⟨res, hres, (runSession_trusted_iff hres (by omega)).2 ⟨rest_flatMap (by decide), happ ?_⟩⟩
  rw [messagesOf_tape]
  exact tape_facts.2.2

/-! ## Generated streams -/

section Generated

open ItchGenerator

variable {cfg : GenConfig} {draws : ℕ → UInt64}

/-- A generated stream is whole frames, and they hold the messages that are parsed. -/
theorem generate_frames (h : cfg.Standard) {n : ℕ} (hn : n + 1 < 2 ^ 64) :
    rest ((start cfg draws).generate n).out = [] ∧
      messagesOf ((start cfg draws).generate n).out =
        parsedMessages ((start cfg draws).generate n).out := by
  obtain ⟨ms, -, -, hms, -⟩ := @followed_steps cfg draws h 0 n hn
  obtain ⟨m₁, -, h₁⟩ := hms.system evtEndHours
  obtain ⟨m₂, -, h₂⟩ := h₁.system evtEndMessages
  have hparsed := h₂.written.parsed
  obtain ⟨bodies, hb, hout, hdecoded⟩ := h₂.written
  have hsize : ∀ b ∈ bodies, b.length < 65536 := fun b hmem => (hb b hmem).2
  have hdata : ((start cfg draws).generate n).out = bodies.flatMap frame := hout
  constructor
  · rw [hdata]
    exact rest_flatMap hsize
  · rw [messagesOf, hdata, split_flatMap hsize, hdecoded, ← hdata]
    exact hparsed.symm

/-- **Generated streams are trusted.** With at most eleven symbols and no more messages than the
table has slots, a session over what the generator writes, from any draws, returns a result, and
`main` trusts it: the book engine has applied all of its messages. -/
theorem runSession_generated {F : Type} [FloatMath F] [CountsBack F] {bytes : List UInt8}
    {prog : Program} {sc : SessionConfig F} (hparse : Program.parse bytes = .ok prog)
    (hsinks : prog.SinksOnce) (hns : sc.barNs ≠ 0)
    (hparams : sc.params = [] ∨ sc.params.length = prog.paramDefaults.length)
    (hcfg : cfg.Standard) (hsym : cfg.numSymbols ≤ 11) {n : ℕ} (hn : n + 4 ≤ 2 ^ 20) :
    ∃ res, runSession ((start cfg draws).generate n).out prog sc = some (.ok res) ∧
      res.incomplete = false ∧ res.messages = UInt64.ofNat (n + 4) := by
  obtain ⟨hrest, hparsed⟩ := @generate_frames cfg draws hcfg n (by omega)
  obtain ⟨hlength, hclean⟩ := @clean_of_small cfg draws hcfg n (by omega)
  have hfaultless := hclean (2 ^ 20) (by omega)
  set data := ((start cfg draws).generate n).out
  rw [← hparsed] at hlength hfaultless
  obtain ⟨-, happ⟩ := @runs_of_few (messagesOf data) (by omega)
  have happ := happ fun k hk => (hfaultless (k + 1) hk).1 (Nat.succ_pos k)
  have hknown := known_of_appliesAll happ
  obtain ⟨⟨e, hruns⟩, -⟩ := @runs_of_few (knownMessages (messagesOf data))
    (by rw [knownMessages_eq hknown]; omega)
  rcases @runSession_ends F _ data prog sc _ (Program.parse_accepted hparse) hsinks hns hparams with
    ⟨-, hnone⟩ | ⟨res, hres⟩
  · rw [hnone] at hruns
    cases hruns
  · obtain ⟨s, hruns, hended, rfl⟩ := runSession_cases hres
    exact ⟨_, hres, (hended.trusted_iff hruns (by omega)).2 ⟨hrest, happ⟩,
      hended.messages.trans (by rw [hlength])⟩

theorem runSession_generated_default :
    let cfg : GenConfig := { numSymbols := 4, pos := by decide, int := by decide }
    ∀ draws, ∃ res, runSession ((start cfg draws).generate 500000).out alwaysLong tapeConfig =
      some (.ok res) ∧ res.incomplete = false := by
  intro cfg draws
  have h : cfg.Standard := ⟨rfl, rfl, rfl, rfl, rfl, rfl, rfl⟩
  obtain ⟨res, hres, htrusted, -⟩ := @runSession_generated cfg draws ℚ _ _ _ _ tapeConfig
    parse_alwaysLong (by decide) (by decide) (.inl rfl) h (by decide) 500000 (by norm_num)
  exact ⟨res, hres, htrusted⟩

end Generated

end ItchOrderbook
