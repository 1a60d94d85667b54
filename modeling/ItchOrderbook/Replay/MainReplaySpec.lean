import ItchOrderbook.Parser.MoldParserSpec
import ItchOrderbook.Replay.MainReplay

/-!
# What `replay_ok` says of the input

A message leaves the integrity counters alone exactly if it is applied (`apply_tallied`), so over
a plain stream `replay_ok` is what it promises: the whole input was consumed and every message of
it applied. Under `--mold` the gate sees only the messages that were passed on, and not whether
packets were missing or cut off.
-/

namespace ItchOrderbook

open BigEndian Framing

/-! ## One message and the integrity counters -/

/-- The counters that the gate looks at. -/
def Counters.integrity (c : Counters) : List UInt64 :=
  [c.invalid, c.duplicateRef, c.missingRef, c.refInsertFail, c.resyncRequired]

/-- The statuses `reject` ends in. -/
def ApplyStatus.IsRejection (st : ApplyStatus) : Prop := st ≠ .ignored ∧ st ≠ .applied

namespace BookEngine

variable {T : Type} {e e' : BookEngine T} {m : DecodedMessage} {b : Option UInt16}
  {ex : ExecResult}

/-- What a supported message does to the status and the integrity counters. -/
inductive Tallied (e e' : BookEngine T) : Prop
  | applied (hs : e'.lastStatus = .applied) (h : e'.ctr.integrity = e.ctr.integrity)
  | rejected (hs : e'.lastStatus.IsRejection)
      (h : e'.ctr.integrity = (rejectCount e'.lastStatus e.ctr).integrity)

@[simp] theorem ctr_getOrMake (locate : UInt16) : (e.getOrMake locate).1.ctr = e.ctr := by
  unfold getOrMake
  cases e.books locate <;> rfl

/-- A rejection is tallied. -/
theorem tallied_reject {e₁ : BookEngine T} (h : e₁.ctr.integrity = e.ctr.integrity)
    {st : ApplyStatus} (hst : st.IsRejection) :
    Tallied e ((e₁.withStatus st).count (rejectCount st)) := by
  refine .rejected hst ?_
  show (rejectCount st e₁.ctr).integrity = (rejectCount st e.ctr).integrity
  unfold Counters.integrity at h ⊢
  simp only [List.cons.injEq, and_true] at h
  obtain ⟨h₁, h₂, h₃, h₄, h₅⟩ := h
  cases st <;> simp only [rejectCount, h₁, h₂, h₃, h₄, h₅]

/-- Making a book leaves the integrity counters alone. -/
theorem integrity_getOrMake {e₁ : BookEngine T} (h : e₁.ctr.integrity = e.ctr.integrity)
    (locate : UInt16) : (e₁.getOrMake locate).1.ctr.integrity = e.ctr.integrity := by
  rw [ctr_getOrMake, h]

variable [RefTable T Option]

theorem onAdd_tallied (h : e.onAdd m = some (e', b)) : Tallied e e' := by
  rw [onAdd] at h
  dsimp only at h
  have hcount : (e.count fun c => { c with add := c.add + 1 }).ctr.integrity = e.ctr.integrity := rfl
  generalize (e.count fun c => { c with add := c.add + 1 }) = e₁ at h hcount
  split at h
  · cases h
    refine tallied_reject ?_ ⟨nofun, nofun⟩
    exact hcount
  split at h
  · cases h
    refine tallied_reject ?_ ⟨nofun, nofun⟩
    exact hcount
  have hmade := integrity_getOrMake hcount m.stockLocate
  split at h
  · cases h
    refine tallied_reject ?_ ⟨nofun, nofun⟩
    exact hmade
  split at h
  · cases h
    refine tallied_reject ?_ ⟨nofun, nofun⟩
    exact hmade
  split at h
  · obtain ⟨_, -, h⟩ := Option.bind_eq_some_iff.1 h
    cases h
    refine tallied_reject ?_ ⟨nofun, nofun⟩
    exact hmade
  · cases h
    exact .applied rfl hmade

theorem onReduce_tallied {isExec : Bool} (h : e.onReduce m isExec = some ((e', b), ex)) :
    Tallied e e' := by
  rw [onReduce] at h
  dsimp only at h
  have hcount : (e.count fun c => if isExec then { c with exec := c.exec + 1 } else
      { c with cancel := c.cancel + 1 }).ctr.integrity = e.ctr.integrity := by
    cases isExec <;> rfl
  generalize (e.count fun c => if isExec then { c with exec := c.exec + 1 } else
    { c with cancel := c.cancel + 1 }) = e₁ at h hcount
  split at h
  · cases h
    refine tallied_reject ?_ ⟨nofun, nofun⟩
    exact hcount
  split at h
  · cases h
    refine tallied_reject ?_ ⟨nofun, nofun⟩
    exact hcount
  rename_i v _
  have hmade := integrity_getOrMake hcount v.locate
  split at h
  · cases h
    refine tallied_reject ?_ ⟨nofun, nofun⟩
    exact hcount
  split at h
  · cases h
    refine tallied_reject ?_ ⟨nofun, nofun⟩
    exact hmade
  split at h
  · obtain ⟨_, -, h⟩ := Option.bind_eq_some_iff.1 h
    cases h
    exact .applied rfl hmade
  · cases h
    exact .applied rfl hmade

theorem onDelete_tallied (h : e.onDelete m = some (e', b)) : Tallied e e' := by
  rw [onDelete] at h
  dsimp only at h
  have hcount : (e.count fun c => { c with del := c.del + 1 }).ctr.integrity = e.ctr.integrity := rfl
  generalize (e.count fun c => { c with del := c.del + 1 }) = e₁ at h hcount
  split at h
  · cases h
    refine tallied_reject ?_ ⟨nofun, nofun⟩
    exact hcount
  rename_i v _
  have hmade := integrity_getOrMake hcount v.locate
  split at h
  · cases h
    refine tallied_reject ?_ ⟨nofun, nofun⟩
    exact hmade
  · obtain ⟨_, -, h⟩ := Option.bind_eq_some_iff.1 h
    cases h
    exact .applied rfl hmade

theorem onReplace_tallied (h : e.onReplace m = some (e', b)) : Tallied e e' := by
  rw [onReplace] at h
  dsimp only at h
  have hcount : (e.count fun c => { c with replace := c.replace + 1 }).ctr.integrity =
      e.ctr.integrity := rfl
  generalize (e.count fun c => { c with replace := c.replace + 1 }) = e₁ at h hcount
  split at h
  · cases h
    refine tallied_reject ?_ ⟨nofun, nofun⟩
    exact hcount
  rename_i old _
  have hmade := integrity_getOrMake hcount old.locate
  split at h
  · cases h
    refine tallied_reject ?_ ⟨nofun, nofun⟩
    exact hcount
  split at h
  · cases h
    refine tallied_reject ?_ ⟨nofun, nofun⟩
    exact hcount
  split at h
  · cases h
    refine tallied_reject ?_ ⟨nofun, nofun⟩
    exact hmade
  obtain ⟨_, -, h⟩ := Option.bind_eq_some_iff.1 h
  split at h
  · cases h
    refine tallied_reject ?_ ⟨nofun, nofun⟩
    exact hmade
  split at h
  · obtain ⟨_, -, h⟩ := Option.bind_eq_some_iff.1 h
    cases h
    refine tallied_reject ?_ ⟨nofun, nofun⟩
    exact hmade
  · cases h
    exact .applied rfl hmade

/-- A supported message is applied and tallied as such, or rejected and counted. -/
theorem apply_tallied (h : e.apply m = some ((e', b), ex)) (ht : m.type ≠ .unknown) :
    Tallied e e' := by
  have hthrough : ∀ {e₁ : BookEngine T}, Tallied (e.withStatus .ignored) e₁ → Tallied e e₁ := by
    intro e₁ h
    cases h with
    | applied hs h => exact .applied hs h
    | rejected hs h => exact .rejected hs h
  rw [apply] at h
  apply hthrough
  split at h
  · obtain ⟨_, hadd, h⟩ := Option.bind_eq_some_iff.1 h
    cases h
    exact onAdd_tallied hadd
  · obtain ⟨_, hadd, h⟩ := Option.bind_eq_some_iff.1 h
    cases h
    exact onAdd_tallied hadd
  · exact onReduce_tallied h
  · exact onReduce_tallied h
  · exact onReduce_tallied h
  · obtain ⟨_, hdel, h⟩ := Option.bind_eq_some_iff.1 h
    cases h
    exact onDelete_tallied hdel
  · obtain ⟨_, hrep, h⟩ := Option.bind_eq_some_iff.1 h
    cases h
    exact onReplace_tallied hrep
  · cases h
    exact .applied rfl rfl
  · cases h
    exact .applied rfl rfl
  · contradiction

/-- An unknown message is ignored. -/
theorem apply_unknown (h : e.apply m = some ((e', b), ex)) (ht : m.type = .unknown) :
    e'.lastStatus = .ignored ∧ e'.ctr = e.ctr := by
  rw [apply, ht] at h
  cases h
  exact ⟨rfl, rfl⟩

end BookEngine

/-- Every message of a sequence is applied, one after the other. -/
def BookEngine.AppliesAll {T : Type} [RefTable T Option] :
    BookEngine T → List DecodedMessage → Prop
  | _, [] => True
  | e, m :: ms => ∃ r, e.apply m = some r ∧ r.1.1.lastStatus = .applied ∧ r.1.1.AppliesAll ms

/-- A sequence of messages can be tried out. -/
instance BookEngine.decidableAppliesAll {T : Type} [RefTable T Option] :
    (e : BookEngine T) → (ms : List DecodedMessage) → Decidable (e.AppliesAll ms)
  | _, [] => isTrue trivial
  | e, m :: ms =>
    match h : e.apply m with
    | none => isFalse fun ⟨_, hr, _⟩ => Option.some_ne_none _ (hr.symm.trans h)
    | some r =>
      have := decidableAppliesAll r.1.1 ms
      decidable_of_iff (r.1.1.lastStatus = .applied ∧ r.1.1.AppliesAll ms)
        ⟨fun hst => ⟨r, h, hst⟩, fun ⟨_, hr', hst⟩ => Option.some.inj (hr'.symm.trans h) ▸ hst⟩

namespace Replay

variable {T : Type} {r r' : Replay T} {m : DecodedMessage} {k : ℕ}

/-! ## The gate -/

/-- None of the gate's counters is past `k`. -/
def Bounded (k : ℕ) (r : Replay T) : Prop :=
  r.malformedMessages.toNat ≤ k ∧ ∀ c ∈ r.engine.ctr.integrity, c.toNat ≤ k

/-- All of the gate's counters are zero. -/
def Clean (r : Replay T) : Prop :=
  r.malformedMessages = 0 ∧ ∀ c ∈ r.engine.ctr.integrity, c = 0

theorem ok_iff {truncated : Bool} : r.ok truncated = true ↔ r.Clean ∧ truncated = false := by
  simp only [ok, Clean, Counters.integrity, List.forall_mem_cons, List.not_mem_nil, false_imp_iff,
    implies_true, and_true, Bool.and_eq_true, decide_eq_true_eq, Bool.not_eq_true']
  tauto

/-- A counter that has not come round yet is one more, and not zero. -/
theorem toNat_succ {x : UInt64} (hx : x.toNat ≤ k) (hk : k + 1 < 2 ^ 64) :
    (x + 1).toNat = x.toNat + 1 := by
  rw [UInt64.toNat_add, show (1 : UInt64).toNat = 1 from rfl]
  omega

theorem succ_ne_zero {x : UInt64} (hx : x.toNat ≤ k) (hk : k + 1 < 2 ^ 64) : x + 1 ≠ 0 := by
  intro hzero
  have hsucc := toNat_succ hx hk
  rw [hzero] at hsucc
  cases hsucc

/-- A rejection counts in one place. -/
theorem rejectCount_integrity {st : ApplyStatus} (hst : st.IsRejection) {c : Counters}
    (hc : ∀ x ∈ c.integrity, x.toNat ≤ k) (hk : k + 1 < 2 ^ 64) :
    (∀ x ∈ (BookEngine.rejectCount st c).integrity, x.toNat ≤ k + 1) ∧
      ¬∀ x ∈ (BookEngine.rejectCount st c).integrity, x = 0 := by
  simp only [Counters.integrity, List.forall_mem_cons, List.not_mem_nil, false_imp_iff,
    implies_true, and_true] at hc ⊢
  obtain ⟨h₁, h₂, h₃, h₄, h₅⟩ := hc
  have hs₁ := toNat_succ h₁ hk
  have hs₂ := toNat_succ h₂ hk
  have hs₃ := toNat_succ h₃ hk
  have hs₄ := toNat_succ h₄ hk
  have hs₅ := toNat_succ h₅ hk
  cases st with
  | ignored => exact absurd rfl hst.1
  | applied => exact absurd rfl hst.2
  | invalidEvent =>
    refine ⟨?_, fun h => succ_ne_zero h₁ hk h.1⟩
    simp only [BookEngine.rejectCount]
    omega
  | duplicateReference =>
    refine ⟨?_, fun h => succ_ne_zero h₂ hk h.2.1⟩
    simp only [BookEngine.rejectCount]
    omega
  | missingReference =>
    refine ⟨?_, fun h => succ_ne_zero h₃ hk h.2.2.1⟩
    simp only [BookEngine.rejectCount]
    omega
  | referenceTableFull =>
    refine ⟨?_, fun h => succ_ne_zero h₄ hk h.2.2.2.1⟩
    simp only [BookEngine.rejectCount]
    omega
  | resyncRequired =>
    refine ⟨?_, fun h => succ_ne_zero h₅ hk h.2.2.2.2⟩
    simp only [BookEngine.rejectCount]
    omega

variable [RefTable T Option]

/-- One message: the gate stays open exactly if the message is known and was applied. -/
theorem take_clean_iff (h : r.take m = some r') (hb : r.Bounded k) (hk : k + 1 < 2 ^ 64) :
    r'.Bounded (k + 1) ∧
      (r'.Clean ↔ r.Clean ∧ m.type ≠ .unknown ∧ r'.engine.lastStatus = .applied) := by
  obtain ⟨⟨⟨e', b⟩, ex⟩, happ, h⟩ := Option.bind_eq_some_iff.1 h
  cases h
  obtain ⟨hmal, hint⟩ := hb
  rcases eq_or_ne m.type .unknown with ht | ht
  · obtain ⟨-, hctr⟩ := BookEngine.apply_unknown happ ht
    simp only [Bounded, Clean, hctr, ht, if_true, ne_eq, not_true_eq_false, false_and, and_false,
      iff_false, not_and]
    refine ⟨⟨?_, fun c hc => (hint c hc).trans (Nat.le_succ k)⟩, fun h => ?_⟩
    · rw [toNat_succ hmal hk]
      omega
    · exact absurd h (succ_ne_zero hmal hk)
  · simp only [Bounded, Clean, ne_eq, ht, not_false_eq_true, true_and]
    cases BookEngine.apply_tallied happ ht with
    | applied hs hctr =>
      rw [hctr, hs]
      refine ⟨⟨hmal.trans (Nat.le_succ k), fun c hc => (hint c hc).trans (Nat.le_succ k)⟩, ?_⟩
      simp
    | rejected hs hctr =>
      obtain ⟨hle, hne⟩ := rejectCount_integrity hs hint hk
      rw [hctr]
      exact ⟨⟨hmal.trans (Nat.le_succ k), hle⟩, iff_of_false (fun h => hne h.2) fun h => hs.2 h.2⟩

/-- The messages of a run: the gate is open at the end exactly if it was at the start and every
message is known and applied. -/
theorem takes_clean_iff {ms : List DecodedMessage} (hb : r.Bounded k)
    (hk : k + ms.length < 2 ^ 64) :
    (∃ r', ms.foldlM take r = some r' ∧ r'.Clean) ↔
      r.Clean ∧ (∀ m ∈ ms, m.type ≠ .unknown) ∧ r.engine.AppliesAll ms := by
  induction ms generalizing r k with
  | nil =>
    constructor
    · rintro ⟨r', ⟨⟩, hclean⟩
      exact ⟨hclean, fun m hm => absurd hm List.not_mem_nil, trivial⟩
    · rintro ⟨hclean, -⟩
      exact ⟨r, rfl, hclean⟩
  | cons m ms ih =>
    rw [List.length_cons] at hk
    rw [List.foldlM_cons, List.forall_mem_cons]
    constructor
    · rintro ⟨r', hrun, hclean⟩
      obtain ⟨r₁, htake, hrun⟩ := Option.bind_eq_some_iff.1 hrun
      obtain ⟨hb₁, hclean₁⟩ := take_clean_iff htake hb (by omega)
      obtain ⟨hr₁, hknown, happ⟩ := (ih hb₁ (by omega)).1 ⟨r', hrun, hclean⟩
      obtain ⟨hr, hm, hs⟩ := hclean₁.1 hr₁
      obtain ⟨x, hx, htake⟩ := Option.bind_eq_some_iff.1 htake
      cases htake
      exact ⟨hr, ⟨hm, hknown⟩, x, hx, hs, happ⟩
    · rintro ⟨hr, ⟨hm, hknown⟩, x, hx, hs, happ⟩
      obtain ⟨r₁, htake, hengine⟩ : ∃ r₁, r.take m = some r₁ ∧ r₁.engine = x.1.1 :=
        ⟨_, Option.bind_eq_some_iff.2 ⟨x, hx, rfl⟩, rfl⟩
      obtain ⟨hb₁, hclean₁⟩ := take_clean_iff htake hb (by omega)
      have hr₁ : r₁.Clean := hclean₁.2 ⟨hr, hm, by rw [hengine]; exact hs⟩
      obtain ⟨r', hrun, hclean⟩ := (ih hb₁ (by omega)).2 ⟨hr₁, hknown, by rw [hengine]; exact happ⟩
      exact ⟨r', Option.bind_eq_some_iff.2 ⟨r₁, htake, hrun⟩, hclean⟩

/-! ## The loop -/

/-- The loop takes the messages in front of the input, and what it leaves is what follows
them. -/
theorem loop_eq (data : List UInt8) : ∃ rest,
    (streamBodies data).flatMap frame ++ rest = data ∧ ∀ r : Replay T,
      loop data r = ((streamBodies data).map decoded).foldlM take r >>= fun r' =>
        some (rest, r') := by
  -- along the recursion of `split`, which peels the same frames
  induction data using split.induct with
  | case1 data hshort =>
    rw [streamBodies_nil (.inr hshort)]
    refine ⟨data, rfl, fun r => ?_⟩
    rw [loop]
    split
    · rename_i h2
      rw [be16_toNat h2]
      exact dif_pos (Or.inr hshort)
    · rfl
  | case2 data hfull ih =>
    have h2 : 2 ≤ data.length := by omega
    rcases Nat.eq_zero_or_pos (announced data) with hzero | hpos
    · rw [streamBodies_nil (.inl hzero)]
      refine ⟨data, rfl, fun r => ?_⟩
      rw [loop, if_pos h2, be16_toNat h2]
      exact dif_pos (Or.inl hzero)
    · obtain ⟨rest, hrest, hloop⟩ := ih
      rw [streamBodies_cons hfull hpos]
      refine ⟨rest, ?_, fun r => ?_⟩
      · rw [List.flatMap_cons, List.append_assoc, hrest, frame_front hfull]
      · rw [loop, if_pos h2, be16_toNat h2]
        dsimp only
        rw [dif_neg (by omega), decodeBody_front hfull, List.map_cons, List.foldlM_cons, bind_assoc]
        exact congrArg _ (funext hloop)

end Replay

/-! ## Complete inputs -/

/-- Every one of `bodies` is a message the decoder knows, and the engine of `main` applies them
all. -/
def CleanReplay (bodies : List (List UInt8)) : Prop :=
  (∀ b ∈ bodies, (decoded b).type ≠ .unknown) ∧
    ∃ refs, OrderRefTable.new ((1 : UInt32) <<< 21) = some refs ∧
      (BookEngine.new 1000000 refs).AppliesAll (bodies.map decoded)

/-- Bodies that a stream can carry. -/
def Carried (bodies : List (List UInt8)) : Prop := ∀ b ∈ bodies, b ≠ [] ∧ b.length < 65536

/-- Complete MoldUDP64 packets to the last byte, none of them ahead of the `expected` sequence
number, and the bodies of those that are not repeated. Nothing follows the end of a session. -/
inductive WholePackets : Option UInt64 → List UInt8 → List (List UInt8) → Prop
  | done (expected : Option UInt64) : WholePackets expected [] []
  | first {session : Vector UInt8 10} {seq : UInt64} {blocks : Blocks} {rest : List UInt8}
      {bodies : List (List UInt8)}
      (h : WholePackets (some (seq + blocks.count.toUInt64)) rest bodies) :
      WholePackets none ((Datagram.data session seq blocks).bytes ++ rest) (blocks.bodies ++ bodies)
  | next {session : Vector UInt8 10} {seq : UInt64} {blocks : Blocks} {rest : List UInt8}
      {bodies : List (List UInt8)}
      (h : WholePackets (some (seq + blocks.count.toUInt64)) rest bodies) :
      WholePackets (some seq) ((Datagram.data session seq blocks).bytes ++ rest)
        (blocks.bodies ++ bodies)
  | repeated {session : Vector UInt8 10} {seq expected : UInt64} {blocks : Blocks}
      {rest : List UInt8} {bodies : List (List UInt8)} (hseq : seq < expected)
      (h : WholePackets (some expected) rest bodies) :
      WholePackets (some expected) ((Datagram.data session seq blocks).bytes ++ rest) bodies
  | sessionEnd {expected : Option UInt64} (session : Vector UInt8 10) {seq : UInt64}
      (hseq : ∀ e, expected = some e → seq ≤ e) :
      WholePackets expected (headerBytes session seq MoldParser.endCount) []

/-- A length has two bytes. -/
theorem announced_lt (data : List UInt8) : announced data < 65536 := by
  have hlt : announced data < 256 ^ (data.take 2).length := ofBytes_lt _
  have hpow : 256 ^ (data.take 2).length ≤ 256 ^ 2 :=
    Nat.pow_le_pow_right (by decide) (List.length_take_le 2 data)
  omega

/-- The bodies of a stream are carried by it. -/
theorem carried_streamBodies (data : List UInt8) : Carried (streamBodies data) := by
  induction data using split.induct with
  | case1 data hshort =>
    rw [streamBodies_nil (.inr hshort)]
    exact fun b hb => absurd hb List.not_mem_nil
  | case2 data hfull ih =>
    rcases Nat.eq_zero_or_pos (announced data) with hzero | hpos
    · rw [streamBodies_nil (.inl hzero)]
      exact fun b hb => absurd hb List.not_mem_nil
    · rw [streamBodies_cons hfull hpos]
      refine List.forall_mem_cons.2 ⟨⟨?_, ?_⟩, ih⟩
      · rw [← List.length_pos_iff, front_length hfull]
        exact hpos
      · rw [front_length hfull]
        exact announced_lt data

/-- There are fewer bodies than bytes. -/
theorem length_streamBodies_le (data : List UInt8) : (streamBodies data).length ≤ data.length := by
  induction data using split.induct with
  | case1 data hshort =>
    rw [streamBodies_nil (.inr hshort)]
    exact Nat.zero_le _
  | case2 data hfull ih =>
    rcases Nat.eq_zero_or_pos (announced data) with hzero | hpos
    · rw [streamBodies_nil (.inl hzero)]
      exact Nat.zero_le _
    · rw [List.length_drop] at ih
      rw [streamBodies_cons hfull hpos, List.length_cons]
      omega

theorem Carried.streamBodies_eq {bodies : List (List UInt8)} (h : Carried bodies) :
    streamBodies (bodies.flatMap frame) = bodies :=
  streamBodies_flatMap (fun b hb => (h b hb).1) fun b hb => (h b hb).2

/-- What `replay_ok` says of the stream the loop runs over. -/
theorem mainReplayOk_iff {moldIn : Bool} {bytes : List UInt8}
    (hlen : (replayInput moldIn bytes).length < 2 ^ 64) :
    mainReplayOk moldIn bytes = some true ↔
      ∃ bodies, CleanReplay bodies ∧ Carried bodies ∧
        replayInput moldIn bytes = bodies.flatMap frame := by
  -- the counters start at zero, so the gate opens exactly if no message was refused
  have hfresh : ∀ refs : OrderRefTable,
      ({ engine := .new 1000000 refs } : Replay OrderRefTable).Bounded 0 ∧
        ({ engine := .new 1000000 refs } : Replay OrderRefTable).Clean := by
    intro refs
    constructor
    · exact ⟨le_rfl, by simp [Counters.integrity, BookEngine.new]⟩
    · exact ⟨rfl, by simp [Counters.integrity, BookEngine.new]⟩
  have hfew : ((streamBodies (replayInput moldIn bytes)).map decoded).length < 2 ^ 64 := by
    rw [List.length_map]
    exact (Nat.lt_of_le_of_lt (length_streamBodies_le _) hlen)
  obtain ⟨rest, hdata, hloop⟩ := Replay.loop_eq (T := OrderRefTable) (replayInput moldIn bytes)
  have hmain : mainReplayOk moldIn bytes = (OrderRefTable.new ((1 : UInt32) <<< 21)).bind fun refs =>
      (Replay.loop (replayInput moldIn bytes) { engine := .new 1000000 refs }).bind fun x =>
        some (x.2.ok (decide (x.1.length ≠ 0))) := rfl
  rw [hmain]
  constructor
  · intro h
    obtain ⟨refs, hrefs, h⟩ := Option.bind_eq_some_iff.1 h
    obtain ⟨⟨rest', r⟩, hrun, hok⟩ := Option.bind_eq_some_iff.1 h
    rw [hloop] at hrun
    obtain ⟨r', htakes, hrun⟩ := Option.bind_eq_some_iff.1 hrun
    cases hrun
    obtain ⟨hclean, htrunc⟩ := Replay.ok_iff.1 (Option.some.inj hok)
    have hgate := Replay.takes_clean_iff (hfresh refs).1 (by rwa [Nat.zero_add])
    obtain ⟨-, hknown, happ⟩ := hgate.1 ⟨_, htakes, hclean⟩
    -- not truncated: nothing lies behind the last whole frame
    have hnil : rest = [] := by simpa using htrunc
    refine ⟨streamBodies (replayInput moldIn bytes), ⟨?_, refs, hrefs, happ⟩,
      carried_streamBodies _, ?_⟩
    · exact fun b hb => hknown _ (List.mem_map_of_mem hb)
    · rw [hnil, List.append_nil] at hdata
      exact hdata.symm
  · rintro ⟨bodies, ⟨hknown, refs, hrefs, happ⟩, hcarried, hbytes⟩
    have hbodies : streamBodies (replayInput moldIn bytes) = bodies := by
      rw [hbytes, hcarried.streamBodies_eq]
    have hnil : rest = [] := by
      rw [hbodies, hbytes] at hdata
      simpa using hdata
    rw [hbodies] at hloop hfew
    have hknown' : ∀ m ∈ bodies.map decoded, m.type ≠ .unknown := by
      intro m hm
      obtain ⟨b, hb, rfl⟩ := List.mem_map.1 hm
      exact hknown b hb
    have hgate := Replay.takes_clean_iff (hfresh refs).1 (by rwa [Nat.zero_add])
    obtain ⟨r', htakes, hclean⟩ := hgate.2 ⟨(hfresh refs).2, hknown', happ⟩
    refine Option.bind_eq_some_iff.2 ⟨refs, hrefs, Option.bind_eq_some_iff.2 ⟨(rest, r'), ?_, ?_⟩⟩
    · rw [hloop]
      exact Option.bind_eq_some_iff.2 ⟨r', htakes, rfl⟩
    · exact congrArg some (Replay.ok_iff.2 ⟨hclean, by rw [hnil]; rfl⟩)

/-! ## What the decapsulation passes on -/

/-- A stream of frames that can be carried. -/
def Framed (stream : List UInt8) : Prop := ∃ bodies, Carried bodies ∧ stream = bodies.flatMap frame

/-- The statistics of a walk that expects a sequence number. -/
structure Expects (st : MoldStats) (expected : Option UInt64) : Prop where
  running : st.sessionEnd = false
  seqInit : st.seqInit = expected.isSome
  nextSeq : ∀ e, expected = some e → st.nextSeq = e

/-- A packet that is not repeated. -/
theorem Expects.fresh {st : MoldStats} {expected : Option UInt64} (h : Expects st expected)
    {seq : UInt64} (hseq : ∀ e, expected = some e → ¬seq < e) (n : UInt16) :
    MoldParser.isStale st seq = false ∧
      Expects (MoldParser.afterData st seq n) (some (seq + n.toUInt64)) := by
  have hstale : MoldParser.isStale st seq = false := by
    rw [MoldParser.isStale, h.seqInit]
    cases expected with
    | none => rfl
    | some e =>
      rw [h.nextSeq e rfl]
      simpa using hseq e rfl
  refine ⟨hstale, ?_⟩
  rw [MoldParser.afterData_of_fresh hstale]
  exact ⟨h.running, rfl, fun e he => Option.some.inj he⟩

/-- A repeated packet. -/
theorem Expects.repeated {st : MoldStats} {expected seq : UInt64} (h : Expects st (some expected))
    (hseq : seq < expected) (n : UInt16) :
    MoldParser.isStale st seq = true ∧
      Expects (MoldParser.afterData st seq n) (some expected) := by
  have hstale : MoldParser.isStale st seq = true := by
    rw [MoldParser.isStale, h.seqInit, h.nextSeq expected rfl]
    simpa using hseq
  refine ⟨hstale, ?_⟩
  rw [MoldParser.afterData_of_stale hstale]
  exact ⟨h.running, h.seqInit, h.nextSeq⟩

/-- Complete packets are passed on as they are. -/
theorem WholePackets.walk {expected : Option UInt64} {bytes : List UInt8}
    {bodies : List (List UInt8)} (h : WholePackets expected bytes bodies) :
    Carried bodies ∧ ∃ ds : List Datagram, bytes = ds.flatMap Datagram.bytes ∧
      ∀ (p : MoldStats × List (List UInt8)), Expects p.1 expected →
        (ds.foldl MoldParser.walkStep p).2 = p.2 ++ bodies := by
  -- the packet in front, whose blocks the walk keeps
  have hkept : ∀ {expected : Option UInt64} {session : Vector UInt8 10} {seq : UInt64}
      {blocks : Blocks} {rest : List UInt8} {bodies : List (List UInt8)},
      (∀ e, expected = some e → ¬seq < e) →
      (Carried bodies ∧ ∃ ds : List Datagram, rest = ds.flatMap Datagram.bytes ∧
        ∀ (p : MoldStats × List (List UInt8)), Expects p.1 (some (seq + blocks.count.toUInt64)) →
          (ds.foldl MoldParser.walkStep p).2 = p.2 ++ bodies) →
      Carried (blocks.bodies ++ bodies) ∧ ∃ ds : List Datagram,
        (Datagram.data session seq blocks).bytes ++ rest = ds.flatMap Datagram.bytes ∧
        ∀ (p : MoldStats × List (List UInt8)), Expects p.1 expected →
          (ds.foldl MoldParser.walkStep p).2 = p.2 ++ (blocks.bodies ++ bodies) := by
    rintro expected session seq blocks rest bodies hseq ⟨hcarried, ds, rfl, hds⟩
    refine ⟨?_, .data session seq blocks :: ds, rfl, fun p hp => ?_⟩
    · refine List.forall_mem_append.2 ⟨fun b hb => ?_, hcarried⟩
      exact ⟨blocks.ne_nil b hb, blocks.short b hb⟩
    · obtain ⟨hstale, hnext⟩ := hp.fresh hseq blocks.count
      have hstep : MoldParser.walkStep p (.data session seq blocks) =
          (MoldParser.afterData p.1 seq blocks.count, p.2 ++ blocks.bodies) := by
        rw [MoldParser.walkStep, hp.running, hstale]
        rfl
      rw [List.foldl_cons, hstep, hds _ hnext, List.append_assoc]
  have hnone : Carried [] := fun b hb => absurd hb List.not_mem_nil
  induction h with
  | done expected => exact ⟨hnone, [], rfl, fun p _ => (List.append_nil _).symm⟩
  | first h ih => exact hkept nofun ih
  | next h ih =>
    refine hkept (fun e he => ?_) ih
    obtain rfl := Option.some.inj he
    exact UInt64.lt_irrefl _
  | @repeated session seq expected blocks rest bodies hseq h ih =>
    obtain ⟨hcarried, ds, rfl, hds⟩ := ih
    refine ⟨hcarried, .data session seq blocks :: ds, rfl, fun p hp => ?_⟩
    obtain ⟨hstale, hnext⟩ := hp.repeated hseq blocks.count
    have hstep : MoldParser.walkStep p (.data session seq blocks) =
        (MoldParser.afterData p.1 seq blocks.count, p.2) := by
      rw [MoldParser.walkStep, hp.running, hstale]
      rfl
    rw [List.foldl_cons, hstep, hds _ hnext]
  | @sessionEnd expected session seq _ =>
    refine ⟨hnone, [.sessionEnd session seq []], ?_, fun p hp => ?_⟩
    · rw [List.flatMap_singleton, Datagram.bytes, List.append_nil]
    · rw [List.foldl_cons, MoldParser.walkStep, hp.running, List.append_nil]
      rfl

end ItchOrderbook
