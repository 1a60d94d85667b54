import ItchOrderbook.Lib.StraightLine
import ItchOrderbook.Trade.ProgramLayout
import Mathlib.Data.Fintype.Basic
import Mathlib.Order.Bounds.Basic

/-!
# What `Program::parse` guarantees

Each part of the validation is inverted once; `parse_accepted` puts together what holds of a
program that was accepted. Nothing after it looks into the loader again.
-/

namespace ItchOrderbook

open CheckedState

namespace Program

/-! ## The state slots -/

/-- The offset of state slot `i`. -/
def slotOff (prog : Program) (i : ℕ) : ℕ := (prog.stateOff.getD i 0).toUInt32.toNat

/-- The floats of state slot `i`. -/
def slotSize (prog : Program) (i : ℕ) : ℕ :=
  match stateSize (prog.stateKind.getD i 0) (prog.stateCap.getD i 0) with
  | .ok size => size.toNat
  | .error _ => 0

theorem slotSize_eq {prog : Program} {i : ℕ} {size : UInt32}
    (h : stateSize (prog.stateKind.getD i 0) (prog.stateCap.getD i 0) = .ok size) :
    slotSize prog i = size.toNat := by
  rw [slotSize, h]

/-- Offset `x` of the state block belongs to slot `i`. -/
def InSlot (prog : Program) (i x : ℕ) : Prop :=
  slotOff prog i ≤ x ∧ x < slotOff prog i + slotSize prog i

/-- What is known of a slot that passed its checks. -/
structure SlotOk (prog : Program) (i : ℕ) : Prop where
  sized : ∃ size, stateSize (prog.stateKind.getD i 0) (prog.stateCap.getD i 0) = .ok size
  off_nonneg : 0 ≤ prog.stateOff.getD i 0
  fits : slotOff prog i + slotSize prog i ≤ prog.stateFloats.toNat
  series : prog.stateKind.getD i 0 = skRaw →
    (prog.stateAux.getD i 0).toUInt32 >>> 16 < nSeries

/-- A non-negative `int32_t` is its own unsigned value. -/
theorem toNat_toUInt32_of_nonneg {x : Int32} (hx : 0 ≤ x) : (x.toUInt32.toNat : ℤ) = x.toInt := by
  rw [Int32.toNat_toUInt32_of_le hx]
  have h : (0 : Int32).toInt ≤ x.toInt := Int32.le_iff_toInt_le.1 hx
  exact Int.toNat_of_nonneg h

/-- The capacity of a ring or of a raw window. -/
theorem stateSize_cap {kind cap : Int32} {size : UInt32} (h : stateSize kind cap = .ok size)
    (hkind : kind = skRing ∨ kind = skRaw) : 0 < cap.toInt ∧ cap.toInt ≤ 4096 := by
  have hcap := (failIf_bind_eq_ok.1 h).1
  have hle : ¬(cap ≤ 0 ∨ cap > vmMaxWindow) := fun hbad => hcap ⟨hkind, hbad⟩
  rw [not_or, Int32.not_le, Int32.lt_iff_toInt_lt, gt_iff_lt, Int32.not_lt,
    Int32.le_iff_toInt_le] at hle
  exact hle

/-- A ring takes its count and `cap` elements. -/
theorem stateSize_ring {cap : Int32} {size : UInt32} (h : stateSize skRing cap = .ok size) :
    (size.toNat : ℤ) = 1 + cap.toInt := by
  obtain ⟨hpos, hle⟩ := stateSize_cap h (.inl rfl)
  have hsize : size = 1 + cap.toUInt32 := (Except.ok.inj (failIf_bind_eq_ok.1 h).2).symm
  have hcap : (cap.toUInt32.toNat : ℤ) = cap.toInt :=
    toNat_toUInt32_of_nonneg (Int32.le_iff_toInt_le.2 hpos.le)
  rw [hsize, UInt32.toNat_add, show (1 : UInt32).toNat = 1 from rfl]
  omega

/-- No slot is larger than the largest ring. -/
theorem stateSize_le {kind cap : Int32} {size : UInt32} (h : stateSize kind cap = .ok size) :
    size.toNat ≤ 4097 := by
  rcases eq_or_ne kind skRing with rfl | hring
  · have hsize := stateSize_ring h
    obtain ⟨-, hle⟩ := stateSize_cap h (.inl rfl)
    omega
  · have hrest := (failIf_bind_eq_ok.1 h).2
    simp only [if_neg hring] at hrest
    -- every other kind has a fixed size
    split at hrest
    · cases hrest
      decide
    split at hrest
    · cases hrest
      decide
    split at hrest
    · cases hrest
      decide
    split at hrest
    · cases hrest
      decide
    split at hrest
    · cases hrest
      decide
    · cases hrest

/-! What a slot of each kind takes. -/

theorem slotSize_ema {prog : Program} {i : ℕ} (h : prog.stateKind.getD i 0 = skEma) :
    slotSize prog i = 2 := by
  rw [slotSize, h]
  rfl

theorem slotSize_wilder1 {prog : Program} {i : ℕ} (h : prog.stateKind.getD i 0 = skWilder1) :
    slotSize prog i = 2 := by
  rw [slotSize, h]
  rfl

theorem slotSize_wilder2 {prog : Program} {i : ℕ} (h : prog.stateKind.getD i 0 = skWilder2) :
    slotSize prog i = 4 := by
  rw [slotSize, h]
  rfl

theorem slotSize_prev2 {prog : Program} {i : ℕ} (h : prog.stateKind.getD i 0 = skPrev2) :
    slotSize prog i = 3 := by
  rw [slotSize, h]
  rfl

theorem slotSize_ring {prog : Program} {i : ℕ} (hs : SlotOk prog i)
    (h : prog.stateKind.getD i 0 = skRing) :
    0 < (prog.stateCap.getD i 0).toInt ∧
      (slotSize prog i : ℤ) = 1 + (prog.stateCap.getD i 0).toInt := by
  obtain ⟨size, hsize⟩ := hs.sized
  have hslot := slotSize_eq hsize
  rw [h] at hsize
  exact ⟨(stateSize_cap hsize (.inl rfl)).1, by rw [hslot, stateSize_ring hsize]⟩

/-- The marks after a slot: none of its offsets was marked, and now they are. -/
theorem markSlot_eq_ok {i size : ℕ} {off : UInt32} {occupied occupied' : ℕ → Bool}
    (hoff : off.toNat + size < 2 ^ 32) :
    markSlot i size off occupied = .ok occupied' ↔
      (∀ x, off.toNat ≤ x → x < off.toNat + size → occupied x = false) ∧
      ∀ x, occupied' x = true ↔ occupied x = true ∨ off.toNat ≤ x ∧ x < off.toNat + size := by
  induction size generalizing off occupied with
  | zero =>
    have hnone : ∀ x, ¬(off.toNat ≤ x ∧ x < off.toNat + 0) := by omega
    simp only [markSlot, hnone, or_false]
    constructor
    · rintro ⟨⟩
      exact ⟨fun x hle hlt => absurd ⟨hle, hlt⟩ (hnone x), fun x => Iff.rfl⟩
    · rintro ⟨-, hsame⟩
      have heq : occupied' = occupied := funext fun x => Bool.eq_iff_iff.2 (hsame x)
      rw [heq]
      rfl
  | succ size ih =>
    have hnext : (off + 1).toNat = off.toNat + 1 := by
      rw [UInt32.toNat_add, show (1 : UInt32).toNat = 1 from rfl]
      omega
    have hstep := @ih (off + 1) (Function.update occupied off.toNat true) (by omega)
    rw [markSlot, failIf_bind_eq_ok, hstep, hnext, Bool.not_eq_true]
    -- the first offset, and those after it
    have hsplit : ∀ x, off.toNat ≤ x ∧ x < off.toNat + (size + 1) ↔
        x = off.toNat ∨ off.toNat + 1 ≤ x ∧ x < off.toNat + 1 + size := by omega
    have hmark : ∀ x, Function.update occupied off.toNat true x = true ↔
        occupied x = true ∨ x = off.toNat := by
      intro x
      rcases eq_or_ne x off.toNat with rfl | hne
      · simp
      · simp [hne]
    simp only [hmark, hsplit, or_assoc]
    refine ⟨fun ⟨hfirst, hrest, hmarks⟩ => ⟨fun x hle hlt => ?_, hmarks⟩,
      fun ⟨hfree, hmarks⟩ => ⟨hfree _ (Nat.le_refl _) (by omega), fun x hle hlt => ?_, hmarks⟩⟩
    · rcases (hsplit x).1 ⟨hle, hlt⟩ with rfl | ⟨hle, hlt⟩
      · exact hfirst
      · have hx := hrest x hle hlt
        rwa [Function.update_of_ne (by omega)] at hx
    · rw [Function.update_of_ne (by omega)]
      exact hfree x (by omega) (by omega)

/-- The marks are those of the slots before `i`. -/
def Marked (prog : Program) (i : ℕ) (occupied : ℕ → Bool) : Prop :=
  ∀ x, occupied x = true ↔ ∃ j < i, InSlot prog j x

/-- The slots before `i` are all apart from slot `i`. -/
def ApartBefore (prog : Program) (i : ℕ) : Prop := ∀ j < i, ∀ x, InSlot prog j x → ¬InSlot prog i x

/-- One slot: it fits, it is apart from the slots before it, and it is marked. -/
theorem checkSlot_eq_ok {prog : Program} {i : ℕ} {occupied occupied' : ℕ → Bool}
    (hfloats : prog.stateFloats ≤ vmMaxStateFloats) (hm : Marked prog i occupied) :
    checkSlot prog i occupied = .ok occupied' ↔
      SlotOk prog i ∧ ApartBefore prog i ∧ Marked prog (i + 1) occupied' := by
  have hblock : prog.stateFloats.toNat ≤ 8192 := UInt32.le_iff_toNat_le.1 hfloats
  have hover : ∀ size, stateSize (prog.stateKind.getD i 0) (prog.stateCap.getD i 0) = .ok size →
      (¬(prog.stateOff.getD i 0 < 0 ∨
          (prog.stateOff.getD i 0).toUInt32 + size > prog.stateFloats) ↔
        0 ≤ prog.stateOff.getD i 0 ∧ slotOff prog i + slotSize prog i ≤ prog.stateFloats.toNat) := by
    intro size hsize
    have hslot := slotSize_eq hsize
    rw [not_or, Int32.not_lt, gt_iff_lt, UInt32.not_lt, UInt32.le_iff_toNat_le, UInt32.toNat_add,
      hslot, slotOff]
    refine and_congr_right fun hnonneg => ?_
    -- the sum does not wrap: an offset is below `2 ^ 31` and a size at most 4097
    have hoff := toNat_toUInt32_of_nonneg hnonneg
    have hlt := Int32.toInt_lt (prog.stateOff.getD i 0)
    have hle := stateSize_le hsize
    rw [Nat.mod_eq_of_lt (by omega)]
  have hmarked : ∀ {marks}, ((∀ x, slotOff prog i ≤ x → x < slotOff prog i + slotSize prog i →
        occupied x = false) ∧
      ∀ x, marks x = true ↔ occupied x = true ∨
        slotOff prog i ≤ x ∧ x < slotOff prog i + slotSize prog i) ↔
      ApartBefore prog i ∧ Marked prog (i + 1) marks := by
    intro marks
    refine and_congr ⟨fun hfree j hj x hx hi => ?_, fun hapart x hle hlt => ?_⟩ <|
      forall_congr' fun x => iff_congr Iff.rfl ?_
    · have hno := hfree x hi.1 hi.2
      rw [(hm x).2 ⟨j, hj, hx⟩] at hno
      cases hno
    · rw [← Bool.not_eq_true, hm x]
      rintro ⟨j, hj, hx⟩
      exact hapart j hj x hx ⟨hle, hlt⟩
    · rw [hm x]
      constructor
      · rintro (⟨j, hj, hx⟩ | hx)
        · exact ⟨j, Nat.lt_succ_of_lt hj, hx⟩
        · exact ⟨i, Nat.lt_succ_self i, hx⟩
      · rintro ⟨j, hj, hx⟩
        rcases Nat.lt_succ_iff_lt_or_eq.1 hj with hlt | rfl
        · exact .inl ⟨j, hlt, hx⟩
        · exact .inr hx
  have hloop : ∀ size, stateSize (prog.stateKind.getD i 0) (prog.stateCap.getD i 0) = .ok size →
      slotOff prog i + slotSize prog i ≤ prog.stateFloats.toNat → ∀ {marks},
      (markSlot i size.toNat (prog.stateOff.getD i 0).toUInt32 occupied = .ok marks ↔
        ApartBefore prog i ∧ Marked prog (i + 1) marks) := by
    intro size hsize hfit marks
    have hslot := slotSize_eq hsize
    rw [slotOff, hslot] at hfit
    rw [markSlot_eq_ok (by omega), ← hmarked, hslot, slotOff]
  constructor
  · intro h
    obtain ⟨size, hsize, h⟩ := bind_eq_ok.1 h
    obtain ⟨hfit, h⟩ := failIf_bind_eq_ok.1 h
    obtain ⟨hnonneg, hfit⟩ := (hover size hsize).1 hfit
    obtain ⟨marks, hmark, h⟩ := bind_eq_ok.1 h
    obtain ⟨hseries, h⟩ := failIf_bind_eq_ok.1 h
    cases h
    refine ⟨⟨⟨size, hsize⟩, hnonneg, hfit, fun hraw => ?_⟩, (hloop size hsize hfit).1 hmark⟩
    exact UInt32.not_le.1 fun hge => hseries ⟨hraw, hge⟩
  · rintro ⟨⟨⟨size, hsize⟩, hnonneg, hfit, hseries⟩, hrest⟩
    refine bind_eq_ok.2 ⟨size, hsize, failIf_bind_eq_ok.2 ⟨(hover size hsize).2 ⟨hnonneg, hfit⟩, ?_⟩⟩
    refine bind_eq_ok.2 ⟨occupied', (hloop size hsize hfit).2 hrest, ?_⟩
    exact failIf_bind_eq_ok.2 ⟨fun hbad => UInt32.not_le.2 (hseries hbad.1) hbad.2, rfl⟩

/-- The loop over the slots. -/
theorem checkSlots_eq_ok {prog : Program} {todo i : ℕ} {occupied : ℕ → Bool}
    (hfloats : prog.stateFloats ≤ vmMaxStateFloats) (hm : Marked prog i occupied) :
    checkSlots prog todo i occupied = .ok () ↔
      ∀ k, i ≤ k → k < i + todo → SlotOk prog k ∧ ApartBefore prog k := by
  induction todo generalizing i occupied with
  | zero => exact ⟨fun _ k hle hlt => by omega, fun _ => rfl⟩
  | succ todo ih =>
    rw [checkSlots, bind_eq_ok]
    constructor
    · rintro ⟨marks, hslot, hrest⟩ k hle hlt
      obtain ⟨hok, hapart, hm'⟩ := (checkSlot_eq_ok hfloats hm).1 hslot
      rcases Nat.eq_or_lt_of_le hle with rfl | hgt
      · exact ⟨hok, hapart⟩
      · exact (ih hm').1 hrest k hgt (by omega)
    · intro hall
      obtain ⟨hok, hapart⟩ := hall i le_rfl (by omega)
      -- the marks of the slots up to `i`
      classical
      have hm' : Marked prog (i + 1) fun x => decide (∃ j < i + 1, InSlot prog j x) :=
        fun x => decide_eq_true_iff
      refine ⟨_, (checkSlot_eq_ok hfloats hm).2 ⟨hok, hapart, hm'⟩, (ih hm').2 ?_⟩
      exact fun k hle hlt => hall k (by omega) (by omega)

/-! ## The code -/

/-- The operand of an operation names something that exists. -/
def OperandOk (prog : Program) (op : Op) (arg : UInt32) : Prop :=
  match op with
  | .pushConst => arg.toNat < prog.consts.length
  | .pushParam => arg.toNat < prog.paramDefaults.length
  | .pushSeries => arg < nSeries
  | .pushSeriesLag => arg >>> 16 < nSeries
  | .pushCtx => arg < nCtx
  | .load | .store => arg < prog.nLocals
  | .sma | .ema | .rsi | .atr | .highest | .lowest | .stddev | .delay | .crossover | .crossunder
  | .smaRaw | .highestRaw | .lowestRaw | .stddevRaw | .delayRaw =>
    arg.toNat < prog.stateKind.length
  | _ => True

/-- Not to fail an upper bound is to be below it, as a length. -/
theorem not_ge_iff_lt_length {arg n : UInt32} {len : ℕ} (hlen : len = n.toNat) :
    ¬arg ≥ n ↔ arg.toNat < len := by
  rw [hlen, ← UInt32.lt_iff_toNat_lt]
  exact UInt32.not_le

theorem checkOperand_eq_ok {prog : Program} {c : Counts} {i : ℕ} {op : Op} {arg : UInt32}
    (hc : Sized c prog) : checkOperand prog c i op arg = .ok () ↔ OperandOk prog op arg := by
  cases op with
  | pushConst => exact failIf_eq_ok.trans (not_ge_iff_lt_length hc.consts)
  | pushParam => exact failIf_eq_ok.trans (not_ge_iff_lt_length hc.paramDefaults)
  | pushSeries | pushSeriesLag | pushCtx | load | store =>
    exact failIf_eq_ok.trans UInt32.not_le
  | sma | ema | rsi | atr | highest | lowest | stddev | delay | crossover | crossunder
  | smaRaw | highestRaw | lowestRaw | stddevRaw | delayRaw =>
    exact failIf_eq_ok.trans (not_ge_iff_lt_length hc.stateKind)
  | _ => exact ⟨fun _ => trivial, fun _ => rfl⟩

theorem checkKind_eq_ok {prog : Program} {i : ℕ} {op : Op} {arg : UInt32} :
    checkKind prog i op arg = .ok () ↔
      ∀ kind, op.expectedStateKind = some kind → prog.stateKind.getD arg.toNat 0 = kind := by
  rw [checkKind]
  cases op.expectedStateKind with
  | none => exact ⟨fun _ _ => nofun, fun _ => rfl⟩
  | some expected =>
    show failIf _ _ = _ ↔ _
    rw [failIf_eq_ok, Decidable.not_not]
    exact ⟨fun h kind hkind => h.trans (Option.some.inj hkind), fun h => h expected rfl⟩

/-- What is known of instruction `ins`, with the depth before it. -/
structure InstrOk (prog : Program) (op : Op) (ins : UInt32) (depth : ℤ) : Prop where
  opcode : Op.ofCode (opCode ins) = some op
  operandOk : OperandOk prog op (operand ins)
  kindOk : ∀ kind, op.expectedStateKind = some kind →
    prog.stateKind.getD (operand ins).toNat 0 = kind
  needs : op.requiredStack ≤ depth
  depth_le : depth + op.stackDelta ≤ 32

/-- One instruction: its checks, and the depths after it. -/
theorem checkInstr_eq_ok {prog : Program} {c : Counts} {i : ℕ} {ins : UInt32}
    {depth observedMax depth' observedMax' : ℤ} (hc : Sized c prog) :
    checkInstr prog c i ins depth observedMax = .ok (depth', observedMax') ↔
      ∃ op, InstrOk prog op ins depth ∧ (op = .halt → i + 1 = prog.code.length) ∧
        depth' = depth + op.stackDelta ∧ observedMax' = max observedMax depth' := by
  have hmax : ∀ d : ℤ, (if d > observedMax then d else observedMax) = max observedMax d := by
    intro d
    rw [max_def]
    split <;> split <;> omega
  have hhalt : ∀ op : Op, ¬(op = .halt ∧ i + 1 ≠ c.nCode.toNat) ↔
      (op = .halt → i + 1 = prog.code.length) := by
    intro op
    rw [hc.code, not_and, not_ne_iff]
  unfold checkInstr
  cases hop : Op.ofCode (opCode ins) with
  | none =>
    constructor
    · exact fun h => absurd h (fail_ne_ok _ _)
    · rintro ⟨op, hok, -⟩
      rw [hok.opcode] at hop
      cases hop
  | some op =>
    show (checkOperand prog c i op (operand ins) >>= _) = _ ↔ _
    constructor
    · intro h
      obtain ⟨_, hoperand, h⟩ := bind_eq_ok.1 h
      obtain ⟨_, hkind, h⟩ := bind_eq_ok.1 h
      obtain ⟨hneeds, h⟩ := failIf_bind_eq_ok.1 h
      obtain ⟨hdepth, h⟩ := failIf_bind_eq_ok.1 h
      obtain ⟨hlast, h⟩ := failIf_bind_eq_ok.1 h
      cases h
      refine ⟨op, ⟨hop, (checkOperand_eq_ok hc).1 hoperand, checkKind_eq_ok.1 hkind, ?_, ?_⟩,
        (hhalt op).1 hlast, rfl, hmax _⟩
      · exact Int.not_lt.1 hneeds
      · exact Int.not_lt.1 hdepth
    · rintro ⟨op', hok, hlast, rfl, rfl⟩
      obtain rfl := Option.some.inj (hop.symm.trans hok.opcode)
      refine bind_eq_ok.2 ⟨(), (checkOperand_eq_ok hc).2 hok.operandOk, ?_⟩
      refine bind_eq_ok.2 ⟨(), checkKind_eq_ok.2 hok.kindOk, ?_⟩
      refine failIf_bind_eq_ok.2 ⟨Int.not_lt.2 hok.needs, ?_⟩
      refine failIf_bind_eq_ok.2 ⟨Int.not_lt.2 hok.depth_le, ?_⟩
      refine failIf_bind_eq_ok.2 ⟨(hhalt op).2 hlast, ?_⟩
      rw [hmax]
      rfl

/-- The number by which an instruction is meant to move the stack pointer. -/
def insDelta (ins : UInt32) : ℤ := ((Op.ofCode (opCode ins)).map Op.stackDelta).getD 0

theorem insDelta_eq {ins : UInt32} {op : Op} (h : Op.ofCode (opCode ins) = some op) :
    insDelta ins = op.stackDelta := by
  rw [insDelta, h]
  rfl

/-- The largest depth on the way, from `depth` on. -/
def peak (depth observedMax : ℤ) : List UInt32 → ℤ
  | [] => observedMax
  | ins :: code => peak (depth + insDelta ins) (max observedMax (depth + insDelta ins)) code

/-- Every instruction from the `i`-th on is right at the depth of those before it. -/
def CodeOk (prog : Program) (i : ℕ) (depth : ℤ) (code : List UInt32) : Prop :=
  ∀ k ins, code[k]? = some ins →
    ∃ op, InstrOk prog op ins (depth + StraightLine.depth insDelta (code.take k)) ∧
      (op = .halt → i + k + 1 = prog.code.length)

/-- The depth before an instruction, with the first one apart. -/
theorem depth_take_cons (ins : UInt32) (code : List UInt32) (depth : ℤ) (k : ℕ) :
    depth + StraightLine.depth insDelta ((ins :: code).take (k + 1)) =
      depth + insDelta ins + StraightLine.depth insDelta (code.take k) := by
  rw [List.take_succ_cons, StraightLine.depth_cons, add_assoc]

theorem codeOk_cons {prog : Program} {i : ℕ} {depth : ℤ} {ins : UInt32} {code : List UInt32} :
    CodeOk prog i depth (ins :: code) ↔
      (∃ op, InstrOk prog op ins depth ∧ (op = .halt → i + 1 = prog.code.length)) ∧
        CodeOk prog (i + 1) (depth + insDelta ins) code := by
  constructor
  · refine fun h => ⟨by simpa using h 0 ins rfl, fun k ins' hk => ?_⟩
    obtain ⟨op, hok, hlast⟩ := h (k + 1) ins' hk
    rw [depth_take_cons] at hok
    exact ⟨op, hok, fun hop => by rw [← hlast hop]; omega⟩
  · rintro ⟨hfirst, hrest⟩ k ins' hk
    cases k with
    | zero =>
      cases hk
      simpa using hfirst
    | succ k =>
      obtain ⟨op, hok, hlast⟩ := hrest k ins' hk
      rw [depth_take_cons]
      exact ⟨op, hok, fun hop => by rw [← hlast hop]; omega⟩

/-- The loop over the code: every instruction was checked at the depth of those before it, and
the largest depth was recorded. -/
theorem checkCode_eq_ok {prog : Program} {c : Counts} (hc : Sized c prog) {i : ℕ}
    {code : List UInt32} {depth observedMax depth' observedMax' : ℤ} :
    checkCode prog c i code depth observedMax = .ok (depth', observedMax') ↔
      CodeOk prog i depth code ∧ depth' = depth + StraightLine.depth insDelta code ∧
        observedMax' = peak depth observedMax code := by
  induction code generalizing i depth observedMax with
  | nil =>
    have hnil : CodeOk prog i depth [] := fun k ins hk => by simp at hk
    rw [StraightLine.depth_nil, Int.add_zero, and_iff_right hnil, peak]
    show Except.ok (depth, observedMax) = _ ↔ _
    rw [Except.ok.injEq, Prod.mk.injEq, eq_comm, @eq_comm _ observedMax]
  | cons ins code ih =>
    rw [checkCode, bind_eq_ok, codeOk_cons, StraightLine.depth_cons, ← add_assoc, peak]
    constructor
    · rintro ⟨⟨d, m⟩, hins, hrest⟩
      obtain ⟨op, hok, hlast, rfl, rfl⟩ := (checkInstr_eq_ok hc).1 hins
      rw [insDelta_eq hok.opcode]
      obtain ⟨hcode, hdepth, hmax⟩ := ih.1 hrest
      exact ⟨⟨⟨op, hok, hlast⟩, hcode⟩, hdepth, hmax⟩
    · rintro ⟨⟨⟨op, hok, hlast⟩, hcode⟩, hdepth, hmax⟩
      rw [insDelta_eq hok.opcode] at hcode hdepth hmax
      exact ⟨_, (checkInstr_eq_ok hc).2 ⟨op, hok, hlast, rfl, rfl⟩, ih.2 ⟨hcode, hdepth, hmax⟩⟩

/-- The largest depth is the depth at some instruction, and no depth is larger. -/
theorem isGreatest_peak {depth observedMax : ℤ} (h : depth ≤ observedMax) (code : List UInt32) :
    IsGreatest (insert observedMax
      ((fun k => depth + StraightLine.depth insDelta (code.take k)) '' Set.Iic code.length))
      (peak depth observedMax code) := by
  induction code generalizing depth observedMax with
  | nil =>
    refine ⟨Set.mem_insert _ _, ?_⟩
    rintro x (rfl | ⟨k, -, rfl⟩)
    · exact le_rfl
    · simpa [peak] using h
  | cons ins code ih =>
    obtain ⟨hmem, hle⟩ := ih (le_max_right observedMax (depth + insDelta ins))
    rw [peak]
    constructor
    · rcases hmem with hmax | ⟨k, hk, hpeak⟩
      · rw [hmax]
        rcases max_choice observedMax (depth + insDelta ins) with hm | hm
        · exact .inl hm
        · refine .inr ⟨1, ?_, ?_⟩
          · simp
          · rw [hm]
            simp [StraightLine.depth]
      · refine .inr ⟨k + 1, Nat.succ_le_succ hk, ?_⟩
        rw [← hpeak]
        exact depth_take_cons ins code depth k
    · have hmax := hle (Set.mem_insert _ _)
      rintro x (rfl | ⟨k, hk, rfl⟩)
      · exact (le_max_left _ _).trans hmax
      · cases k with
        | zero =>
          show depth + 0 ≤ _
          rw [Int.add_zero]
          exact h.trans ((le_max_left _ _).trans hmax)
        | succ k =>
          show depth + StraightLine.depth insDelta ((ins :: code).take (k + 1)) ≤ _
          rw [depth_take_cons]
          exact hle (.inr ⟨k, Nat.le_of_succ_le_succ hk, rfl⟩)

/-- A loop over floats that are all finite. -/
theorem checkFinite_eq_ok {text : ℕ → String} {i : ℕ} {xs : List UInt32} :
    checkFinite text i xs = .ok () ↔ ∀ x ∈ xs, isfinite x = true := by
  induction xs generalizing i with
  | nil => exact ⟨fun _ _ hx => absurd hx List.not_mem_nil, fun _ => rfl⟩
  | cons x xs ih =>
    rw [checkFinite, failIf_bind_eq_ok, ih, List.forall_mem_cons, Bool.not_eq_false]

/-! ## An accepted program -/

/-- The depth that the validation computes for instruction `i`. -/
def depthBefore (prog : Program) (i : ℕ) : ℤ := StraightLine.depth insDelta (prog.code.take i)

/-- The validation of a program of the announced sizes, as one condition on the program. -/
structure Validated (prog : Program) : Prop where
  slots : ∀ k < prog.stateKind.length, SlotOk prog k ∧ ApartBefore prog k
  consts : ∀ x ∈ prog.consts, isfinite x = true
  defaults : ∀ x ∈ prog.paramDefaults, isfinite x = true
  last : Op.ofCode (opCode (prog.code.getLastD 0)) = some .halt
  code : CodeOk prog 0 0 prog.code
  final : depthBefore prog prog.code.length = 0
  max : prog.maxStack = UInt32.ofInt (peak 0 0 prog.code)

theorem validate_eq_ok {c : Counts} {prog : Program} (hc : Sized c prog)
    (hfloats : prog.stateFloats ≤ vmMaxStateFloats) :
    validate c prog = .ok () ↔ Validated prog := by
  have hslots : checkSlots prog c.nState.toNat 0 (fun _ => false) = .ok () ↔
      ∀ k < prog.stateKind.length, SlotOk prog k ∧ ApartBefore prog k := by
    have hmarked : Marked prog 0 fun _ => false := fun x => by simp
    rw [checkSlots_eq_ok hfloats hmarked, hc.stateKind, Nat.zero_add]
    exact forall_congr' fun k => forall_prop_of_true (Nat.zero_le k)
  have hfinal : depthBefore prog prog.code.length = 0 + StraightLine.depth insDelta prog.code := by
    rw [depthBefore, List.take_length, Int.zero_add]
  constructor
  · intro h
    obtain ⟨_, hs, h⟩ := bind_eq_ok.1 h
    obtain ⟨_, hconsts, h⟩ := bind_eq_ok.1 h
    obtain ⟨_, hdefaults, h⟩ := bind_eq_ok.1 h
    obtain ⟨hlast, h⟩ := failIf_bind_eq_ok.1 h
    obtain ⟨⟨depth, observedMax⟩, hcode, h⟩ := bind_eq_ok.1 h
    obtain ⟨hok, rfl, rfl⟩ := (checkCode_eq_ok hc).1 hcode
    obtain ⟨hdepth, h⟩ := failIf_bind_eq_ok.1 h
    exact ⟨hslots.1 hs, checkFinite_eq_ok.1 hconsts, checkFinite_eq_ok.1 hdefaults,
      Decidable.not_not.1 hlast, hok, hfinal.trans (Decidable.not_not.1 hdepth),
      Decidable.not_not.1 (failIf_eq_ok.1 h)⟩
  · intro h
    refine bind_eq_ok.2 ⟨(), hslots.2 h.slots, bind_eq_ok.2 ⟨(), checkFinite_eq_ok.2 h.consts, ?_⟩⟩
    refine bind_eq_ok.2 ⟨(), checkFinite_eq_ok.2 h.defaults, ?_⟩
    refine failIf_bind_eq_ok.2 ⟨Decidable.not_not.2 h.last, ?_⟩
    refine bind_eq_ok.2 ⟨_, (checkCode_eq_ok hc).2 ⟨h.code, rfl, rfl⟩, ?_⟩
    refine failIf_bind_eq_ok.2 ⟨Decidable.not_not.2 (hfinal.symm.trans h.final), ?_⟩
    exact failIf_eq_ok.2 (Decidable.not_not.2 h.max)

/-- No instruction goes above the limit. -/
theorem CodeOk.peak_le {prog : Program} {code : List UInt32} (h : CodeOk prog 0 0 code) :
    peak 0 0 code ≤ 32 := by
  rcases (isGreatest_peak (le_refl (0 : ℤ)) code).1 with hzero | ⟨k, hk, hpeak⟩
  · omega
  rw [← hpeak]
  cases k with
  | zero =>
    show (0 : ℤ) + 0 ≤ 32
    decide
  | succ k =>
    obtain ⟨ins, hins⟩ : ∃ ins, code[k]? = some ins :=
      ⟨_, List.getElem?_eq_getElem (Nat.lt_of_succ_le hk)⟩
    obtain ⟨op, hok, -⟩ := h k ins hins
    have hdepth := hok.depth_le
    show 0 + StraightLine.depth insDelta (code.take (k + 1)) ≤ 32
    rw [StraightLine.depth_take_succ hins, insDelta_eq hok.opcode, ← add_assoc]
    exact hdepth

/-- The recorded maximum is the largest depth: it is in the range of its field. -/
theorem Validated.maxStack_eq {prog : Program} (h : Validated prog) :
    (prog.maxStack.toNat : ℤ) = peak 0 0 prog.code := by
  have hpos : 0 ≤ peak 0 0 prog.code :=
    (isGreatest_peak (le_refl (0 : ℤ)) prog.code).2 (Set.mem_insert _ _)
  have h32 := h.code.peak_le
  rw [h.max, UInt32.ofInt, UInt32.toNat_ofNat']
  omega

/-- No depth is above the recorded maximum, and one reaches it. -/
theorem Validated.isGreatest {prog : Program} (h : Validated prog) :
    IsGreatest (depthBefore prog '' Set.Iic prog.code.length) (prog.maxStack.toNat : ℤ) := by
  rw [h.maxStack_eq]
  obtain ⟨hmem, hle⟩ := isGreatest_peak (le_refl (0 : ℤ)) prog.code
  constructor
  · rcases hmem with hzero | ⟨k, hk, hpeak⟩
    · exact ⟨0, Nat.zero_le _, hzero.symm⟩
    · exact ⟨k, hk, (Int.zero_add _).symm.trans hpeak⟩
  · rintro x ⟨k, hk, rfl⟩
    exact hle (.inr ⟨k, hk, Int.zero_add _⟩)

/-- HALT is the last instruction and no other. -/
theorem Validated.instr {prog : Program} (h : Validated prog) {i : ℕ} {ins : UInt32}
    (hi : prog.code[i]? = some ins) :
    ∃ op, InstrOk prog op ins (depthBefore prog i) ∧ (op = .halt ↔ i + 1 = prog.code.length) := by
  obtain ⟨op, hok, hhalt⟩ := h.code i ins hi
  rw [Int.zero_add] at hok
  refine ⟨op, hok, fun hop => by rw [← hhalt hop]; omega, fun hend => ?_⟩
  -- the last instruction was looked at before the loop
  have hget : prog.code.getLastD 0 = ins := by
    rw [List.getLastD_eq_getLast?, List.getLast?_eq_getElem?, ← hend, Nat.add_sub_cancel, hi]
    rfl
  have hlast := h.last
  rw [hget, hok.opcode] at hlast
  exact Option.some.inj hlast

/-- Two slots have no offset in common: the later one was checked against the earlier one. -/
theorem Validated.apart {prog : Program} (h : Validated prog) {i j : ℕ}
    (hi : i < prog.stateKind.length) (hj : j < prog.stateKind.length) (hne : i ≠ j) {x : ℕ}
    (hxi : InSlot prog i x) : ¬InSlot prog j x := by
  intro hxj
  rcases Nat.lt_or_gt_of_ne hne with hlt | hgt
  · exact (h.slots j hj).2 i hlt x hxi hxj
  · exact (h.slots i hi).2 j hgt x hxj hxi

/-- What `parse` guarantees of the program it returns. -/
structure Accepted (prog : Program) : Prop where
  offs : prog.stateOff.length = prog.stateKind.length
  caps : prog.stateCap.length = prog.stateKind.length
  auxs : prog.stateAux.length = prog.stateKind.length
  maxStack_le : prog.maxStack.toNat ≤ 32
  slot : ∀ i < prog.stateKind.length, SlotOk prog i
  apart : ∀ i < prog.stateKind.length, ∀ j < prog.stateKind.length, i ≠ j → ∀ x,
    InSlot prog i x → ¬InSlot prog j x
  instr : ∀ i ins, prog.code[i]? = some ins → ∃ op, InstrOk prog op ins (depthBefore prog i) ∧
    (op = .halt ↔ i + 1 = prog.code.length)
  depth_le : ∀ i ≤ prog.code.length, depthBefore prog i ≤ prog.maxStack.toNat

/-- The limits on the header. -/
theorem checkHeader_eq_ok {c : Counts} {prog : Program} :
    checkHeader c prog = .ok () ↔
      prog.maxStack ≤ vmMaxStack ∧ c.nCode ≠ 0 ∧ c.nCode ≤ vmMaxCode ∧
        prog.stateFloats ≤ vmMaxStateFloats ∧ c.nParams ≤ 65535 := by
  simp only [checkHeader, failIf_bind_eq_ok, failIf_eq_ok, gt_iff_lt, UInt32.not_lt, ne_eq]

/-- Everything that is known of the program `parse` returns. -/
theorem parse_accepted {bytes : List UInt8} {prog : Program} (h : parse bytes = .ok prog) :
    Accepted prog := by
  obtain ⟨c, hc, -, -, hlimits, hvalid⟩ := parse_eq_ok.1 h
  obtain ⟨hstack, -, -, hfloats, -⟩ := checkHeader_eq_ok.1 hlimits
  have hv := (validate_eq_ok hc hfloats).1 hvalid
  refine ⟨?_, ?_, ?_, UInt32.le_iff_toNat_le.1 hstack, fun i hi => (hv.slots i hi).1,
    fun i hi j hj hne x => hv.apart hi hj hne, fun i ins hi => hv.instr hi,
    fun i hi => hv.isGreatest.2 ⟨i, hi, rfl⟩⟩
  · rw [hc.stateOff, hc.stateKind]
  · rw [hc.stateCap, hc.stateKind]
  · rw [hc.stateAux, hc.stateKind]

end Program

end ItchOrderbook
