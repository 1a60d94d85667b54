import ItchOrderbook.Lib.ExactReader
import ItchOrderbook.Lib.LittleEndian
import ItchOrderbook.Trade.Program
import Mathlib

/-!
# The byte layout of OBP1 (`sw/trade/program.hpp`)

`encode` writes the layout the header file documents. The reader of `Program::parse` reads
exactly that: `readHeader_eq_ok` and `readBody_eq_ok` say on which bytes it returns, and what.
-/

namespace ItchOrderbook

open CheckedState ExactReader LittleEndian

/-! ## Checks -/

@[simp] theorem fail_ne_ok {α : Type} (text : String) (a : α) : fail text ≠ .ok a := nofun

@[simp] theorem failIf_eq_ok {bad : Prop} [Decidable bad] {text : String} {u : Unit} :
    failIf bad text = .ok u ↔ ¬bad := by
  unfold failIf
  split
  · rename_i h
    simp [h]
  · rename_i h
    simp [h, pure, Except.pure]

/-- A check lets the rest through when it does not apply. -/
@[simp] theorem failIf_bind_eq_ok {β : Type} {bad : Prop} [Decidable bad] {text : String}
    {k : Unit → Except String β} {b : β} :
    failIf bad text >>= k = .ok b ↔ ¬bad ∧ k () = .ok b := by
  rw [bind_eq_ok]
  constructor
  · rintro ⟨u, hu, hk⟩
    exact ⟨failIf_eq_ok.1 hu, hk⟩
  · rintro ⟨hbad, hk⟩
    exact ⟨(), failIf_eq_ok.2 hbad, hk⟩

/-! ## The layout -/

/-- A `u32` of the layout. -/
def u32Bytes (x : UInt32) : List UInt8 := toBytes 4 x.toNat

/-- `{ u16 len, utf-8 bytes }`. Nothing looks at what the bytes encode. -/
def nameBytes (name : List UInt8) : List UInt8 := toBytes 2 name.length ++ name

namespace Program

/-- The header: nine words, the first one the magic number. -/
def encodeHeader (c : Counts) (prog : Program) : List UInt8 :=
  ['O'.toUInt8, 'B'.toUInt8, 'P'.toUInt8, '1'.toUInt8] ++
    [1, c.nCode, c.nConsts, c.nState, c.nParams, prog.nLocals, prog.stateFloats,
      prog.maxStack].flatMap u32Bytes

/-- The arrays and the names. -/
def encodeBody (prog : Program) : List UInt8 :=
  prog.code.flatMap u32Bytes ++ (prog.consts.flatMap u32Bytes ++
    ((prog.stateKind.map Int32.toUInt32).flatMap u32Bytes ++
    ((prog.stateOff.map Int32.toUInt32).flatMap u32Bytes ++
    ((prog.stateCap.map Int32.toUInt32).flatMap u32Bytes ++
    ((prog.stateAux.map Int32.toUInt32).flatMap u32Bytes ++
    (prog.paramDefaults.flatMap u32Bytes ++
    prog.paramNames.flatMap nameBytes))))))

/-- The counts a program is written with. -/
def counts (prog : Program) : Counts :=
  { nCode := .ofNat prog.code.length
    nConsts := .ofNat prog.consts.length
    nState := .ofNat prog.stateKind.length
    nParams := .ofNat prog.paramDefaults.length }

/-- The OBP1 file of a program. -/
def encode (prog : Program) : List UInt8 := encodeHeader prog.counts prog ++ encodeBody prog

end Program

/-! ## What the reader reads -/

namespace Reader

/-- The shifts and ors of the reader are the number the bytes stand for. -/
theorem littleEndian_toNat {bs : List UInt8} (h : bs.length ≤ 4) :
    (littleEndian bs).toNat = ofBytes bs := by
  induction bs with
  | nil => rfl
  | cons b bs ih =>
    rw [List.length_cons] at h
    have hrest := ih (by omega)
    have hbound := ofBytes_lt bs
    have hpow : 256 ^ bs.length ≤ 256 ^ 3 := Nat.pow_le_pow_right (by decide) (by omega)
    have hb : b.toNat < 2 ^ 8 := b.toNat_lt
    rw [littleEndian, UInt32.toNat_or, UInt8.toNat_toUInt32, UInt32.toNat_shiftLeft, hrest, ofBytes]
    -- nothing is shifted out, and the byte goes below what was shifted
    have hshift : (ofBytes bs <<< ((8 : UInt32).toNat % 32)) % 2 ^ 32 = ofBytes bs <<< 8 := by
      show (ofBytes bs <<< 8) % 2 ^ 32 = _
      rw [Nat.shiftLeft_eq]
      omega
    rw [hshift, Nat.or_comm, ← Nat.shiftLeft_add_eq_or_of_lt hb, Nat.shiftLeft_eq]
    omega

variable {α : Type} {p p' : List UInt8}

/-- A check reads nothing. -/
theorem check_bind_eq_ok {bad : Prop} [Decidable bad] {text : String} {f : Unit → Reader α}
    {a : α} :
    ((liftM (failIf bad text) : Reader Unit) >>= f).run p = .ok (a, p') ↔
      ¬bad ∧ (f ()).run p = .ok (a, p') := by
  show (failIf bad text >>= fun u => pure (u, p)) >>= _ = _ ↔ _
  rw [bind_assoc, failIf_bind_eq_ok]
  rfl

/-- `need` lets the rest through when there are enough bytes. -/
theorem need_bind_eq_ok {n : ℕ} {what : String} {f : Unit → Reader α} {a : α} :
    (need n what >>= f).run p = .ok (a, p') ↔ n ≤ p.length ∧ (f ()).run p = .ok (a, p') := by
  show ((liftM (failIf (p.length < n) _) : Reader Unit) >>= f).run p = _ ↔ _
  rw [check_bind_eq_ok, Nat.not_lt]

/-- `take` takes what is there. -/
theorem take_run {n : ℕ} (h : n ≤ p.length) : (take n).run p = .ok (p.take n, p.drop n) := by
  have hrun : (take n).run p = if p.length < n then .error overrun else
      .ok (p.take n, p.drop n) := by
    show StateT.run (do
      if p.length < n then throw overrun
      set (p.drop n)
      pure (p.take n) : Reader _) p = _
    split <;> rfl
  rw [hrun, if_neg (Nat.not_lt.2 h)]

/-- A block of bytes, after the check that it is there. -/
theorem reads_block (n : ℕ) (what : String) :
    Reads (need n what >>= fun _ => take n) (fun bs => bs.length = n) id := by
  intro p bs p'
  rw [need_bind_eq_ok]
  constructor
  · rintro ⟨hn, htake⟩
    rw [take_run hn] at htake
    cases htake
    exact ⟨List.length_take_of_le hn, (List.take_append_drop n p).symm⟩
  · rintro ⟨rfl, rfl⟩
    have hle : bs.length ≤ (id bs ++ p').length := by simp
    refine ⟨hle, ?_⟩
    rw [take_run hle]
    simp

/-- A number of at most four bytes. -/
theorem reads_number {w : ℕ} (hw : w ≤ 4) (what : String) :
    Reads (do need w what; return littleEndian (← take w)) (fun x => x.toNat < 256 ^ w)
      fun x => toBytes w x.toNat := by
  intro p x p'
  rw [← bind_assoc, (reads_block w what).bind_eq_ok]
  constructor
  · rintro ⟨bs, q, ⟨rfl, rfl⟩, hpure⟩
    obtain ⟨rfl, rfl⟩ := pure_eq_ok.1 hpure
    show (littleEndian bs).toNat < _ ∧ bs ++ q = toBytes bs.length (littleEndian bs).toNat ++ q
    rw [littleEndian_toNat hw, toBytes_ofBytes]
    exact ⟨ofBytes_lt bs, rfl⟩
  · rintro ⟨hx, rfl⟩
    refine ⟨toBytes w x.toNat, p', ⟨toBytes_length _ _, rfl⟩, pure_eq_ok.2 ⟨?_, rfl⟩⟩
    apply UInt32.toNat_inj.mp
    rw [littleEndian_toNat (by rwa [toBytes_length]), ofBytes_toBytes hx]

theorem reads_u32 (what : String) : Reads (u32 what) (fun _ => True) u32Bytes := by
  intro p x p'
  refine (reads_number (Nat.le_refl 4) what p x p').trans ?_
  exact and_congr_left fun _ => ⟨fun _ => trivial, fun _ => x.toNat_lt⟩

theorem reads_u16 (what : String) :
    Reads (u16 what) (fun x => x.toNat < 256 ^ 2) fun x => toBytes 2 x.toNat :=
  reads_number (by decide) what

/-- The elements of an array that was written. -/
theorem elements_flatMap (xs : List UInt32) : elements xs.length (xs.flatMap u32Bytes) = xs := by
  induction xs with
  | nil => rfl
  | cons x xs ih =>
    have hlen : (u32Bytes x).length = 4 := toBytes_length _ _
    have hx : littleEndian (u32Bytes x) = x := by
      apply UInt32.toNat_inj.mp
      rw [littleEndian_toNat (Nat.le_of_eq hlen), u32Bytes, ofBytes_toBytes x.toNat_lt]
    rw [List.length_cons, List.flatMap_cons, elements, List.take_left' hlen, List.drop_left' hlen,
      hx, ih]

/-- Writing the elements that were read gives the bytes back. -/
theorem flatMap_elements {n : ℕ} (h : p.length = n * 4) :
    (elements n p).flatMap u32Bytes = p := by
  induction n generalizing p with
  | zero =>
    obtain rfl := List.length_eq_zero_iff.1 (h.trans (Nat.zero_mul 4))
    rfl
  | succ n ih =>
    have htake : (p.take 4).length = 4 := by
      rw [List.length_take]
      omega
    have hword : u32Bytes (littleEndian (p.take 4)) = p.take 4 := by
      have hback := toBytes_ofBytes (p.take 4)
      rw [htake] at hback
      rw [u32Bytes, littleEndian_toNat (Nat.le_of_eq htake), hback]
    have hrest : (p.drop 4).length = n * 4 := by
      rw [List.length_drop]
      omega
    rw [elements, List.flatMap_cons, hword, ih hrest, List.take_append_drop]

theorem elements_length (n : ℕ) (p : List UInt8) : (elements n p).length = n := by
  induction n generalizing p with
  | zero => rfl
  | succ n ih => simp [elements, ih]

theorem flatMap_u32Bytes_length (xs : List UInt32) : (xs.flatMap u32Bytes).length = xs.length * 4 := by
  induction xs with
  | nil => rfl
  | cons x xs ih =>
    rw [List.flatMap_cons, List.length_append, ih, u32Bytes, toBytes_length, List.length_cons]
    omega

/-- An array: the first check already says that the bytes are there. -/
theorem reads_array (n : UInt32) (what : String) :
    Reads (array n what) (fun xs => xs.length = n.toNat) fun xs => xs.flatMap u32Bytes := by
  intro p xs p'
  show ((liftM (failIf (n.toNat > p.length / 4) _) : Reader Unit) >>= fun _ => do
    need (n.toNat * 4) what
    return elements n.toNat (← take (n.toNat * 4))).run p = _ ↔ _
  rw [check_bind_eq_ok, ← bind_assoc, (reads_block _ what).bind_eq_ok]
  constructor
  · rintro ⟨-, bs, q, ⟨hbs, rfl⟩, hpure⟩
    obtain ⟨rfl, rfl⟩ := pure_eq_ok.1 hpure
    show _ ∧ bs ++ q = (elements n.toNat bs).flatMap u32Bytes ++ q
    rw [flatMap_elements hbs]
    exact ⟨elements_length _ _, rfl⟩
  · rintro ⟨hlen, rfl⟩
    have hbytes : (xs.flatMap u32Bytes).length = n.toNat * 4 := by
      rw [flatMap_u32Bytes_length, hlen]
    refine ⟨?_, xs.flatMap u32Bytes, p', ⟨hbytes, rfl⟩, pure_eq_ok.2 ⟨?_, rfl⟩⟩
    · rw [List.length_append, hbytes]
      omega
    · rw [← hlen, elements_flatMap]

theorem reads_intArray (n : UInt32) (what : String) :
    Reads (intArray n what) (fun xs => xs.length = n.toNat)
      fun xs => (xs.map Int32.toUInt32).flatMap u32Bytes := by
  have hleft : ∀ xs : List UInt32, (xs.map UInt32.toInt32).map Int32.toUInt32 = xs := by
    intro xs
    rw [List.map_map]
    exact List.map_id xs
  have hright : ∀ xs : List Int32, (xs.map Int32.toUInt32).map UInt32.toInt32 = xs := by
    intro xs
    rw [List.map_map]
    exact List.map_id xs
  have h := (reads_array n what).map hleft hright
  intro p xs p'
  rw [intArray, ← map_eq_pure_bind, h p xs p']
  show (xs.map Int32.toUInt32).length = n.toNat ∧ _ ↔ _
  rw [List.length_map]
  rfl

/-- The names, each after its length. -/
theorem reads_names (n : ℕ) :
    Reads (names n) (fun xs => xs.length = n ∧ ∀ x ∈ xs, x.length < 256 ^ 2)
      fun xs => xs.flatMap nameBytes := by
  have hname : Reads (do
      let ln ← u16 "param name len"
      need ln.toNat "param name"
      take ln.toNat) (fun x => x.length < 256 ^ 2) nameBytes := by
    intro p x p'
    rw [(reads_u16 _).bind_eq_ok]
    constructor
    · rintro ⟨ln, q, ⟨hln, rfl⟩, hblock⟩
      obtain ⟨hx, rfl⟩ := (reads_block _ _ q x p').1 hblock
      show x.length < _ ∧ toBytes 2 ln.toNat ++ (x ++ p') = nameBytes x ++ p'
      rw [nameBytes, hx, List.append_assoc]
      exact ⟨hln, rfl⟩
    · rintro ⟨hx, rfl⟩
      have hlen : (UInt32.ofNat x.length).toNat = x.length := by
        rw [UInt32.toNat_ofNat']
        omega
      refine ⟨.ofNat x.length, x ++ p', ⟨?_, ?_⟩, (reads_block _ _ _ _ _).2 ⟨hlen.symm, rfl⟩⟩
      · rwa [hlen]
      · rw [nameBytes, hlen, List.append_assoc]
  refine hname.many rfl (fun n => ?_) n
  simp only [names, bind_assoc]

end Reader

namespace Program

open Reader

variable {p p' : List UInt8}

/-- The header is read from its nine words. -/
theorem readHeader_eq_ok {c : Counts} {prog : Program} :
    readHeader.run p = .ok ((c, prog), p') ↔
      prog = { nLocals := prog.nLocals
               stateFloats := prog.stateFloats
               maxStack := prog.maxStack } ∧ p = encodeHeader c prog ++ p' := by
  rw [readHeader, ← bind_assoc, (reads_block 4 _).bind_eq_ok]
  simp only [check_bind_eq_ok, (reads_u32 _).bind_eq_ok, pure_eq_ok, Decidable.not_not, true_and]
  constructor
  · rintro ⟨magic, _, ⟨-, rfl⟩, rfl, version, _, rfl, rfl, nCode, _, rfl, nConsts, _, rfl, nState, _,
      rfl, nParams, _, rfl, nLocals, _, rfl, stateFloats, _, rfl, maxStack, _, rfl, hres, rfl⟩
    cases hres
    refine ⟨rfl, ?_⟩
    simp [encodeHeader]
  · rintro ⟨hprog, rfl⟩
    refine ⟨_, _, ⟨rfl, by rw [encodeHeader, List.append_assoc]; rfl⟩, rfl, 1, _, ?_, rfl, c.nCode, _,
      rfl, c.nConsts, _, rfl, c.nState, _, rfl, c.nParams, _, rfl, prog.nLocals, _, rfl,
      prog.stateFloats, _, rfl, prog.maxStack, p', rfl, ?_, rfl⟩
    · simp
    · rw [← hprog]

/-- The arrays are as long as the header says. -/
structure Sized (c : Counts) (prog : Program) : Prop where
  code : prog.code.length = c.nCode.toNat
  consts : prog.consts.length = c.nConsts.toNat
  stateKind : prog.stateKind.length = c.nState.toNat
  stateOff : prog.stateOff.length = c.nState.toNat
  stateCap : prog.stateCap.length = c.nState.toNat
  stateAux : prog.stateAux.length = c.nState.toNat
  paramDefaults : prog.paramDefaults.length = c.nParams.toNat

/-- There is a name for every parameter, and each fits its length field. -/
structure Named (c : Counts) (prog : Program) : Prop where
  count : prog.paramNames.length = c.nParams.toNat
  short : ∀ name ∈ prog.paramNames, name.length < 2 ^ 16

/-- The fields that come from the header. -/
def SameHeader (prog prog' : Program) : Prop :=
  prog'.nLocals = prog.nLocals ∧ prog'.stateFloats = prog.stateFloats ∧
    prog'.maxStack = prog.maxStack

/-- The body is read from the arrays and names of a program with the announced sizes. -/
theorem readBody_eq_ok {c : Counts} {prog prog' : Program} :
    (readBody c prog).run p = .ok (prog', p') ↔
      (Sized c prog' ∧ Named c prog' ∧ SameHeader prog prog') ∧ p = encodeBody prog' ++ p' := by
  rw [readBody]
  simp only [(reads_array _ _).bind_eq_ok, (reads_intArray _ _).bind_eq_ok,
    (reads_names _).bind_eq_ok, pure_eq_ok]
  constructor
  · rintro ⟨code, _, ⟨hcode, rfl⟩, consts, _, ⟨hconsts, rfl⟩, kinds, _, ⟨hkinds, rfl⟩, offs, _,
      ⟨hoffs, rfl⟩, caps, _, ⟨hcaps, rfl⟩, auxs, _, ⟨hauxs, rfl⟩, defaults, _, ⟨hdefaults, rfl⟩,
      names, _, ⟨⟨hcount, hshort⟩, rfl⟩, rfl, rfl⟩
    refine ⟨⟨⟨hcode, hconsts, hkinds, hoffs, hcaps, hauxs, hdefaults⟩, ⟨hcount, hshort⟩, rfl, rfl,
      rfl⟩, ?_⟩
    simp only [encodeBody, List.append_assoc]
  · rintro ⟨⟨hsized, hnamed, hlocals, hfloats, hstack⟩, rfl⟩
    refine ⟨_, _, ⟨hsized.code, by rw [encodeBody, List.append_assoc]⟩, _, _, ⟨hsized.consts,
      List.append_assoc _ _ _⟩, _, _, ⟨hsized.stateKind, List.append_assoc _ _ _⟩, _, _,
      ⟨hsized.stateOff, List.append_assoc _ _ _⟩, _, _, ⟨hsized.stateCap, List.append_assoc _ _ _⟩,
      _, _, ⟨hsized.stateAux, List.append_assoc _ _ _⟩, _, _, ⟨hsized.paramDefaults,
      List.append_assoc _ _ _⟩, _, _, ⟨⟨hnamed.count, hnamed.short⟩, rfl⟩, ?_, rfl⟩
    rw [← hlocals, ← hfloats, ← hstack]

/-- `parse` accepts the encoding of the program it returns, within the limits, and nothing
else. -/
theorem parse_eq_ok {bytes : List UInt8} {prog : Program} :
    parse bytes = .ok prog ↔ ∃ c, Sized c prog ∧ Named c prog ∧
      bytes = encodeHeader c prog ++ encodeBody prog ∧ checkHeader c prog = .ok () ∧
      validate c prog = .ok () := by
  have hheader : ∀ (c : Counts) {prog' : Program}, SameHeader prog' prog →
      checkHeader c prog' = checkHeader c prog ∧ encodeHeader c prog' = encodeHeader c prog := by
    rintro c prog' ⟨hlocals, hfloats, hstack⟩
    rw [checkHeader, checkHeader, encodeHeader, encodeHeader, hlocals, hfloats, hstack]
    exact ⟨rfl, rfl⟩
  constructor
  · intro h
    obtain ⟨⟨⟨c, header⟩, p⟩, hread, h⟩ := bind_eq_ok.1 h
    obtain ⟨_, hlimits, h⟩ := bind_eq_ok.1 h
    obtain ⟨⟨prog', p'⟩, hbody, h⟩ := bind_eq_ok.1 h
    obtain ⟨hend, h⟩ := failIf_bind_eq_ok.1 h
    obtain ⟨_, hvalid, h⟩ := bind_eq_ok.1 h
    cases h
    obtain ⟨-, rfl⟩ := readHeader_eq_ok.1 hread
    obtain ⟨⟨hsized, hnamed, hsame⟩, rfl⟩ := readBody_eq_ok.1 hbody
    obtain rfl := List.length_eq_zero_iff.1 (Decidable.not_not.1 hend)
    rw [(hheader c hsame).1] at hlimits
    rw [(hheader c hsame).2, List.append_nil]
    exact ⟨c, hsized, hnamed, rfl, hlimits, hvalid⟩
  · rintro ⟨c, hsized, hnamed, rfl, hlimits, hvalid⟩
    obtain ⟨header, hfresh, hsame⟩ : ∃ header : Program,
        header = { nLocals := header.nLocals
                   stateFloats := header.stateFloats
                   maxStack := header.maxStack } ∧ SameHeader header prog :=
      ⟨{ nLocals := prog.nLocals
         stateFloats := prog.stateFloats
         maxStack := prog.maxStack }, rfl, rfl, rfl, rfl⟩
    refine bind_eq_ok.2 ⟨((c, header), encodeBody prog), readHeader_eq_ok.2 ⟨hfresh, ?_⟩, ?_⟩
    · exact congrArg (· ++ encodeBody prog) (hheader c hsame).2.symm
    refine bind_eq_ok.2 ⟨(), (hheader c hsame).1.trans hlimits, ?_⟩
    refine bind_eq_ok.2 ⟨(prog, []), readBody_eq_ok.2 ⟨⟨hsized, hnamed, hsame⟩, ?_⟩, ?_⟩
    · rw [List.append_nil]
    exact failIf_bind_eq_ok.2 ⟨fun h => h rfl, bind_eq_ok.2 ⟨(), hvalid, rfl⟩⟩

end Program

/-! ## How it fails -/

/-- A text the source throws. -/
def Thrown (e : String) : Prop := ∃ text : String, e = s!"obp1: {text}"

theorem not_thrown_overrun : ¬Thrown Reader.overrun := by
  rintro ⟨text, h⟩
  have hlist : Reader.overrun.toList = "obp1: ".toList ++ text.toList := by
    rw [h, ← String.toList_append]
    rfl
  -- the first letters differ
  cases hlist

/-- What fails, fails with a text of the source. -/
def Throws {α : Type} (x : Except String α) : Prop := ∀ e, x = .error e → Thrown e

section Throws

variable {α β : Type}

theorem throws_pure (a : α) : Throws (pure a : Except String α) := nofun

theorem throws_fail (text : String) : Throws (fail text : Except String α) := by
  intro e h
  cases h
  exact ⟨text, rfl⟩

theorem throws_failIf {bad : Prop} [Decidable bad] {text : String} : Throws (failIf bad text) := by
  unfold failIf
  split
  · exact throws_fail text
  · exact throws_pure ()

theorem Throws.bind {x : Except String α} {f : α → Except String β} (hx : Throws x)
    (hf : ∀ a, Throws (f a)) : Throws (x >>= f) := by
  cases x with
  | error e =>
    intro e' h
    cases h
    exact hx e rfl
  | ok a => exact hf a

/-- A reader that fails only with a text of the source: it never reads past the end. -/
def Reader.Throws (r : Reader α) : Prop := ∀ p, ItchOrderbook.Throws (r.run p)

theorem Reader.Throws.bind {r : Reader α} {f : α → Reader β} (hr : r.Throws)
    (hf : ∀ a, (f a).Throws) : (r >>= f).Throws :=
  fun p => ItchOrderbook.Throws.bind (hr p) fun x => hf x.1 x.2

theorem Reader.throws_pure (a : α) : Reader.Throws (pure a) := nofun

theorem Reader.throws_check {bad : Prop} [Decidable bad] {text : String} :
    Reader.Throws (liftM (failIf bad text)) :=
  fun _ => ItchOrderbook.Throws.bind throws_failIf fun _ => nofun

/-- What is taken was asked for before. -/
theorem Reader.throws_block (n : ℕ) (what : String) :
    Reader.Throws (need n what >>= fun _ => take n) := by
  intro p e h
  rcases Nat.lt_or_ge p.length n with hlt | hle
  · have hneed : (need n what >>= fun _ => take n).run p =
        fail s!"truncated at {what}" := by
      show ((liftM (failIf (p.length < n) _) : Reader Unit) >>= fun _ => take n).run p = _
      rw [failIf, if_pos hlt]
      rfl
    rw [hneed] at h
    exact throws_fail _ e h
  · have hneed : (need n what >>= fun _ => take n).run p = _ :=
      need_bind_eq_ok.2 ⟨hle, take_run hle⟩
    rw [hneed] at h
    cases h

theorem Reader.throws_u32 (what : String) : (u32 what).Throws := by
  rw [u32, ← bind_assoc]
  exact (throws_block 4 what).bind fun _ => Reader.throws_pure _

theorem Reader.throws_array (n : UInt32) (what : String) : (array n what).Throws := by
  intro p
  show ItchOrderbook.Throws (((liftM (failIf (n.toNat > p.length / 4) _) : Reader Unit) >>=
    fun _ => do
      need (n.toNat * 4) what
      return elements n.toNat (← take (n.toNat * 4))).run p)
  refine throws_check.bind (fun _ => ?_) p
  rw [← bind_assoc]
  exact (throws_block _ what).bind fun _ => Reader.throws_pure _

theorem Reader.throws_intArray (n : UInt32) (what : String) : (intArray n what).Throws :=
  (throws_array n what).bind fun _ => Reader.throws_pure _

theorem Reader.throws_names (n : ℕ) : (names n).Throws := by
  induction n with
  | zero => exact Reader.throws_pure _
  | succ n ih =>
    rw [names]
    refine Reader.Throws.bind ?_ fun ln => ?_
    · rw [u16, ← bind_assoc]
      exact (throws_block 2 _).bind fun _ => Reader.throws_pure _
    · rw [← bind_assoc]
      exact (throws_block _ _).bind fun _ => ih.bind fun _ => Reader.throws_pure _

end Throws

namespace Program

open Reader

theorem throws_readHeader : readHeader.Throws := by
  rw [readHeader, ← bind_assoc]
  refine (throws_block 4 _).bind fun _ => throws_check.bind fun _ => ?_
  refine (throws_u32 _).bind fun _ => throws_check.bind fun _ => ?_
  -- the seven words after the version
  iterate 7 refine (throws_u32 _).bind fun _ => ?_
  exact Reader.throws_pure _

theorem throws_readBody (c : Counts) (prog : Program) : (readBody c prog).Throws := by
  refine (throws_array _ _).bind fun _ => (throws_array _ _).bind fun _ => ?_
  iterate 4 refine (throws_intArray _ _).bind fun _ => ?_
  exact (throws_array _ _).bind fun _ => (throws_names _).bind fun _ => Reader.throws_pure _

theorem throws_checkHeader (c : Counts) (prog : Program) : Throws (checkHeader c prog) := by
  refine throws_failIf.bind fun _ => throws_failIf.bind fun _ => throws_failIf.bind fun _ => ?_
  exact throws_failIf.bind fun _ => throws_failIf

theorem throws_stateSize (kind cap : Int32) : Throws (stateSize kind cap) := by
  refine throws_failIf.bind fun _ => ?_
  iterate 6
    split
    · exact throws_pure _
  exact throws_fail _

theorem throws_markSlot (i size : ℕ) (off : UInt32) (occupied : ℕ → Bool) :
    Throws (markSlot i size off occupied) := by
  induction size generalizing off occupied with
  | zero => exact throws_pure _
  | succ size ih => exact throws_failIf.bind fun _ => ih _ _

theorem throws_checkSlots (prog : Program) (todo i : ℕ) (occupied : ℕ → Bool) :
    Throws (checkSlots prog todo i occupied) := by
  induction todo generalizing i occupied with
  | zero => exact throws_pure _
  | succ todo ih =>
    refine Throws.bind ?_ fun _ => ih _ _
    refine (throws_stateSize _ _).bind fun _ => throws_failIf.bind fun _ => ?_
    exact (throws_markSlot _ _ _ _).bind fun _ => throws_failIf.bind fun _ => throws_pure _

theorem throws_checkFinite (text : ℕ → String) (i : ℕ) (xs : List UInt32) :
    Throws (checkFinite text i xs) := by
  induction xs generalizing i with
  | nil => exact throws_pure _
  | cons x xs ih => exact throws_failIf.bind fun _ => ih _

theorem throws_checkOperand (prog : Program) (c : Counts) (i : ℕ) (op : Op) (arg : UInt32) :
    Throws (checkOperand prog c i op arg) := by
  unfold checkOperand
  split <;> first | exact throws_failIf | exact throws_pure _

theorem throws_checkKind (prog : Program) (i : ℕ) (op : Op) (arg : UInt32) :
    Throws (checkKind prog i op arg) := by
  unfold checkKind
  split
  · exact throws_failIf
  · exact throws_pure _

theorem throws_checkCode (prog : Program) (c : Counts) (i : ℕ) (code : List UInt32)
    (depth observedMax : ℤ) : Throws (checkCode prog c i code depth observedMax) := by
  induction code generalizing i depth observedMax with
  | nil => exact throws_pure _
  | cons ins code ih =>
    refine Throws.bind ?_ fun _ => ih _ _ _
    unfold checkInstr
    split
    · exact throws_fail _
    · refine (throws_checkOperand _ _ _ _ _).bind fun _ => (throws_checkKind _ _ _ _).bind fun _ => ?_
      refine throws_failIf.bind fun _ => throws_failIf.bind fun _ => ?_
      exact throws_failIf.bind fun _ => throws_pure _

theorem throws_validate (c : Counts) (prog : Program) : Throws (validate c prog) := by
  refine (throws_checkSlots _ _ _ _).bind fun _ => (throws_checkFinite _ _ _).bind fun _ => ?_
  refine (throws_checkFinite _ _ _).bind fun _ => throws_failIf.bind fun _ => ?_
  refine (throws_checkCode _ _ _ _ _ _).bind fun _ => ?_
  exact throws_failIf.bind fun _ => throws_failIf

/-- Every failure of `parse` is one of the source's: no read is past the end. -/
theorem throws_parse (bytes : List UInt8) : Throws (parse bytes) := by
  refine (throws_readHeader bytes).bind fun _ => (throws_checkHeader _ _).bind fun _ => ?_
  refine (throws_readBody _ _ _).bind fun _ => throws_failIf.bind fun _ => ?_
  exact (throws_validate _ _).bind fun _ => throws_pure _

end Program

end ItchOrderbook
