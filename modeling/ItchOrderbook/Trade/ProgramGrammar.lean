import ItchOrderbook.Trade.ProgramSpec

/-!
# The OBP1 grammar

`WellFormed` says, without the loader's arithmetic, which programs an OBP1 file may hold, and
`encode` which bytes hold a program. `Program::parse` accepts the encodings of the well-formed
programs, each as the program it encodes, and refuses every other byte string without reading
past its end.
-/

namespace ItchOrderbook

open CheckedState

namespace Program

/-! ## The grammar -/

/-- The floats of a slot by its kind and capacity, as `enum StateKind` documents them. -/
inductive SlotTakes : Int32 → Int32 → ℕ → Prop
  | ema (cap : Int32) : SlotTakes skEma cap 2
  | wilder1 (cap : Int32) : SlotTakes skWilder1 cap 2
  | wilder2 (cap : Int32) : SlotTakes skWilder2 cap 4
  | ring {cap : Int32} (pos : 0 < cap.toInt) (le : cap.toInt ≤ 4096) :
      SlotTakes skRing cap (1 + cap.toInt.toNat)
  | prev2 (cap : Int32) : SlotTakes skPrev2 cap 3
  | raw {cap : Int32} (pos : 0 < cap.toInt) (le : cap.toInt ≤ 4096) : SlotTakes skRaw cap 0

/-- State slot `i` lies in the state block and takes `size` floats of it. -/
structure SlotFits (prog : Program) (i size : ℕ) : Prop where
  takes : SlotTakes (prog.stateKind.getD i 0) (prog.stateCap.getD i 0) size
  off_nonneg : 0 ≤ (prog.stateOff.getD i 0).toInt
  fits : (prog.stateOff.getD i 0).toInt + size ≤ prog.stateFloats.toNat
  series : prog.stateKind.getD i 0 = skRaw →
    (prog.stateAux.getD i 0).toUInt32 >>> 16 < nSeries

/-- Float `x` of the state block belongs to slot `i`. -/
def Occupies (prog : Program) (i x : ℕ) : Prop :=
  ∃ size, SlotTakes (prog.stateKind.getD i 0) (prog.stateCap.getD i 0) size ∧
    (prog.stateOff.getD i 0).toInt ≤ x ∧ (x : ℤ) < (prog.stateOff.getD i 0).toInt + size

/-- A program an OBP1 file may hold. -/
structure WellFormed (prog : Program) : Prop where
  code_pos : 0 < prog.code.length
  code_le : prog.code.length ≤ 6144
  consts_lt : prog.consts.length < 2 ^ 32
  state_lt : prog.stateKind.length < 2 ^ 32
  params_le : prog.paramDefaults.length ≤ 65535
  stateFloats_le : prog.stateFloats.toNat ≤ 8192
  offs : prog.stateOff.length = prog.stateKind.length
  caps : prog.stateCap.length = prog.stateKind.length
  auxs : prog.stateAux.length = prog.stateKind.length
  names : prog.paramNames.length = prog.paramDefaults.length
  name_lt : ∀ name ∈ prog.paramNames, name.length < 2 ^ 16
  slot : ∀ i < prog.stateKind.length, ∃ size, SlotFits prog i size
  apart : ∀ i < prog.stateKind.length, ∀ j < prog.stateKind.length, i ≠ j → ∀ x,
    Occupies prog i x → ¬Occupies prog j x
  consts_finite : ∀ x ∈ prog.consts, isfinite x = true
  defaults_finite : ∀ x ∈ prog.paramDefaults, isfinite x = true
  instr : ∀ i ins, prog.code[i]? = some ins → ∃ op, InstrOk prog op ins (depthBefore prog i) ∧
    (op = .halt ↔ i + 1 = prog.code.length)
  final : depthBefore prog prog.code.length = 0
  max : IsGreatest (depthBefore prog '' Set.Iic prog.code.length) (prog.maxStack.toNat : ℤ)

/-! ## The slots of the loader and of the grammar -/

/-- `state_size` computes what a slot takes. -/
theorem slotTakes_of_stateSize {kind cap : Int32} {size : UInt32}
    (h : stateSize kind cap = .ok size) : SlotTakes kind cap size.toNat := by
  rcases eq_or_ne kind skRing with rfl | hring
  · obtain ⟨hpos, hle⟩ := stateSize_cap h (.inl rfl)
    have hsize : size.toNat = 1 + cap.toInt.toNat := by
      have hval := stateSize_ring h
      omega
    rw [hsize]
    exact .ring hpos hle
  · have hrest := (failIf_bind_eq_ok.1 h).2
    simp only [if_neg hring] at hrest
    split at hrest
    · rename_i hkind
      cases hrest
      rw [hkind]
      exact .ema cap
    split at hrest
    · rename_i hkind
      cases hrest
      rw [hkind]
      exact .wilder1 cap
    split at hrest
    · rename_i hkind
      cases hrest
      rw [hkind]
      exact .wilder2 cap
    split at hrest
    · rename_i hkind
      cases hrest
      rw [hkind]
      exact .prev2 cap
    split at hrest
    · rename_i hkind
      cases hrest
      obtain ⟨hpos, hle⟩ := stateSize_cap h (.inr hkind)
      rw [hkind]
      exact .raw hpos hle
    · cases hrest

/-- The capacity check of `state_size` lets a documented capacity through. -/
theorem cap_ok {cap : Int32} (hpos : 0 < cap.toInt) (hle : cap.toInt ≤ 4096) :
    ¬(cap ≤ 0 ∨ cap > vmMaxWindow) := by
  rw [not_or, Int32.not_le, Int32.lt_iff_toInt_lt, gt_iff_lt, Int32.not_lt, Int32.le_iff_toInt_le]
  exact ⟨hpos, hle⟩

theorem stateSize_of_slotTakes {kind cap : Int32} {n : ℕ} (h : SlotTakes kind cap n) :
    ∃ size, stateSize kind cap = .ok size ∧ size.toNat = n := by
  cases h with
  | ema | wilder1 | wilder2 | prev2 => exact ⟨_, rfl, rfl⟩
  | ring hpos hle =>
    have hsize : stateSize skRing cap = .ok (1 + cap.toUInt32) :=
      failIf_bind_eq_ok.2 ⟨fun hbad => cap_ok hpos hle hbad.2, rfl⟩
    have hval := stateSize_ring hsize
    exact ⟨_, hsize, by omega⟩
  | raw hpos hle =>
    exact ⟨0, failIf_bind_eq_ok.2 ⟨fun hbad => cap_ok hpos hle hbad.2, rfl⟩, rfl⟩

variable {prog : Program}

/-- The offset of a slot that is not before the block. -/
theorem slotOff_eq {i : ℕ} (h : 0 ≤ (prog.stateOff.getD i 0).toInt) :
    (slotOff prog i : ℤ) = (prog.stateOff.getD i 0).toInt :=
  toNat_toUInt32_of_nonneg (Int32.le_iff_toInt_le.2 h)

/-- The loader's checks of a slot are those of the grammar. -/
theorem slotOk_iff {i : ℕ} : SlotOk prog i ↔ ∃ size, SlotFits prog i size := by
  constructor
  · rintro ⟨⟨size, hsize⟩, hoff, hfits, hseries⟩
    have hoff : 0 ≤ (prog.stateOff.getD i 0).toInt := Int32.le_iff_toInt_le.1 hoff
    have hval := slotOff_eq hoff
    rw [slotSize_eq hsize] at hfits
    exact ⟨size.toNat, slotTakes_of_stateSize hsize, hoff, by omega, hseries⟩
  · rintro ⟨n, htakes, hoff, hfits, hseries⟩
    obtain ⟨size, hsize, rfl⟩ := stateSize_of_slotTakes htakes
    have hval := slotOff_eq hoff
    refine ⟨⟨size, hsize⟩, Int32.le_iff_toInt_le.2 hoff, ?_, hseries⟩
    rw [slotSize_eq hsize]
    omega

theorem occupies_iff {i x : ℕ} (h : SlotOk prog i) : Occupies prog i x ↔ InSlot prog i x := by
  obtain ⟨⟨size, hsize⟩, hoff, -, -⟩ := h
  have hval := slotOff_eq (Int32.le_iff_toInt_le.1 hoff)
  have hslot := slotSize_eq hsize
  rw [InSlot, hslot]
  constructor
  · rintro ⟨n, htakes, hle, hlt⟩
    obtain ⟨size', hsize', rfl⟩ := stateSize_of_slotTakes htakes
    obtain rfl := Except.ok.inj (hsize.symm.trans hsize')
    omega
  · rintro ⟨hle, hlt⟩
    exact ⟨size.toNat, slotTakes_of_stateSize hsize, by omega, by omega⟩

/-! ## The loader and the grammar -/

/-- The validation and the limits are the grammar, for arrays as long as announced. -/
theorem wellFormed_iff {c : Counts} (hc : Sized c prog) (hn : Named c prog) :
    WellFormed prog ↔ checkHeader c prog = .ok () ∧ validate c prog = .ok () := by
  have hcode : c.nCode ≤ vmMaxCode ↔ c.nCode.toNat ≤ 6144 := UInt32.le_iff_toNat_le
  have hcode0 : c.nCode ≠ 0 ↔ 0 < prog.code.length := by
    rw [hc.code, Nat.pos_iff_ne_zero, ne_eq, ne_eq, ← UInt32.toNat_inj]
    rfl
  rw [checkHeader_eq_ok]
  constructor
  · intro h
    have hfloats : prog.stateFloats ≤ vmMaxStateFloats := UInt32.le_iff_toNat_le.2 h.stateFloats_le
    have hok : ∀ i < prog.stateKind.length, SlotOk prog i := fun i hi => slotOk_iff.2 (h.slot i hi)
    have hcodeOk : CodeOk prog 0 0 prog.code := by
      intro k ins hk
      obtain ⟨op, hins, hhalt⟩ := h.instr k ins hk
      rw [Int.zero_add]
      exact ⟨op, hins, fun hop => by rw [← hhalt.1 hop]; omega⟩
    have hlast : Op.ofCode (opCode (prog.code.getLastD 0)) = some .halt := by
      have hend : prog.code.length - 1 + 1 = prog.code.length := Nat.sub_add_cancel h.code_pos
      have hlt : prog.code.length - 1 < prog.code.length := by omega
      have hget := List.getElem?_eq_getElem hlt
      obtain ⟨op, hins, hhalt⟩ := h.instr _ _ hget
      rw [hhalt.2 hend] at hins
      rw [List.getLastD_eq_getLast?, List.getLast?_eq_getElem?, hget]
      exact hins.opcode
    have hmax : (prog.maxStack.toNat : ℤ) = peak 0 0 prog.code := by
      obtain ⟨hmem, hle⟩ := isGreatest_peak (le_refl (0 : ℤ)) prog.code
      apply le_antisymm
      · obtain ⟨k, hk, hdepth⟩ := h.max.1
        rw [← hdepth]
        exact hle (.inr ⟨k, hk, Int.zero_add _⟩)
      · rcases hmem with hzero | ⟨k, hk, hpeak⟩
        · rw [hzero]
          exact Int.natCast_nonneg _
        · rw [← hpeak]
          exact h.max.2 ⟨k, hk, (Int.zero_add _).symm⟩
    have hv : Validated prog := by
      refine ⟨fun k hk => ⟨hok k hk, fun j hj x hx hkx => ?_⟩, h.consts_finite, h.defaults_finite,
        hlast, hcodeOk, h.final, ?_⟩
      · have hjk := h.apart j (hj.trans hk) k hk (Nat.ne_of_lt hj) x
        exact hjk ((occupies_iff (hok j (hj.trans hk))).2 hx) ((occupies_iff (hok k hk)).2 hkx)
      · have hlt := prog.maxStack.toNat_lt
        apply UInt32.toNat_inj.mp
        rw [← hmax, UInt32.ofInt, UInt32.toNat_ofNat']
        omega
    refine ⟨⟨?_, hcode0.2 h.code_pos, ?_, hfloats, ?_⟩, (validate_eq_ok hc hfloats).2 hv⟩
    · have h32 := hcodeOk.peak_le
      have hstack : prog.maxStack.toNat ≤ 32 := by omega
      exact UInt32.le_iff_toNat_le.2 hstack
    · exact hcode.2 (hc.code ▸ h.code_le)
    · exact UInt32.le_iff_toNat_le.2 (hc.paramDefaults ▸ h.params_le)
  · rintro ⟨⟨-, hne, hle, hfloats, hparams⟩, hvalid⟩
    have hv := (validate_eq_ok hc hfloats).1 hvalid
    have hok : ∀ i < prog.stateKind.length, SlotOk prog i := fun i hi => (hv.slots i hi).1
    refine ⟨hcode0.1 hne, ?_, ?_, ?_, ?_, UInt32.le_iff_toNat_le.1 hfloats, ?_, ?_, ?_, ?_, hn.short,
      fun i hi => slotOk_iff.1 (hok i hi), fun i hi j hj hij x hxi hxj => ?_, hv.consts, hv.defaults,
      fun i ins hi => hv.instr hi, hv.final, hv.isGreatest⟩
    · rw [hc.code]
      exact hcode.1 hle
    · rw [hc.consts]
      exact c.nConsts.toNat_lt
    · rw [hc.stateKind]
      exact c.nState.toNat_lt
    · rw [hc.paramDefaults]
      exact UInt32.le_iff_toNat_le.1 hparams
    · rw [hc.stateOff, hc.stateKind]
    · rw [hc.stateCap, hc.stateKind]
    · rw [hc.stateAux, hc.stateKind]
    · rw [hn.count, hc.paramDefaults]
    · exact hv.apart hi hj hij ((occupies_iff (hok i hi)).1 hxi) ((occupies_iff (hok j hj)).1 hxj)

/-- The counts of the header are the lengths of the arrays. -/
theorem Sized.counts_eq {c : Counts} (hc : Sized c prog) : prog.counts = c := by
  rw [counts, hc.code, hc.consts, hc.stateKind, hc.paramDefaults]
  simp

theorem WellFormed.sized (h : WellFormed prog) : Sized prog.counts prog := by
  have hcode := h.code_le
  have hparams := h.params_le
  have fits : ∀ n : ℕ, n < 2 ^ 32 → n = (UInt32.ofNat n).toNat := by
    intro n hn
    rw [UInt32.toNat_ofNat', Nat.mod_eq_of_lt hn]
  exact ⟨fits _ (by omega), fits _ h.consts_lt, fits _ h.state_lt, h.offs.trans (fits _ h.state_lt),
    h.caps.trans (fits _ h.state_lt), h.auxs.trans (fits _ h.state_lt), fits _ (by omega)⟩

/-- `parse` accepts exactly the encodings of the well-formed programs: it returns a program on
the bytes the program is written as, and never looks past the end. -/
theorem parse_iff_wellFormed (bytes : List UInt8) :
    (∀ prog, parse bytes = .ok prog ↔ WellFormed prog ∧ encode prog = bytes) ∧
      parse bytes ≠ .error Reader.overrun := by
  refine ⟨fun prog => ?_, fun h => not_thrown_overrun (throws_parse bytes _ h)⟩
  rw [parse_eq_ok]
  constructor
  · rintro ⟨c, hc, hn, rfl, hlimits, hvalid⟩
    refine ⟨(wellFormed_iff hc hn).2 ⟨hlimits, hvalid⟩, ?_⟩
    rw [encode, hc.counts_eq]
  · rintro ⟨h, rfl⟩
    have hc := h.sized
    have hn : Named prog.counts prog := ⟨h.names.trans hc.paramDefaults, h.name_lt⟩
    obtain ⟨hlimits, hvalid⟩ := (wellFormed_iff hc hn).1 h
    exact ⟨prog.counts, hc, hn, rfl, hlimits, hvalid⟩

/-- The smallest program. -/
example : parse (encode { code := [0x31000000] }) = .ok { code := [0x31000000] } := by
  decide +kernel

end Program

end ItchOrderbook
