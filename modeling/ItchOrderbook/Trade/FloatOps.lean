import Mathlib.Analysis.SpecialFunctions.Log.Basic
import Mathlib.Data.Rat.Floor

/-!
# The operations on `float`

The trading code computes with `float`; nothing proved about it depends on how results are
rounded. `FloatOps` is the interface it uses, with its conversions and comparisons; the VM needs
two functions more (`FloatMath`). Exact rationals are one instance, on which the model can be
run.
-/

namespace ItchOrderbook

/-- Arithmetic, conversions and comparisons of `float`. -/
class FloatOps (F : Type) extends Add F, Sub F, Mul F, Div F, Neg F where
  /-- The value with these bits in memory. -/
  ofBits : UInt32 → F
  /-- `(float)n`. -/
  ofInt : ℤ → F
  /-- `(int)x`. -/
  toInt : F → ℤ
  /-- `(uint32_t)x`. -/
  toUInt32 : F → UInt32
  /-- `std::floor`. -/
  floor : F → F
  /-- `fabsf`. -/
  fabs : F → F
  /-- `x < y`. -/
  lt : F → F → Bool
  /-- `x <= y`. -/
  le : F → F → Bool
  /-- `x == y`. -/
  eq : F → F → Bool

/-- With the functions of `<cmath>` that the VM calls. -/
class FloatMath (F : Type) extends FloatOps F where
  sqrtf : F → F
  logf : F → F

namespace FloatOps

variable {F : Type} [FloatOps F]

/-- `(float)n` of an unsigned integer. -/
def ofUInt32 (n : UInt32) : F := ofInt n.toNat

/-- `0.0f`. -/
def zero : F := ofBits 0

/-- `1.0f`. -/
def one : F := ofBits 0x3F800000

/-- `b ? 1.0f : 0.0f`. -/
def ofBool (b : Bool) : F := if b then one else zero

end FloatOps

/-- A count kept in a `float` that starts at `0.0f`, after being read, increased and stored `n`
times. -/
def FloatOps.count (F : Type) [FloatOps F] : ℕ → ℤ
  | 0 => toInt (zero : F)
  | n + 1 => toInt (ofInt (count F n + 1) : F)

/-- A count kept in a `float` never becomes negative: it is exact up to `2^24`, where it stops
growing. -/
class CountsBack (F : Type) [FloatOps F] : Prop where
  count_nonneg : ∀ n, 0 ≤ FloatOps.count F n

/-! ## Exact rationals -/

/-- Sign, exponent and fraction of a finite `float`, as the rational they stand for. -/
def ratOfBits (bits : UInt32) : ℚ :=
  let exponent := (bits >>> 23 &&& 0xFF).toNat
  let fraction := (bits &&& 0x7FFFFF).toNat
  let magnitude : ℚ :=
    if exponent = 0 then fraction * 2 ^ (-149 : ℤ)
    else (0x800000 + fraction) * 2 ^ ((exponent : ℤ) - 150)
  if bits >>> 31 = 0 then magnitude else -magnitude

/-- `(int)x` drops the fraction. -/
def ratTrunc (x : ℚ) : ℤ := if 0 ≤ x then ⌊x⌋ else ⌈x⌉

instance : FloatOps ℚ where
  ofBits := ratOfBits
  ofInt n := n
  toInt := ratTrunc
  toUInt32 x := UInt32.ofInt (ratTrunc x)
  floor x := ⌊x⌋
  fabs x := |x|
  lt x y := decide (x < y)
  le x y := decide (x ≤ y)
  eq x y := decide (x = y)

/-- An integer that is stored is read back. -/
theorem ratTrunc_intCast (n : ℤ) : ratTrunc (n : ℚ) = n := by
  unfold ratTrunc
  split
  · exact Int.floor_intCast n
  · exact Int.ceil_intCast n

theorem FloatOps.count_rat (n : ℕ) : FloatOps.count ℚ n = n := by
  induction n with
  | zero => decide +kernel
  | succ n ih =>
    show ratTrunc ((FloatOps.count ℚ n + 1 : ℤ) : ℚ) = _
    rw [ih, ratTrunc_intCast]
    rfl

instance : CountsBack ℚ where
  count_nonneg n := by
    rw [FloatOps.count_rat]
    exact Int.natCast_nonneg n

/-- Square root and logarithm rounded down to a multiple of `2^-24`. -/
noncomputable instance : FloatMath ℚ where
  sqrtf x := ⌊Real.sqrt x * 2 ^ 24⌋ / 2 ^ 24
  logf x := ⌊Real.log x * 2 ^ 24⌋ / 2 ^ 24

end ItchOrderbook
