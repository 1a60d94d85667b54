import Mathlib

/-!
# Little-endian integers in byte strings

`ofBytes` reads a byte string as a little-endian number, `toBytes w n` writes the low `w` bytes
of a number. The two are inverse to each other.
-/

namespace LittleEndian

/-- The number a byte string stands for, least significant byte first. -/
def ofBytes : List UInt8 → ℕ
  | [] => 0
  | b :: bs => b.toNat + 256 * ofBytes bs

/-- The low `w` bytes of a number, least significant byte first. -/
def toBytes : ℕ → ℕ → List UInt8
  | 0, _ => []
  | w + 1, n => UInt8.ofNat n :: toBytes w (n / 256)

@[simp] theorem toBytes_length (w n : ℕ) : (toBytes w n).length = w := by
  induction w generalizing n with
  | zero => rfl
  | succ w ih => simp [toBytes, ih]

/-- A string of `n` bytes is a number below `256 ^ n`. -/
theorem ofBytes_lt (bs : List UInt8) : ofBytes bs < 256 ^ bs.length := by
  induction bs with
  | nil => simp [ofBytes]
  | cons b bs ih =>
    have hb : b.toNat < 256 := b.toNat_lt
    rw [ofBytes, List.length_cons, Nat.pow_succ]
    omega

/-- Writing what was read gives the bytes back. -/
theorem toBytes_ofBytes (bs : List UInt8) : toBytes bs.length (ofBytes bs) = bs := by
  induction bs with
  | nil => rfl
  | cons b bs ih =>
    have hb : b.toNat < 256 := b.toNat_lt
    have hlow : UInt8.ofNat (b.toNat + 256 * ofBytes bs) = b := by
      apply UInt8.toNat_inj.mp
      rw [UInt8.toNat_ofNat']
      omega
    have hrest : (b.toNat + 256 * ofBytes bs) / 256 = ofBytes bs := by omega
    rw [List.length_cons, ofBytes, toBytes, hlow, hrest, ih]

/-- Reading what was written gives the number back, if it fits. -/
theorem ofBytes_toBytes {w n : ℕ} (h : n < 256 ^ w) : ofBytes (toBytes w n) = n := by
  induction w generalizing n with
  | zero =>
    rw [Nat.pow_zero] at h
    rw [toBytes, ofBytes]
    omega
  | succ w ih =>
    have hdiv : n / 256 < 256 ^ w := by
      rw [Nat.pow_succ] at h
      omega
    rw [toBytes, ofBytes, ih hdiv, UInt8.toNat_ofNat']
    omega

end LittleEndian
