import Mathlib.Data.List.Basic
import Mathlib.Data.List.Induction
import Mathlib.Tactic.Linarith
import Mathlib.Tactic.Ring

/-!
# Big-endian integers in byte strings

`ofBytes` reads a byte string as a big-endian number, `toBytes w n` writes the low `w` bytes of
a number. The two are inverse to each other, and the shift-and-or loaders of a program are
instances of `ofBytes`.
-/

namespace BigEndian

/-- The number a byte string stands for, most significant byte first. -/
def ofBytes (bs : List UInt8) : ℕ := bs.foldl (fun acc b => acc * 256 + b.toNat) 0

/-- The low `w` bytes of a number, most significant byte first. -/
def toBytes : ℕ → ℕ → List UInt8
  | 0, _ => []
  | w + 1, n => UInt8.ofNat (n / 256 ^ w) :: toBytes w n

@[simp] theorem toBytes_length (w n : ℕ) : (toBytes w n).length = w := by
  induction w with
  | zero => rfl
  | succ w ih => simp [toBytes, ih]

@[simp] theorem ofBytes_nil : ofBytes [] = 0 := rfl

/-- What has been read weighs in with the width of what follows. -/
theorem foldl_eq (bs : List UInt8) (acc : ℕ) :
    bs.foldl (fun acc b => acc * 256 + b.toNat) acc = acc * 256 ^ bs.length + ofBytes bs := by
  induction bs generalizing acc with
  | nil => simp
  | cons b bs ih =>
    show bs.foldl _ (acc * 256 + b.toNat) = _ + bs.foldl _ (0 * 256 + b.toNat)
    rw [ih, ih (0 * 256 + b.toNat), List.length_cons, pow_succ]
    ring

theorem ofBytes_cons (b : UInt8) (bs : List UInt8) :
    ofBytes (b :: bs) = b.toNat * 256 ^ bs.length + ofBytes bs := by
  show bs.foldl _ (0 * 256 + b.toNat) = _
  rw [foldl_eq]
  ring

/-- A string of `n` bytes is a number below `256 ^ n`. -/
theorem ofBytes_lt (bs : List UInt8) : ofBytes bs < 256 ^ bs.length := by
  induction bs with
  | nil => simp
  | cons b bs ih =>
    have hb : b.toNat + 1 ≤ 256 := b.toNat_lt
    have hmul : (b.toNat + 1) * 256 ^ bs.length ≤ 256 * 256 ^ bs.length :=
      Nat.mul_le_mul_right _ hb
    rw [ofBytes_cons, List.length_cons, pow_succ]
    linarith

/-- Higher bytes do not matter. -/
theorem toBytes_add_mul (w n m : ℕ) : toBytes w (n + m * 256 ^ w) = toBytes w n := by
  induction w generalizing m with
  | zero => rfl
  | succ w ih =>
    have hpow : m * 256 ^ (w + 1) = m * 256 * 256 ^ w := by ring
    have hdiv : (n + m * 256 * 256 ^ w) / 256 ^ w = n / 256 ^ w + m * 256 :=
      Nat.add_mul_div_right _ _ (Nat.pow_pos (by decide))
    have hbyte : UInt8.ofNat (n / 256 ^ w + m * 256) = UInt8.ofNat (n / 256 ^ w) := by
      apply UInt8.toNat_inj.mp
      rw [UInt8.toNat_ofNat', UInt8.toNat_ofNat']
      exact Nat.add_mul_mod_self_right _ _ _
    rw [hpow, toBytes, toBytes, hdiv, hbyte, ih]

/-- Writing what was read gives the bytes back. -/
theorem toBytes_ofBytes (bs : List UInt8) : toBytes bs.length (ofBytes bs) = bs := by
  induction bs with
  | nil => rfl
  | cons b bs ih =>
    have hlt := ofBytes_lt bs
    have hdiv : (ofBytes bs + b.toNat * 256 ^ bs.length) / 256 ^ bs.length = b.toNat := by
      rw [Nat.add_mul_div_right _ _ (Nat.pow_pos (by decide)), Nat.div_eq_of_lt hlt, Nat.zero_add]
    rw [List.length_cons, ofBytes_cons, Nat.add_comm (b.toNat * _), toBytes, hdiv, toBytes_add_mul, ih,
      UInt8.ofNat_toNat]

/-- Reading back what was written keeps the low bytes. -/
theorem ofBytes_toBytes (w n : ℕ) : ofBytes (toBytes w n) = n % 256 ^ w := by
  induction w with
  | zero => simp [toBytes, Nat.mod_one]
  | succ w ih =>
    have hb : (UInt8.ofNat (n / 256 ^ w)).toNat = n / 256 ^ w % 256 := UInt8.toNat_ofNat'
    rw [toBytes, ofBytes_cons, ih, toBytes_length, hb, pow_succ, Nat.mod_mul]
    ring

theorem ofBytes_toBytes_of_lt {w n : ℕ} (h : n < 256 ^ w) : ofBytes (toBytes w n) = n := by
  rw [ofBytes_toBytes, Nat.mod_eq_of_lt h]

/-- Two strings of bytes behind each other. -/
theorem ofBytes_append (as bs : List UInt8) :
    ofBytes (as ++ bs) = ofBytes as * 256 ^ bs.length + ofBytes bs := by
  rw [ofBytes, List.foldl_append, foldl_eq]
  rfl

/-! ## Words put together by shifts -/

/-- `{a, b}`. -/
def word16 (a b : UInt8) : UInt16 := a.toUInt16 <<< 8 ||| b.toUInt16

/-- `{a, b, c, d}`. -/
def word32 (a b c d : UInt8) : UInt32 :=
  a.toUInt32 <<< 24 ||| b.toUInt32 <<< 16 ||| c.toUInt32 <<< 8 ||| d.toUInt32

/-- `{a, b, …, h}`. -/
def word64 (a b c d e f g h : UInt8) : UInt64 :=
  a.toUInt64 <<< 56 ||| b.toUInt64 <<< 48 ||| c.toUInt64 <<< 40 ||| d.toUInt64 <<< 32
    ||| e.toUInt64 <<< 24 ||| f.toUInt64 <<< 16 ||| g.toUInt64 <<< 8 ||| h.toUInt64

/-- A byte that fills the zeros a shift left behind is added. -/
theorem or_shift {n i j x : ℕ} (hji : i = j + 8) (hx : x < 256) :
    n <<< i ||| x <<< j = (n * 256 + x) <<< j := by
  subst hji
  have hlt : x <<< j < 2 ^ (j + 8) := by
    rw [Nat.shiftLeft_eq, pow_add, mul_comm]
    exact Nat.mul_lt_mul_of_pos_left hx (Nat.two_pow_pos j)
  rw [← Nat.shiftLeft_add_eq_or_of_lt hlt]
  simp only [Nat.shiftLeft_eq, pow_add]
  ring

/-- A byte shifted inside a word loses no bit. -/
theorem mod_shift {x k w : ℕ} (hx : x < 256) (hk : k + 8 ≤ w) : x <<< k % 2 ^ w = x <<< k := by
  apply Nat.mod_eq_of_lt
  calc x <<< k = x * 2 ^ k := Nat.shiftLeft_eq x k
    _ < 256 * 2 ^ k := Nat.mul_lt_mul_of_pos_right hx (Nat.two_pow_pos k)
    _ = 2 ^ (k + 8) := by rw [pow_add, mul_comm]; rfl
    _ ≤ 2 ^ w := Nat.pow_le_pow_right (by decide) hk

theorem word16_toNat (a b : UInt8) : (word16 a b).toNat = ofBytes [a, b] := by
  have h : (word16 a b).toNat = a.toNat <<< 8 % 2 ^ 16 ||| b.toNat <<< 0 := rfl
  rw [h, mod_shift a.toNat_lt (by decide), or_shift rfl b.toNat_lt]
  simp [ofBytes]

theorem word32_toNat (a b c d : UInt8) : (word32 a b c d).toNat = ofBytes [a, b, c, d] := by
  have h : (word32 a b c d).toNat = a.toNat <<< 24 % 2 ^ 32 ||| b.toNat <<< 16 % 2 ^ 32
      ||| c.toNat <<< 8 % 2 ^ 32 ||| d.toNat <<< 0 := rfl
  rw [h, mod_shift a.toNat_lt (by decide), mod_shift b.toNat_lt (by decide),
    mod_shift c.toNat_lt (by decide), or_shift rfl b.toNat_lt, or_shift rfl c.toNat_lt,
    or_shift rfl d.toNat_lt]
  simp [ofBytes]

theorem word64_toNat (a b c d e f g h : UInt8) :
    (word64 a b c d e f g h).toNat = ofBytes [a, b, c, d, e, f, g, h] := by
  have hw : (word64 a b c d e f g h).toNat = a.toNat <<< 56 % 2 ^ 64 ||| b.toNat <<< 48 % 2 ^ 64
      ||| c.toNat <<< 40 % 2 ^ 64 ||| d.toNat <<< 32 % 2 ^ 64 ||| e.toNat <<< 24 % 2 ^ 64
      ||| f.toNat <<< 16 % 2 ^ 64 ||| g.toNat <<< 8 % 2 ^ 64 ||| h.toNat <<< 0 := rfl
  rw [hw, mod_shift a.toNat_lt (by decide), mod_shift b.toNat_lt (by decide),
    mod_shift c.toNat_lt (by decide), mod_shift d.toNat_lt (by decide),
    mod_shift e.toNat_lt (by decide), mod_shift f.toNat_lt (by decide),
    mod_shift g.toNat_lt (by decide), or_shift rfl b.toNat_lt, or_shift rfl c.toNat_lt,
    or_shift rfl d.toNat_lt, or_shift rfl e.toNat_lt, or_shift rfl f.toNat_lt,
    or_shift rfl g.toNat_lt, or_shift rfl h.toNat_lt]
  simp [ofBytes]

/-! ## Words shifted in a byte at a time -/

theorem ofBytes_concat (bs : List UInt8) (b : UInt8) :
    ofBytes (bs ++ [b]) = ofBytes bs * 256 + b.toNat := by
  rw [ofBytes, List.foldl_append]
  rfl

/-- Shifting a byte in behind fewer than eight appends it. -/
theorem push64 {v : UInt64} {bs : List UInt8} (hv : v.toNat = ofBytes bs) (hlen : bs.length < 8)
    (b : UInt8) : (v <<< 8 ||| b.toUInt64).toNat = ofBytes (bs ++ [b]) := by
  have hlt : v.toNat <<< 8 < 2 ^ 64 := by
    have h := hv ▸ ofBytes_lt bs
    have hpow : 256 ^ bs.length ≤ 256 ^ 7 := Nat.pow_le_pow_right (by decide) (by omega)
    rw [Nat.shiftLeft_eq]
    omega
  have h : (v <<< 8 ||| b.toUInt64).toNat = v.toNat <<< 8 % 2 ^ 64 ||| b.toNat <<< 0 := rfl
  rw [h, Nat.mod_eq_of_lt hlt, or_shift rfl b.toNat_lt, ofBytes_concat, hv]
  rfl

/-- The loop `v = (v << 8) | b` over at most eight bytes. -/
theorem foldl_push64 {bs : List UInt8} (hlen : bs.length ≤ 8) :
    (bs.foldl (fun (v : UInt64) b => v <<< 8 ||| b.toUInt64) 0).toNat = ofBytes bs := by
  induction bs using List.reverseRecOn with
  | nil => rfl
  | append_singleton bs b ih =>
    rw [List.length_append, List.length_singleton] at hlen
    rw [List.foldl_append]
    exact push64 (ih (by omega)) (by omega) b

end BigEndian
