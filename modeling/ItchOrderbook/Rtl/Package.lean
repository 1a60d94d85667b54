import ItchOrderbook.Lib.BigEndian

/-!
# Shared types of the hardware (`rtl/ob_pkg.sv`)

Vectors of 8, 16, 32 and 64 bits are the machine integers, any other width is a `BitVec`. A
registered process is a function from the state before a clock edge and the inputs of that cycle
to the state after it; an `assign` is a function of the state.
-/

namespace ItchOrderbook.Rtl

/-! ## Sizing -/

/-- The two configurations, `ifdef SYNTHESIS`. -/
inductive Build where
  | simulation
  | synthesis
  deriving DecidableEq, Repr

/-- `HASH_W`. -/
def Build.hashW : Build → ℕ
  | .simulation => 16
  | .synthesis => 12

/-- `LEVEL_AW`. -/
def Build.levelAw : Build → ℕ
  | .simulation => 20
  | .synthesis => 10

/-- `PRICE_LEVELS`. -/
def Build.priceLevels (c : Build) : ℕ := 2 ^ c.levelAw

/-- `BAND_AUTO_INIT`. -/
def Build.bandAutoInit : Build → Bool
  | .simulation => false
  | .synthesis => true

/-- `MAX_PROBE`. -/
def maxProbe : ℕ := 64

/-- `MSG_MAX_BYTES`. -/
def msgMaxBytes : ℕ := 48

/-- `WORD_BYTES`. -/
def wordBytes : ℕ := 16

/-! ## Byte streams -/

/-- One beat of a byte stream: `WORD_BYTES` lanes, lane 0 first, of which the first `nbytes` are
valid. -/
structure Beat where
  data : Vector UInt8 16
  nbytes : BitVec 5
  deriving DecidableEq, Inhabited

/-- The valid bytes of a beat. -/
def Beat.bytes (b : Beat) : List UInt8 := b.data.toList.take b.nbytes.toNat

/-- A beat carries 1 to 16 bytes. -/
def Beat.Ok (b : Beat) : Prop := 1 ≤ b.nbytes.toNat ∧ b.nbytes.toNat ≤ 16

instance (b : Beat) : Decidable b.Ok := inferInstanceAs (Decidable (_ ∧ _))

theorem Beat.Ok.bytes_length {b : Beat} (h : b.Ok) : b.bytes.length = b.nbytes.toNat := by
  rw [Beat.bytes, List.length_take, Vector.length_toList, Nat.min_eq_left h.2]

/-! ## Message type codes -/

def tAdd : UInt8 := 'A'.toUInt8
def tAddMpid : UInt8 := 'F'.toUInt8
def tExec : UInt8 := 'E'.toUInt8
def tExecPr : UInt8 := 'C'.toUInt8
def tCancel : UInt8 := 'X'.toUInt8
def tDelete : UInt8 := 'D'.toUInt8
def tReplace : UInt8 := 'U'.toUInt8
def tTrade : UInt8 := 'P'.toUInt8
def tSystem : UInt8 := 'S'.toUInt8

/-- `SIDE_BUY`. -/
def sideBuy : UInt8 := 'B'.toUInt8

/-- `body_len`: the body length of a type, zero for an unsupported one. -/
def bodyLen (t : UInt8) : ℕ :=
  if t = tAdd then 38
  else if t = tAddMpid then 42
  else if t = tExec then 33
  else if t = tExecPr then 38
  else if t = tCancel then 25
  else if t = tDelete then 21
  else if t = tReplace then 37
  else if t = tTrade then 46
  else if t = tSystem then 14
  else 0

/-! ## Decoded message -/

/-- `decoded_t`. -/
structure Decoded where
  mtype : UInt8 := 0
  isBid : Bool := false
  printable : Bool := false
  stockLocate : UInt16 := 0
  price : UInt32 := 0
  shares : UInt32 := 0
  orderRef : UInt64 := 0
  newOrderRef : UInt64 := 0
  timestamp : UInt64 := 0
  deriving DecidableEq, Repr

/-! ## Order-reference hash -/

/-- `hash_ref`: the top `HASH_W` bits of a multiplicative hash modulo `2 ^ 25`. -/
def hashRef (c : Build) (r : UInt64) : BitVec c.hashW :=
  let x : BitVec 32 := r.toBitVec.extractLsb' 0 32 ^^^ r.toBitVec.extractLsb' 32 32
  let y : BitVec 25 := x.extractLsb' 0 25 ^^^ (x.extractLsb' 25 7 ++ 0#18)
  let p : BitVec 25 := y * 0x13C6EF5#25
  (p >>> (25 - c.hashW)).setWidth c.hashW

end ItchOrderbook.Rtl
