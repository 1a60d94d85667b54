import ItchOrderbook.Gui.ItchWriter
import Mathlib

/-!
# NASDAQ ITCH 5.0 ingest (`gui/data/nasdaq_itch.py`)

`_convert` reads a native body, whose header has a 6-byte timestamp, and emits the message again
with the builders of `itch_writer.py`. `convert_file` does that for every message of a file.
-/

namespace ItchOrderbook.NasdaqItch

open BigEndian ItchWriter

/-- `_HDR_LEN`. -/
def hdrLen : ℕ := 11

/-! ## Reading fields

A reader that raises `struct.error` or `IndexError` is `none`. -/

/-- `struct.unpack_from` of one big-endian integer of `w` bytes. -/
def unpackFrom (w : ℕ) (b : List UInt8) (off : ℕ) : Option ℕ :=
  if off + w ≤ b.length then some (ofBytes ((b.drop off).take w)) else none

/-- `_read_u16`. -/
def readU16 (b : List UInt8) (off : ℕ) : Option ℕ := unpackFrom 2 b off

/-- `_read_u32`. -/
def readU32 (b : List UInt8) (off : ℕ) : Option ℕ := unpackFrom 4 b off

/-- `_read_u64`. -/
def readU64 (b : List UInt8) (off : ℕ) : Option ℕ := unpackFrom 8 b off

/-- `_read_ts48`. -/
def readTs48 (b : List UInt8) (off : ℕ) : Option ℕ := do
  let hi ← unpackFrom 2 b off
  let lo ← unpackFrom 4 b (off + 2)
  return (hi <<< 32) ||| lo

/-- `chr`. -/
def chr (b : UInt8) : Char := Char.ofNat b.toNat

/-- `chr(body[p])`. -/
def readChar (b : List UInt8) (p : ℕ) : Option Char := b[p]?.map chr

/-- `.decode('ascii', errors='replace')`. -/
def decodeAscii (b : List UInt8) : List Char :=
  b.map fun x => if x.toNat < 128 then chr x else '\uFFFD'

/-- `str.isspace`, on the characters that `decodeAscii` gives. -/
def isSpace (c : Char) : Bool := decide (9 ≤ c.toNat ∧ c.toNat ≤ 13 ∨ 28 ≤ c.toNat ∧ c.toNat ≤ 32)

/-- `str.strip`. -/
def strip (s : List Char) : List Char := (s.dropWhile isSpace).rdropWhile isSpace

/-- `_read_stock`. -/
def readStock (b : List UInt8) (off : ℕ) : List Char := strip (decodeAscii ((b.drop off).take 8))

/-! ## One message -/

/-- The `try` block around the readers and the call of a builder: `struct.error` and `IndexError`
give `None`, any other exception goes on. -/
def attempt : Option (Except PyError (List UInt8)) → Except PyError (Option (List UInt8))
  | none => .ok none
  | some (.ok out) => .ok (some out)
  | some (.error .structError) => .ok none
  | some (.error e) => .error e

/-- `_convert`. -/
def convert (body : List UInt8) (ts48 locate tracking tickScale : ℤ) :
    Except PyError (Option (List UInt8)) :=
  match body.head? with
  | none => .ok none
  | some typeByte =>
    let mtype := chr typeByte
    let p := 11
    let scale := max 1 tickScale
    if mtype = 'A' then attempt do
      let oref ← readU64 body p
      let p := p + 8
      let side ← readChar body p
      let p := p + 1
      let shares ← readU32 body p
      let p := p + 4
      let stock := readStock body p
      let p := p + 8
      let price := ((← readU32 body p : ℕ) : ℤ) / scale
      return addOrder locate tracking ts48 oref [side] shares stock price
    else if mtype = 'F' then attempt do
      let oref ← readU64 body p
      let p := p + 8
      let side ← readChar body p
      let p := p + 1
      let shares ← readU32 body p
      let p := p + 4
      let stock := readStock body p
      let p := p + 8
      let price := ((← readU32 body p : ℕ) : ℤ) / scale
      let p := p + 4
      let mpid := decodeAscii ((body.drop p).take 4)
      return addOrderMpid locate tracking ts48 oref [side] shares stock price mpid
    else if mtype = 'E' then attempt do
      let oref ← readU64 body p
      let p := p + 8
      let shares ← readU32 body p
      let p := p + 4
      let matchNumber ← readU64 body p
      return orderExecuted locate tracking ts48 oref shares matchNumber
    else if mtype = 'C' then attempt do
      let oref ← readU64 body p
      let p := p + 8
      let shares ← readU32 body p
      let p := p + 4
      let matchNumber ← readU64 body p
      let p := p + 8
      let prtbl := decide ((← readChar body p) = 'Y')
      let p := p + 1
      let price := ((← readU32 body p : ℕ) : ℤ) / scale
      return orderExecutedPrice locate tracking ts48 oref shares matchNumber prtbl price
    else if mtype = 'X' then attempt do
      let oref ← readU64 body p
      let p := p + 8
      let shares ← readU32 body p
      return orderCancel locate tracking ts48 oref shares
    else if mtype = 'D' then attempt do
      let oref ← readU64 body p
      return orderDelete locate tracking ts48 oref
    else if mtype = 'U' then attempt do
      let orig ← readU64 body p
      let p := p + 8
      let new ← readU64 body p
      let p := p + 8
      let shares ← readU32 body p
      let p := p + 4
      let price := ((← readU32 body p : ℕ) : ℤ) / scale
      return orderReplace locate tracking ts48 orig new shares price
    else if mtype = 'P' then attempt do
      let oref ← readU64 body p
      let p := p + 8
      let side ← readChar body p
      let p := p + 1
      let shares ← readU32 body p
      let p := p + 4
      let stock := readStock body p
      let p := p + 8
      let price := ((← readU32 body p : ℕ) : ℤ) / scale
      let p := p + 4
      let matchNumber ← readU64 body p
      return trade locate tracking ts48 oref [side] shares stock price matchNumber
    else if mtype = 'S' then attempt do
      let evt ← readChar body p
      return systemEvent locate tracking ts48 [evt]
    else .ok none

/-! ## A file -/

/-- The arguments of `convert_file` that decide what is converted. -/
structure ConvertOptions where
  locateFilter : Option (List ℕ) := none
  maxMsgs : ℤ := 0
  tickScale : ℤ := 1
  afterNs : ℤ := 0

/-- The counts that `convert_file` returns. -/
structure ConvertStats where
  inputMsgs : ℕ := 0
  outputMsgs : ℕ := 0
  skipped : ℕ := 0
  bytesOut : ℕ := 0
  deriving DecidableEq, Repr

/-- What happens to one message of a file: `none` skips it. The header fields are there as the
body is not shorter than a header. -/
def convertBody (opt : ConvertOptions) (body : List UInt8) :
    Except PyError (Option (List UInt8)) :=
  if body.length < hdrLen then .ok none
  else
    match readU16 body 1, readU16 body 3, readTs48 body 5 with
    | some locate, some tracking, some ts48 =>
      if opt.locateFilter.any (!·.contains locate) then .ok none
      else if opt.afterNs ≠ 0 ∧ ts48 < opt.afterNs then .ok none
      else convert body ts48 locate tracking opt.tickScale
    | _, _, _ => .error .structError

/-- The loop of `convert_file` over what is left of the file. -/
def convertFrom (opt : ConvertOptions) (data : List UInt8) (st : ConvertStats)
    (out : List UInt8) : Except PyError (ConvertStats × List UInt8) :=
  if data.length < 2 then .ok (st, out)
  else
    let bodyLen := ofBytes (data.take 2)
    if bodyLen = 0 ∨ data.length < 2 + bodyLen then .ok (st, out)
    else
      let rest := data.drop (2 + bodyLen)
      let st := { st with inputMsgs := st.inputMsgs + 1 }
      match convertBody opt ((data.drop 2).take bodyLen) with
      | .error e => .error e
      | .ok none => convertFrom opt rest { st with skipped := st.skipped + 1 } out
      | .ok (some proj) =>
        let st := { st with outputMsgs := st.outputMsgs + 1 }
        if opt.maxMsgs ≠ 0 ∧ opt.maxMsgs ≤ st.outputMsgs then .ok (st, out ++ proj)
        else convertFrom opt rest st (out ++ proj)
termination_by data.length
decreasing_by
  all_goals
    rw [List.length_drop]
    omega

/-- `convert_file`: the counts, and the bytes it writes. -/
def convertFile (opt : ConvertOptions) (data : List UInt8) :
    Except PyError (ConvertStats × List UInt8) := do
  let (st, out) ← convertFrom opt data {} []
  return ({ st with bytesOut := out.length }, out)

end ItchOrderbook.NasdaqItch
