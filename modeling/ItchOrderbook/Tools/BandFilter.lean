import Mathlib.Data.List.Sort
import ItchOrderbook.Gui.ItchWriter
import ItchOrderbook.Lib.Framing

/-!
# Band filter (`tools/band_filter.py`)

Fits a stream into one price window around the median of its Add prices: Adds outside the window
are dropped, Replaces to a price outside are rewritten to a Delete of the original reference, and
everything else passes through. Python integers are unbounded. The mean of two prices, a float in
the source, is exact, and `int` rounds it down.
-/

namespace ItchOrderbook.BandFilter

open BigEndian
open ItchWriter (PyError)

/-- `HDR`. -/
def hdr := 13

/-- `messages`, on what is left of the data. -/
def messages (data : List UInt8) : List (List UInt8) :=
  if 2 ≤ data.length then
    let blen := ofBytes (data.take 2)
    if h : blen = 0 ∨ data.length < 2 + blen then []
    else (data.drop 2).take blen :: messages (data.drop (2 + blen))
  else []
termination_by data.length
decreasing_by simp only [List.length_drop]; omega

/-- `frame`: `struct.pack` refuses a length of more than two bytes. -/
def frame (body : List UInt8) : Except PyError (List UInt8) :=
  if body.length < 65536 then .ok (toBytes 2 body.length ++ body) else .error .structError

/-- `struct.unpack_from(">I", m, off)[0]`. -/
def unpackU32 (m : List UInt8) (off : ℕ) : Except PyError ℕ :=
  if off + 4 ≤ m.length then .ok (ofBytes ((m.drop off).take 4)) else .error .structError

/-- `m[0:1] in (b"A", b"F")`. -/
def isAdd (m : List UInt8) : Bool := m.take 1 = ['A'.toUInt8] ∨ m.take 1 = ['F'.toUInt8]

/-- `int(statistics.median(prices))`. -/
def median (prices : List ℕ) : ℕ :=
  let data := prices.insertionSort (· ≤ ·)
  let n := data.length
  if n % 2 = 1 then data.getD (n / 2) 0
  else (data.getD (n / 2 - 1) 0 + data.getD (n / 2) 0) / 2

/-- The output and `stats`. -/
structure Loop where
  out : List UInt8 := []
  kept : ℕ := 0
  addsDropped : ℕ := 0
  replacesRewritten : ℕ := 0
  deriving DecidableEq, Repr

/-- The end of the loop body: `m` passes through. -/
def keep (st : Loop) (m : List UInt8) : Except PyError Loop := do
  let framed ← frame m
  return { st with out := st.out ++ framed, kept := st.kept + 1 }

/-- The Delete of the original reference: same header, same timestamp. -/
def deleteBody (m : List UInt8) : List UInt8 :=
  'D'.toUInt8 :: ((m.drop 1).take (hdr - 1) ++ (m.drop hdr).take 8)

/-- One turn of the loop, for the window `[lo, hi)`. -/
def step (lo hi : ℤ) (st : Loop) (m : List UInt8) : Except PyError Loop :=
  if isAdd m then do
    let px ← unpackU32 m 34
    if lo ≤ px ∧ px < hi then keep st m
    else return { st with addsDropped := st.addsDropped + 1 }
  else if m.take 1 = ['U'.toUInt8] then do
    let px ← unpackU32 m 33
    if lo ≤ px ∧ px < hi then keep st m
    else
      let framed ← frame (deleteBody m)
      return { st with
        out := st.out ++ framed
        replacesRewritten := st.replacesRewritten + 1
        kept := st.kept + 1 }
  else keep st m

/-- The output file and the fields of the sidecar. -/
structure Filtered where
  center : ℕ
  base : ℤ
  result : Loop
  deriving DecidableEq, Repr

/-- `main` after the arguments: `none` when there are no Adds and nothing is written. -/
def main (window : ℤ) (data : List UInt8) : Except PyError (Option Filtered) := do
  let addPrices ← ((messages data).filter isAdd).mapM (unpackU32 · 34)
  if addPrices = [] then return none
  let center := median addPrices
  let base := max (center - window / 2) 0
  let result ← (messages data).foldlM (step base (base + window)) {}
  return some { center, base, result }

end ItchOrderbook.BandFilter
