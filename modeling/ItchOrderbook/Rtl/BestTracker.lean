import ItchOrderbook.Rtl.Package

/-!
# Best-price tracker of one side (`rtl/best_tracker.sv`)

It works in level addresses. An add that beats the best moves it in one cycle; when the best level
empties, the tracker scans towards the inside of the book, one level a cycle, through the engine's
read port.
-/

namespace ItchOrderbook.Rtl

/-- `state_t` of the tracker. -/
inductive TrackerPhase where
  | idle
  | scan
  deriving DecidableEq, Repr

/-- The registers of a tracker. -/
structure BestTrackerState (c : Build) where
  state : TrackerPhase := .idle
  scanIdx : BitVec c.levelAw := 0
  bestValid : Bool := false
  bestAddr : BitVec c.levelAw := 0
  deriving DecidableEq

/-- The inputs of a tracker. -/
structure BestTrackerIn (c : Build) where
  addEn : Bool
  addAddr : BitVec c.levelAw
  emptEn : Bool
  emptAddr : BitVec c.levelAw
  sideNonempty : Bool
  scanRdShares : UInt32

namespace BestTrackerState

variable {c : Build}

/-- `scanning`. -/
def scanning (t : BestTrackerState c) : Bool := t.state == .scan

/-- Whether `a` is a better address than `b`: higher for bids, lower for asks. -/
def better (isBid : Bool) (a b : BitVec c.levelAw) : Bool := if isBid then a > b else a < b

/-- The next address of a scan: down for bids, up for asks. -/
def inward (isBid : Bool) (a : BitVec c.levelAw) : BitVec c.levelAw :=
  if isBid then a - 1 else a + 1

/-- The address a scan gives up at. -/
def boundary (c : Build) (isBid : Bool) : BitVec c.levelAw :=
  if isBid then 0 else BitVec.ofNat _ (c.priceLevels - 1)

/-- An add that beats the best. -/
def addUpdate (t : BestTrackerState c) (isBid : Bool) (i : BestTrackerIn c) :
    BestTrackerState c :=
  if i.addEn ∧ (!t.bestValid ∨ better isBid i.addAddr t.bestAddr) then
    { t with bestAddr := i.addAddr, bestValid := true }
  else t

/-- `rst`. -/
def reset (_ : BestTrackerState c) : BestTrackerState c := {}

/-- One clock edge without `rst`. -/
def step (t : BestTrackerState c) (isBid : Bool) (i : BestTrackerIn c) : BestTrackerState c :=
  match t.state with
  | .idle =>
    let n := t.addUpdate isBid i
    if i.emptEn ∧ t.bestValid ∧ i.emptAddr = t.bestAddr then
      if !i.sideNonempty then { n with bestValid := false }
      else { n with scanIdx := inward isBid t.bestAddr, state := .scan }
    else n
  | .scan =>
    if i.scanRdShares ≠ 0 then
      { t with bestAddr := t.scanIdx, bestValid := true, state := .idle }
    else if t.scanIdx = boundary c isBid then { t with bestValid := false, state := .idle }
    else { t with scanIdx := inward isBid t.scanIdx }

end BestTrackerState

end ItchOrderbook.Rtl
