import ItchOrderbook.Book.BookEngine
import ItchOrderbook.Book.OrderRefTable
import ItchOrderbook.Parser.MoldParser

/-!
# The replay of a file (`main`, `sw/main.cpp`)

The part of `main` that decides whether the outputs of a run are published: the decapsulation
under `--mold`, the replay loop in simd mode, and `replay_ok`. The latency samples, the
statistics and the progress lines that the loop also takes leave the decision alone and are not
here. As the engine does, the loop runs in the monad of its store.
-/

namespace ItchOrderbook

/-- What the replay loop keeps for the gate. -/
structure Replay (T : Type) where
  engine : BookEngine T
  malformedMessages : UInt64 := 0

namespace Replay

variable {T : Type} {M : Type → Type} [Monad M] [RefTable T M]

/-- One message: decoded, counted if it is malformed, and applied all the same. -/
def take (r : Replay T) (m : DecodedMessage) : M (Replay T) := do
  let malformedMessages :=
    if m.type = .unknown then r.malformedMessages + 1 else r.malformedMessages
  let ((engine, _), _) ← r.engine.apply m
  pure { engine, malformedMessages }

/-- The replay loop, where `data` is what is left of the input. It returns what it did not
consume. -/
def loop (data : List UInt8) (r : Replay T) : M (List UInt8 × Replay T) :=
  if 2 ≤ data.length then
    let blen := (be16 data).toNat
    if h : blen = 0 ∨ data.length < 2 + blen then pure (data, r)
    else do
      let r ← r.take (decodeBody (data.drop 2) blen)
      loop (data.drop (2 + blen)) r
  else pure (data, r)
termination_by data.length
decreasing_by simp only [List.length_drop]; omega

/-- `replay_ok` in simd mode. -/
def ok (r : Replay T) (truncatedStream : Bool) : Bool :=
  let c := r.engine.ctr
  r.malformedMessages = 0 && !truncatedStream &&
    (c.invalid = 0 && c.duplicateRef = 0 && c.missingRef = 0 && c.refInsertFail = 0 &&
      c.resyncRequired = 0)

end Replay

/-- The stream the loop runs over: under `--mold`, the decapsulated input. The statistics of
the decapsulation are printed and nothing else. -/
def replayInput (moldIn : Bool) (bytes : List UInt8) : List UInt8 :=
  if moldIn then (MoldParser.decap bytes).2 else bytes

/-- `main` up to `replay_ok`, which is its result. -/
def mainReplayOk (moldIn : Bool) (bytes : List UInt8) : Option Bool := do
  let refs ← OrderRefTable.new ((1 : UInt32) <<< 21)
  let (rest, r) ← Replay.loop (replayInput moldIn bytes) { engine := .new 1000000 refs }
  let truncatedStream := decide (rest.length ≠ 0)
  pure (r.ok truncatedStream)

end ItchOrderbook
