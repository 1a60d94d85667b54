import Mathlib.Data.UInt
import Mathlib.Logic.Function.Basic

/-!
# Single-producer, single-consumer queue (`sw/util/spsc_queue.hpp`)

`push` and `pop` as their steps: each load of an index, access to a slot and store of an index is
one step of the thread that makes it, and a schedule says which thread goes next. A comparison of
loaded indices belongs to the load before it.
-/

namespace ItchOrderbook

/-- The template argument `N`, a power of two as the `static_assert` has it, and not 0. -/
structure Capacity where
  n : UInt64
  pow : n &&& (n - 1) = 0
  ne_zero : n ≠ 0

namespace Capacity

variable (c : Capacity)

theorem one_le : 1 ≤ c.n := by
  have hne : c.n.toNat ≠ 0 := fun h => c.ne_zero (UInt64.toNat_inj.mp h)
  rw [UInt64.le_iff_toNat_le]
  exact Nat.one_le_iff_ne_zero.mpr hne

theorem toNat_pred : (c.n - 1).toNat = c.n.toNat - 1 := UInt64.toNat_sub_of_le _ _ c.one_le

theorem pos : 0 < c.n.toNat := UInt64.le_iff_toNat_le.mp c.one_le

/-- `idx & (N - 1)`. -/
def slot (idx : UInt64) : Fin c.n.toNat :=
  ⟨(idx &&& (c.n - 1)).toNat, by
    have hle : (idx &&& (c.n - 1)).toNat ≤ (c.n - 1).toNat := by
      rw [UInt64.toNat_and]
      exact Nat.and_le_right
    have hpos := c.pos
    rw [toNat_pred] at hle
    omega⟩

end Capacity

/-- Where the producer is in `push`. -/
inductive Pushing (α : Type*) where
  | idle
  | loaded (val : α) (w : UInt64)
  -- `read_idx_` loaded, and the queue not full
  | room (val : α) (w : UInt64)
  | written (val : α) (w : UInt64)

/-- Where the consumer is in `pop`. -/
inductive Popping (α : Type*) where
  | idle
  | loaded (r : UInt64)
  -- `write_idx_` loaded, and the queue not empty
  | ready (r : UInt64)
  | taken (r : UInt64) (out : α)

/-- `struct SPSCQueue`, with its two threads. -/
structure SpscQueue (α : Type*) (c : Capacity) where
  writeIdx : UInt64 := 0
  readIdx : UInt64 := 0
  slots : Fin c.n.toNat → α
  producer : Pushing α := .idle
  consumer : Popping α := .idle

/-- The thread that makes the next step. A producer that is not in a `push` begins one of `val`. -/
inductive Turn (α : Type*) where
  | producer (val : α)
  | consumer

namespace SpscQueue

variable {α : Type*} {c : Capacity}

/-- A step of `push`. -/
def pushStep (s : SpscQueue α c) (next : α) : SpscQueue α c :=
  match s.producer with
  | .idle => { s with producer := .loaded next s.writeIdx }
  | .loaded val w =>
    if w - s.readIdx ≥ c.n then { s with producer := .idle }
    else { s with producer := .room val w }
  | .room val w =>
    { s with slots := Function.update s.slots (c.slot w) val, producer := .written val w }
  | .written _ w => { s with writeIdx := w + 1, producer := .idle }

/-- A step of `pop`. -/
def popStep (s : SpscQueue α c) : SpscQueue α c :=
  match s.consumer with
  | .idle => { s with consumer := .loaded s.readIdx }
  | .loaded r =>
    if r = s.writeIdx then { s with consumer := .idle } else { s with consumer := .ready r }
  | .ready r => { s with consumer := .taken r (s.slots (c.slot r)) }
  | .taken r _ => { s with readIdx := r + 1, consumer := .idle }

/-- One step of the thread whose turn it is. -/
def step (s : SpscQueue α c) : Turn α → SpscQueue α c
  | .producer next => s.pushStep next
  | .consumer => s.popStep

/-- The value of a `push` that returns true with this step. -/
def pushed (s : SpscQueue α c) : Turn α → Option α
  | .producer _ =>
    match s.producer with
    | .written val _ => some val
    | _ => none
  | .consumer => none

/-- The value of a `pop` that returns true with this step. -/
def popped (s : SpscQueue α c) : Turn α → Option α
  | .producer _ => none
  | .consumer =>
    match s.consumer with
    | .taken _ out => some out
    | _ => none

/-- The empty queue, its indices at any value. -/
def init (start : UInt64) (slots : Fin c.n.toNat → α) : SpscQueue α c where
  writeIdx := start
  readIdx := start
  slots := slots

end SpscQueue

end ItchOrderbook
