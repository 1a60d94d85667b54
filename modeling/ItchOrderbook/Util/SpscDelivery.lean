import ItchOrderbook.Lib.RingBuffer
import ItchOrderbook.Lib.Settling
import ItchOrderbook.Util.SpscQueue

/-!
# Delivery through the queue

Over any schedule the values popped are a prefix of the values pushed (`run_delivers`). The
invariant `Inv` says what each thread knows between its steps: the index it loaded from its own side
is still the queue's, and what it found out about the other side only gets better while it waits.
Value `j` is in the slot of the index `start + j`, and the values unread are in different slots.
-/

namespace ItchOrderbook

namespace Capacity

variable (c : Capacity)

theorem isPowerOfTwo : c.n.toNat.isPowerOfTwo := by
  have hand := congrArg UInt64.toNat c.pow
  rw [UInt64.toNat_and, toNat_pred] at hand
  exact Nat.ne_zero_and_sub_one_eq_zero_iff_isPowerOfTwo.mp ⟨Nat.ne_of_gt c.pos, hand⟩

/-- The mask takes the remainder. -/
theorem slot_val (idx : UInt64) : (c.slot idx).val = idx.toNat % c.n.toNat := by
  obtain ⟨k, hk⟩ := c.isPowerOfTwo
  unfold slot
  dsimp only
  rw [UInt64.toNat_and, toNat_pred, hk, Nat.and_two_pow_sub_one_eq_mod]

/-- Indices wrap at a multiple of the capacity. -/
theorem slot_add (start : UInt64) (j : ℕ) :
    (c.slot (start + UInt64.ofNat j)).val = (start.toNat + j) % c.n.toNat := by
  have hpow : c.n.toNat ∣ 2 ^ 64 := by
    obtain ⟨k, hk⟩ := c.isPowerOfTwo
    have hlt := c.n.toNat_lt
    rw [hk] at hlt ⊢
    exact Nat.pow_dvd_pow 2 (Nat.pow_lt_pow_iff_right (by decide) |>.mp hlt).le
  rw [slot_val, UInt64.toNat_add, UInt64.toNat_ofNat', Nat.mod_mod_of_dvd _ hpow, Nat.add_mod,
    Nat.mod_mod_of_dvd _ hpow, ← Nat.add_mod]

/-- Values less than a capacity apart are in different slots. -/
theorem slot_ne {start : UInt64} {i j : ℕ} (hlt : i < j) (hle : j < i + c.n.toNat) :
    c.slot (start + UInt64.ofNat j) ≠ c.slot (start + UInt64.ofNat i) := by
  intro heq
  have hmod := congrArg Fin.val heq
  rw [slot_add, slot_add] at hmod
  exact RingBuffer.mod_ne (j := start.toNat + i) (k := start.toNat + j) (by omega) (by omega)
    hmod.symm

end Capacity

namespace SpscQueue

variable {α : Type*} {c : Capacity} {start : UInt64} {s : SpscQueue α c}

/-! ## The invariant -/

section Invariant

variable {pushes pops : List α}

/-- What holds between any two steps, after the given successful pushes and pops. -/
structure Inv (start : UInt64) (s : SpscQueue α c) (pushes pops : List α) : Prop where
  delivered : pops <+: pushes
  bound : pushes.length ≤ pops.length + c.n.toNat
  writeIdx : s.writeIdx = start + UInt64.ofNat pushes.length
  readIdx : s.readIdx = start + UInt64.ofNat pops.length
  kept : ∀ j val, pops.length ≤ j → pushes[j]? = some val →
    s.slots (c.slot (start + UInt64.ofNat j)) = val
  producer : match s.producer with
    | .idle => True
    | .loaded _ w => w = s.writeIdx
    | .room _ w => w = s.writeIdx ∧ pushes.length < pops.length + c.n.toNat
    | .written val w => w = s.writeIdx ∧ pushes.length < pops.length + c.n.toNat
      ∧ s.slots (c.slot w) = val
  consumer : match s.consumer with
    | .idle => True
    | .loaded r => r = s.readIdx
    | .ready r => r = s.readIdx ∧ pops.length < pushes.length
    | .taken r out => r = s.readIdx ∧ pushes[pops.length]? = some out

theorem inv_init (slots : Fin c.n.toNat → α) : Inv start (init start slots) [] [] where
  delivered := List.prefix_rfl
  bound := Nat.zero_le _
  writeIdx := (UInt64.add_zero start).symm
  readIdx := (UInt64.add_zero start).symm
  kept j val _ h := by cases h
  producer := trivial
  consumer := trivial

theorem Inv.length_le (h : Inv start s pushes pops) : pops.length ≤ pushes.length :=
  h.delivered.length_le

/-- The difference of the indices is the number of values unread. -/
theorem Inv.unread (h : Inv start s pushes pops) :
    (s.writeIdx - s.readIdx).toNat = pushes.length - pops.length := by
  have hle := h.length_le
  have hbound := h.bound
  have hlt := c.n.toNat_lt
  have hsub : s.writeIdx - s.readIdx = UInt64.ofNat (pushes.length - pops.length) := by
    rw [h.writeIdx, h.readIdx, UInt64.ofNat_sub hle]
    grind
  have hsize : pushes.length - pops.length < UInt64.size :=
    show pushes.length - pops.length < 2 ^ 64 by omega
  rw [hsub, UInt64.toNat_ofNat_of_lt' hsize]

/-- The indices are the same exactly when there is nothing to read. -/
theorem Inv.empty_iff (h : Inv start s pushes pops) :
    s.readIdx = s.writeIdx ↔ pushes.length = pops.length := by
  have hunread := h.unread
  have hle := h.length_le
  constructor
  · intro heq
    rw [heq, UInt64.sub_self, UInt64.toNat_zero] at hunread
    omega
  · intro heq
    rw [h.writeIdx, h.readIdx, heq]

/-- A pushed value in front of which all have been popped is the next one. -/
theorem prefix_snoc {out : α} (h : pops <+: pushes) (hout : pushes[pops.length]? = some out) :
    pops ++ [out] <+: pushes := by
  obtain ⟨tail, rfl⟩ := h
  cases tail with
  | nil => simp at hout
  | cons x tail =>
    have hx : x = out := by simpa using hout
    exact ⟨tail, by simp [hx]⟩

/-! ## One step -/

/-- A step of the producer. -/
theorem Inv.pushStep (h : Inv start s pushes pops) (next : α) :
    Inv start (s.pushStep next) (pushes ++ (s.pushed (.producer next)).toList) pops := by
  have hproducer := h.producer
  unfold SpscQueue.pushStep pushed
  cases hp : s.producer with
  | idle =>
    simp only [Option.toList_none, List.append_nil]
    exact ⟨h.delivered, h.bound, h.writeIdx, h.readIdx, h.kept, rfl, h.consumer⟩
  | loaded val w =>
    rw [hp] at hproducer
    simp only [Option.toList_none, List.append_nil]
    split
    · exact ⟨h.delivered, h.bound, h.writeIdx, h.readIdx, h.kept, trivial, h.consumer⟩
    · rename_i hroom
      refine ⟨h.delivered, h.bound, h.writeIdx, h.readIdx, h.kept, ⟨hproducer, ?_⟩, h.consumer⟩
      -- the comparison counts the values unread
      have hunread := h.unread
      have hle := h.length_le
      rw [show w = s.writeIdx from hproducer, ge_iff_le, UInt64.le_iff_toNat_le, hunread] at hroom
      omega
  | room val w =>
    rw [hp] at hproducer
    obtain ⟨hw, hroom⟩ := hproducer
    simp only [Option.toList_none, List.append_nil]
    refine ⟨h.delivered, h.bound, h.writeIdx, h.readIdx, fun j v hj hv => ?_,
      ⟨hw, hroom, Function.update_self ..⟩, h.consumer⟩
    -- the slot written is that of no value unread
    have hlt : j < pushes.length := (List.getElem?_eq_some_iff.mp hv).1
    have hne : c.slot (start + UInt64.ofNat j) ≠ c.slot w := by
      rw [hw, h.writeIdx]
      exact (c.slot_ne hlt (by omega)).symm
    show Function.update s.slots (c.slot w) val _ = v
    rw [Function.update_of_ne hne]
    exact h.kept j v hj hv
  | written val w =>
    rw [hp] at hproducer
    obtain ⟨hw, hroom, hslot⟩ := hproducer
    have hlength : (pushes ++ [val]).length = pushes.length + 1 := by simp
    have hle := h.length_le
    simp only [Option.toList_some]
    refine ⟨h.delivered.trans (List.prefix_append _ _), ?_, ?_, h.readIdx, fun j v hj hv => ?_,
      trivial, ?_⟩
    · rw [hlength]
      exact hroom
    · rw [hlength, hw, h.writeIdx, UInt64.ofNat_add, ← UInt64.add_assoc]
      rfl
    · rcases Nat.lt_or_ge j pushes.length with hlt | hge
      · rw [List.getElem?_append_left hlt] at hv
        exact h.kept j v hj hv
      · -- the value of this push
        have hj' : j = pushes.length := by
          have := (List.getElem?_eq_some_iff.mp hv).1
          omega
        subst hj'
        rw [List.getElem?_append_right le_rfl, Nat.sub_self, List.getElem?_cons_zero,
          Option.some_inj] at hv
        rw [← hv, ← hslot, hw, h.writeIdx]
    · have hconsumer := h.consumer
      dsimp only
      cases hc : s.consumer with
      | idle => trivial
      | loaded r =>
        rw [hc] at hconsumer
        exact hconsumer
      | ready r =>
        rw [hc] at hconsumer
        exact ⟨hconsumer.1, by rw [hlength]; omega⟩
      | taken r out =>
        rw [hc] at hconsumer
        have hlt := (List.getElem?_eq_some_iff.mp hconsumer.2).1
        exact ⟨hconsumer.1, by rw [List.getElem?_append_left hlt]; exact hconsumer.2⟩

/-- A step of the consumer. -/
theorem Inv.popStep (h : Inv start s pushes pops) :
    Inv start s.popStep pushes (pops ++ (s.popped .consumer).toList) := by
  have hconsumer := h.consumer
  unfold SpscQueue.popStep popped
  cases hc : s.consumer with
  | idle =>
    simp only [Option.toList_none, List.append_nil]
    exact ⟨h.delivered, h.bound, h.writeIdx, h.readIdx, h.kept, h.producer, rfl⟩
  | loaded r =>
    rw [hc] at hconsumer
    simp only [Option.toList_none, List.append_nil]
    split
    · exact ⟨h.delivered, h.bound, h.writeIdx, h.readIdx, h.kept, h.producer, trivial⟩
    · rename_i hne
      refine ⟨h.delivered, h.bound, h.writeIdx, h.readIdx, h.kept, h.producer, hconsumer, ?_⟩
      have hle := h.length_le
      rw [show r = s.readIdx from hconsumer, h.empty_iff] at hne
      omega
  | ready r =>
    rw [hc] at hconsumer
    obtain ⟨hr, hlt⟩ := hconsumer
    simp only [Option.toList_none, List.append_nil]
    refine ⟨h.delivered, h.bound, h.writeIdx, h.readIdx, h.kept, h.producer, hr, ?_⟩
    -- the slot of the first value unread
    have hval := List.getElem?_eq_getElem hlt
    rw [hval, hr, h.readIdx, h.kept _ _ le_rfl hval]
  | taken r out =>
    rw [hc] at hconsumer
    obtain ⟨hr, hout⟩ := hconsumer
    have hlength : (pops ++ [out]).length = pops.length + 1 := by simp
    have hbound := h.bound
    simp only [Option.toList_some]
    refine ⟨prefix_snoc h.delivered hout, ?_, h.writeIdx, ?_, fun j v hj hv => ?_, ?_, trivial⟩
    · rw [hlength]
      omega
    · rw [hlength, hr, h.readIdx, UInt64.ofNat_add, ← UInt64.add_assoc]
      rfl
    · rw [hlength] at hj
      exact h.kept j v (by omega) hv
    · have hproducer := h.producer
      dsimp only
      rw [hlength]
      cases hp : s.producer with
      | idle => trivial
      | loaded val w =>
        rw [hp] at hproducer
        exact hproducer
      | room val w =>
        rw [hp] at hproducer
        exact ⟨hproducer.1, by omega⟩
      | written val w =>
        rw [hp] at hproducer
        exact ⟨hproducer.1, by omega, hproducer.2.2⟩

/-- A step of either thread. -/
theorem Inv.step (h : Inv start s pushes pops) (t : Turn α) :
    Inv start (s.step t) (pushes ++ (s.pushed t).toList) (pops ++ (s.popped t).toList) := by
  cases t with
  | producer next =>
    rw [show s.popped (.producer next) = none from rfl, Option.toList_none, List.append_nil]
    exact h.pushStep next
  | consumer =>
    rw [show s.pushed .consumer = none from rfl, Option.toList_none, List.append_nil]
    exact h.popStep

end Invariant

/-! ## Runs -/

/-- The values of the successful pushes of a run. -/
def pushes (s : SpscQueue α c) (ts : List (Turn α)) : List α := accepted SpscQueue.step pushed s ts

/-- The values of the successful pops of a run. -/
def pops (s : SpscQueue α c) (ts : List (Turn α)) : List α := accepted SpscQueue.step popped s ts

/-- A run. Induction on the schedule. -/
theorem Inv.run {pushed' popped' : List α} (h : Inv start s pushed' popped') (ts : List (Turn α)) :
    Inv start (ts.foldl SpscQueue.step s) (pushed' ++ s.pushes ts) (popped' ++ s.pops ts) := by
  induction ts generalizing s pushed' popped' with
  | nil =>
    show Inv start s (pushed' ++ []) (popped' ++ [])
    rwa [List.append_nil, List.append_nil]
  | cons t ts ih =>
    have hrun := ih (h.step t)
    rw [List.append_assoc, List.append_assoc] at hrun
    exact hrun

/-- The slot the consumer is reading, or has read for a pop that has not returned. -/
def Reads (s : SpscQueue α c) (i : Fin c.n.toNat) : Prop :=
  ∃ r, (s.consumer = .ready r ∨ ∃ out, s.consumer = .taken r out) ∧ c.slot r = i

/-- The slot the producer's next step writes. -/
def Writes (s : SpscQueue α c) (i : Fin c.n.toNat) : Prop :=
  ∃ val w, s.producer = .room val w ∧ c.slot w = i

/-- **Delivery.** Whatever the schedule, the values popped are the first of the values pushed, in
order; at most `N` values are unread; each is in its slot; and the producer writes neither the slot
of an unread value nor the one being read. -/
theorem run_delivers (start : UInt64) (slots : Fin c.n.toNat → α) (ts : List (Turn α)) :
    let s₀ := init start slots
    let s := ts.foldl SpscQueue.step s₀
    s₀.pops ts <+: s₀.pushes ts
      ∧ (s₀.pushes ts).length - (s₀.pops ts).length ≤ c.n.toNat
      ∧ (∀ j val, (s₀.pops ts).length ≤ j → (s₀.pushes ts)[j]? = some val →
        s.slots (c.slot (start + UInt64.ofNat j)) = val
          ∧ ¬s.Writes (c.slot (start + UInt64.ofNat j)))
      ∧ ∀ i, s.Reads i → ¬s.Writes i := by
  intro s₀ s
  have h : Inv start s (s₀.pushes ts) (s₀.pops ts) := (inv_init slots).run ts
  have hbound := h.bound
  -- the slot written is that of the next value
  have hwrites {j : ℕ} (hj : (s₀.pops ts).length ≤ j) (hlt : j < (s₀.pushes ts).length) :
      ¬s.Writes (c.slot (start + UInt64.ofNat j)) := by
    rintro ⟨val, w, hp, hw⟩
    have hproducer := h.producer
    rw [hp] at hproducer
    rw [hproducer.1, h.writeIdx] at hw
    exact c.slot_ne hlt (by omega) hw
  refine ⟨h.delivered, by omega, fun j val hj hv => ⟨h.kept j val hj hv, ?_⟩, ?_⟩
  · exact hwrites hj (List.getElem?_eq_some_iff.mp hv).1
  · rintro i ⟨r, hr, rfl⟩
    have hconsumer := h.consumer
    have hread : r = s.readIdx ∧ (s₀.pops ts).length < (s₀.pushes ts).length := by
      rcases hr with hc | ⟨out, hc⟩
      · rw [hc] at hconsumer
        exact hconsumer
      · rw [hc] at hconsumer
        exact ⟨hconsumer.1, (List.getElem?_eq_some_iff.mp hconsumer.2).1⟩
    rw [hread.1, h.readIdx]
    exact hwrites le_rfl hread.2

end SpscQueue

end ItchOrderbook
