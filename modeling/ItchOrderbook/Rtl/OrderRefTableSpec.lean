import ItchOrderbook.Lib.Settling
import ItchOrderbook.Lib.TombstoneProbing
import ItchOrderbook.Rtl.OrderRefTable

/-!
# What a command does to the order-reference table

`TableCore.exec` says in one step what the table takes many cycles to do: a command is a search of
the slots and at most one write. `serve` connects the two: from the cycle a command is latched on,
the table is busy until it is done, with its memory and its results as `exec` says.
-/

namespace ItchOrderbook.Rtl

open TombstoneProbing

/-- The slot an entry makes. -/
def OrderEntry.slot (e : OrderEntry) : Slot UInt64 OrderEntry :=
  if e.valid then .live e.oref e else if e.tomb then .tomb else .empty

/-- No valid entry is marked as a tombstone. -/
def Marked {I : Type*} (mem : I → OrderEntry) : Prop := ∀ i, (mem i).valid → (mem i).tomb = false

/-- What the commands of the table read and write, the memory as slots. -/
structure TableCore (c : Build) where
  slots : BitVec c.hashW → Slot UInt64 OrderEntry := fun _ => .empty
  resFound : Bool := false
  resPrice : UInt32 := 0
  resShares : UInt32 := 0
  resIsBid : Bool := false
  resLocate : UInt16 := 0
  insFailCount : UInt32 := 0

/-- The table as the commands see it. -/
def OrderRefTableState.core {c : Build} (t : OrderRefTableState c) : TableCore c where
  slots i := (t.mem i).slot
  resFound := t.resFound
  resPrice := t.resPrice
  resShares := t.resShares
  resIsBid := t.resIsBid
  resLocate := t.resLocate
  insFailCount := t.insFailCount

namespace TableCore

variable {c : Build}

/-- The slots looked at after the first one. -/
abbrev probeLeft : ℕ := maxProbe - 1

/-- The slot of a live reference. -/
def find (k : TableCore c) (ref : UInt64) : Option (BitVec c.hashW) :=
  TombstoneProbing.find (· + 1) k.slots ref probeLeft (hashRef c ref)

/-- What the search of an INSERT ends with. -/
def seek (k : TableCore c) (ref : UInt64) : Seek (BitVec c.hashW) :=
  TombstoneProbing.seek (· + 1) k.slots ref probeLeft (hashRef c ref) none

/-- The entry in a slot. -/
def entryAt (k : TableCore c) (i : BitVec c.hashW) : OrderEntry :=
  match k.slots i with
  | .live _ e => e
  | _ => {}

/-- A slot written. -/
def write (k : TableCore c) (i : BitVec c.hashW) (s : Slot UInt64 OrderEntry) : TableCore c :=
  { k with slots := Function.update k.slots i s }

/-- The end of an INSERT. -/
def endInsert (k : TableCore c) (q : TblCmd) : Seek (BitVec c.hashW) → TableCore c
  | .found i =>
    if q.unique then { k with resFound := false }
    else { k.write i q.insEntry.slot with resFound := true }
  | .place i => { k.write i q.insEntry.slot with resFound := true }
  | .full => { k with insFailCount := k.insFailCount + 1 }

/-- The end of a LOOKUP or DELETE. -/
def endFind (k : TableCore c) (op : TblOp) : Option (BitVec c.hashW) → TableCore c
  | some i =>
    let e := k.entryAt i
    let k := if op = .delete then k.write i .tomb else k
    { k with
      resFound := true, resPrice := e.price, resShares := e.shares, resIsBid := e.isBid
      resLocate := e.locate }
  | none => { k with resFound := false }

/-- A command. -/
def exec (k : TableCore c) (q : TblCmd) : TableCore c :=
  match q.op with
  | .insert => k.endInsert q (k.seek q.ref)
  | op => k.endFind op (k.find q.ref)

end TableCore

/-! ## Entries and slots -/

section Slots

variable {e : OrderEntry} {I : Type*} {mem : I → OrderEntry}

theorem OrderEntry.slot_of_valid (h : e.valid = true) : e.slot = .live e.oref e := if_pos h

theorem OrderEntry.slot_of_tomb (h : e.valid = false) (ht : e.tomb = true) : e.slot = .tomb := by
  rw [OrderEntry.slot, h, ht]
  rfl

theorem OrderEntry.slot_of_empty (h : e.valid = false) (ht : e.tomb = false) : e.slot = .empty := by
  rw [OrderEntry.slot, h, ht]
  rfl

theorem OrderEntry.slot_eq_live_iff {ref : UInt64} {e' : OrderEntry} :
    e.slot = .live ref e' ↔ e.valid = true ∧ e.oref = ref ∧ e = e' := by
  unfold OrderEntry.slot
  split
  · rename_i h
    simp [h]
  · rename_i h
    split <;> simp [h]

variable [DecidableEq I]

theorem slot_update (i : I) (e : OrderEntry) :
    (fun j => (Function.update mem i e j).slot) = Function.update (fun j => (mem j).slot) i e.slot :=
  Function.comp_update OrderEntry.slot mem i e

theorem Marked.update (h : Marked mem) (i : I) {e : OrderEntry} (he : e.valid → e.tomb = false) :
    Marked (Function.update mem i e) := by
  intro j hj
  rw [Function.update_apply] at hj ⊢
  split
  · rw [if_pos ‹_›] at hj
    exact he hj
  · rw [if_neg ‹_›] at hj
    exact h j hj

end Slots

/-! ## The cycles of a command -/

namespace OrderRefTableState

variable {c : Build} {t : OrderRefTableState c}

/-- A cycle without a new command. -/
def tick (t : OrderRefTableState c) : OrderRefTableState c := t.step false {}

/-- The table is working on a command. -/
def Working (t : OrderRefTableState c) : Prop := t.state ≠ .idle ∧ t.done = false

/-- The table is ready for a command. -/
structure Ready (t : OrderRefTableState c) : Prop where
  state : t.state = .idle
  marked : Marked t.mem

/-- A table that gets no command makes a tick. -/
theorem step_eq_tick (t : OrderRefTableState c) (cmd : TblCmd) : t.step false cmd = t.tick := by
  unfold tick step
  cases t.state <;> rfl

theorem core_write (n : OrderRefTableState c) (i : BitVec c.hashW) (e : OrderEntry) :
    (n.write i e).core = n.core.write i e.slot := by
  unfold core TableCore.write write
  simp only [slot_update]

/-- The tombstone that an INSERT has passed. -/
def passed (t : OrderRefTableState c) : Option (BitVec c.hashW) :=
  if t.haveTomb then some t.tombIdx else none

/-- The state an INSERT or a search ends in, one cycle before `done`. -/
structure Ending (k : TableCore c) (t : OrderRefTableState c) : Prop where
  state : t.state = .done
  done : t.done = false
  core : t.core = k
  marked : Marked t.mem

/-- What a slot says of the entry in it. -/
theorem entry_of_slot (hm : Marked t.mem) (i : BitVec c.hashW) :
    match (t.mem i).slot with
    | .empty => (t.mem i).valid = false ∧ (t.mem i).tomb = false
    | .tomb => (t.mem i).valid = false ∧ (t.mem i).tomb = true
    | .live ref e =>
      (t.mem i).valid = true ∧ (t.mem i).tomb = false ∧ (t.mem i).oref = ref ∧ t.mem i = e := by
  cases hv : (t.mem i).valid with
  | true =>
    rw [OrderEntry.slot_of_valid hv]
    exact ⟨rfl, hm i hv, rfl, rfl⟩
  | false =>
    cases ht : (t.mem i).tomb with
    | true =>
      rw [OrderEntry.slot_of_tomb hv ht]
      exact ⟨rfl, rfl⟩
    | false =>
      rw [OrderEntry.slot_of_empty hv ht]
      exact ⟨rfl, rfl⟩

theorem ending_of_tick {k : TableCore c} (hd : t.done = false) (hs : t.state = .probe)
    (h : Ending k t.tick) : Leads tick Working (Ending k) t :=
  .next ⟨by rw [hs]; exact fun h => (by cases h), hd⟩ (.here h)

/-- The state after an INSERT has written its entry. -/
theorem ending_write (hm : Marked t.mem) (i : BitVec c.hashW) :
    Ending { t.core.write i t.q.insEntry.slot with resFound := true }
      { t.clearPulses.write i t.q.insEntry with resFound := true, state := .done } where
  state := rfl
  done := rfl
  core := by
    rw [← core_write]
    rfl
  marked := hm.update i fun _ => rfl

theorem probeInsert_of_empty (hm : Marked t.mem) (hsl : (t.mem t.idx).slot = .empty) :
    t.probeInsert t.clearPulses
      = { t.clearPulses.write (t.passed.getD t.idx) t.q.insEntry with
          resFound := true, state := .done } := by
  have hentry := entry_of_slot hm t.idx
  rw [hsl] at hentry
  obtain ⟨hv, ht⟩ := hentry
  unfold probeInsert passed
  simp only [hv, ht]
  cases t.haveTomb <;> rfl

theorem probeInsert_of_found (hm : Marked t.mem) {e : OrderEntry}
    (hsl : (t.mem t.idx).slot = .live t.q.ref e) :
    t.probeInsert t.clearPulses
      = if t.q.unique then { t.clearPulses with resFound := false, state := .done }
        else { t.clearPulses.write t.idx t.q.insEntry with resFound := true, state := .done } := by
  have hentry := entry_of_slot hm t.idx
  rw [hsl] at hentry
  obtain ⟨hv, -, hr, -⟩ := hentry
  exact if_pos ⟨hv, hr⟩

/-- A slot an INSERT passes: a tombstone, or another reference. -/
def Passes (t : OrderRefTableState c) : Slot UInt64 OrderEntry → Prop
  | .empty => False
  | .tomb => True
  | .live ref _ => ref ≠ t.q.ref

/-- The first tombstone is the one that is kept. -/
def passedNow (t : OrderRefTableState c) : Slot UInt64 OrderEntry → Option (BitVec c.hashW)
  | .tomb => some (t.passed.getD t.idx)
  | _ => t.passed

/-- A state after one more probe. -/
structure Onward (t t' : OrderRefTableState c) : Prop where
  state : t'.state = .probe
  done : t'.done = false
  q : t'.q = t.q
  mem : t'.mem = t.mem
  core : t'.core = t.core
  idx : t'.idx = t.idx + 1
  probes : t'.probes = t.probes + 1

theorem Onward.probes_toNat {t' : OrderRefTableState c} (h : Onward t t')
    (hlt : t.probes.toNat < maxProbe) : t'.probes.toNat = t.probes.toNat + 1 := by
  rw [h.probes, UInt32.toNat_add]
  exact Nat.mod_eq_of_lt (Nat.lt_trans (Nat.succ_lt_succ hlt) (by decide))

theorem probeInsert_of_pass (hm : Marked t.mem) (hs : t.state = .probe)
    (hpass : t.Passes (t.mem t.idx).slot) (hlt : t.probes.toNat < maxProbe) :
    Onward t (t.probeInsert t.clearPulses)
      ∧ (t.probeInsert t.clearPulses).passed = t.passedNow (t.mem t.idx).slot := by
  have hentry := entry_of_slot hm t.idx
  have hmore : ¬maxProbe ≤ t.probes.toNat := Nat.not_le.mpr hlt
  cases hsl : (t.mem t.idx).slot with
  | empty =>
    rw [hsl] at hpass
    exact hpass.elim
  | tomb =>
    rw [hsl] at hentry
    obtain ⟨hv, ht⟩ := hentry
    unfold probeInsert passed passedNow
    simp only [hv, ht, hmore]
    cases hh : t.haveTomb
    · exact ⟨⟨hs, rfl, rfl, rfl, rfl, rfl, rfl⟩, by simp [passed, hh]⟩
    · exact ⟨⟨hs, rfl, rfl, rfl, rfl, rfl, rfl⟩, by simp [passed, clearPulses, hh]⟩
  | live ref e =>
    rw [hsl] at hpass hentry
    obtain ⟨hv, ht, hr, -⟩ := hentry
    have hne : (t.mem t.idx).oref ≠ t.q.ref := hr ▸ hpass
    unfold probeInsert passed passedNow
    simp only [hv, ht, hmore, hne]
    exact ⟨⟨hs, rfl, rfl, rfl, rfl, rfl, rfl⟩, rfl⟩

theorem probeInsert_of_giveUp (hm : Marked t.mem) (hpass : t.Passes (t.mem t.idx).slot)
    (hge : maxProbe ≤ t.probes.toNat) :
    Ending (t.core.endInsert t.q (giveUp t.passed)) (t.probeInsert t.clearPulses) := by
  have hentry := entry_of_slot hm t.idx
  have hcur : ¬((t.mem t.idx).valid = true ∧ (t.mem t.idx).oref = t.q.ref)
      ∧ ¬((!(t.mem t.idx).valid) = true ∧ (!(t.mem t.idx).tomb) = true) := by
    cases hsl : (t.mem t.idx).slot with
    | empty =>
      rw [hsl] at hpass
      exact hpass.elim
    | tomb =>
      rw [hsl] at hentry
      simp [hentry.1, hentry.2]
    | live ref e =>
      rw [hsl] at hpass hentry
      have hne : (t.mem t.idx).oref ≠ t.q.ref := hentry.2.2.1 ▸ hpass
      simp [hentry.1, hne]
  unfold probeInsert
  simp only [hcur, hge, if_true, if_false]
  cases hh : t.haveTomb with
  | true =>
    have hp : t.passed = some t.tombIdx := by rw [passed, hh, if_pos rfl]
    rw [hp]
    have hw := ending_write hm t.tombIdx
    simp only [Bool.not_true, Bool.false_eq_true, and_false, if_false, if_true]
    exact ⟨rfl, rfl, hw.core, hw.marked⟩
  | false =>
    have hp : t.passed = none := by rw [passed, hh]; rfl
    rw [hp]
    cases (t.mem t.idx).tomb
    · exact ⟨rfl, rfl, rfl, hm⟩
    · exact ⟨rfl, rfl, rfl, hm⟩

theorem tick_of_insert (hs : t.state = .probe) (hop : t.q.op = .insert) :
    t.tick = t.probeInsert t.clearPulses := by
  unfold tick step
  rw [hs]
  exact if_pos hop

/-- A probe that meets an empty slot is the last. -/
theorem ending_of_empty (hm : Marked t.mem) (hs : t.state = .probe) (hop : t.q.op = .insert)
    (hsl : (t.mem t.idx).slot = .empty) :
    Ending (t.core.endInsert t.q (.place (t.passed.getD t.idx))) t.tick := by
  rw [tick_of_insert hs hop, probeInsert_of_empty hm hsl]
  exact ending_write hm _

/-- A probe that meets the reference is the last. -/
theorem ending_of_found (hm : Marked t.mem) (hs : t.state = .probe) (hop : t.q.op = .insert)
    {e : OrderEntry} (hsl : (t.mem t.idx).slot = .live t.q.ref e) :
    Ending (t.core.endInsert t.q (.found t.idx)) t.tick := by
  rw [tick_of_insert hs hop, probeInsert_of_found hm hsl, TableCore.endInsert]
  split
  · exact ⟨rfl, rfl, rfl, hm⟩
  · exact ending_write hm _

/-- An INSERT probes on until its search ends. Induction on the probes left. -/
theorem walk_insert (left : ℕ) (hs : t.state = .probe) (hd : t.done = false)
    (hop : t.q.op = .insert) (hp : t.probes.toNat + left = maxProbe) (hm : Marked t.mem) :
    Leads tick Working
      (Ending (t.core.endInsert t.q (seek (· + 1) t.core.slots t.q.ref left t.idx t.passed))) t := by
  have hslot : t.core.slots t.idx = (t.mem t.idx).slot := rfl
  -- the induction is on the slots left of the window; `passed` goes along with it
  induction left generalizing t with
  | zero =>
    have hge : maxProbe ≤ t.probes.toNat := hp.ge
    refine ending_of_tick hd hs ?_
    rw [TombstoneProbing.seek, hslot]
    cases hsl : (t.mem t.idx).slot with
    | empty => exact ending_of_empty hm hs hop hsl
    | tomb =>
      rw [tick_of_insert hs hop]
      exact probeInsert_of_giveUp hm (by rw [hsl]; trivial) hge
    | live ref e =>
      dsimp only
      by_cases hr : ref = t.q.ref
      · rw [if_pos hr]
        exact ending_of_found hm hs hop (hr ▸ hsl)
      · rw [if_neg hr, tick_of_insert hs hop]
        exact probeInsert_of_giveUp hm (by rw [hsl]; exact hr) hge
  | succ left ih =>
    have hlt : t.probes.toNat < maxProbe := by omega
    have hgo (hpass : t.Passes (t.mem t.idx).slot) :
        Leads tick Working (Ending (t.core.endInsert t.q (seek (· + 1) t.core.slots t.q.ref left
          (t.idx + 1) (t.passedNow (t.mem t.idx).slot)))) t := by
      obtain ⟨hon, hkeep⟩ := probeInsert_of_pass hm hs hpass hlt
      rw [← tick_of_insert hs hop] at hon hkeep
      have hcount := hon.probes_toNat hlt
      have hrest := ih (t := t.tick) hon.state hon.done (by rw [hon.q, hop])
        (by rw [hcount]; omega) (by rw [hon.mem]; exact hm) rfl
      rw [hon.core, hon.q, hon.idx, hkeep] at hrest
      exact .next ⟨by rw [hs]; exact fun h => (by cases h), hd⟩ hrest
    rw [TombstoneProbing.seek, hslot]
    cases hsl : (t.mem t.idx).slot with
    | empty => exact ending_of_tick hd hs (ending_of_empty hm hs hop hsl)
    | tomb =>
      have := hgo (by rw [hsl]; trivial)
      rwa [hsl] at this
    | live ref e =>
      dsimp only
      by_cases hr : ref = t.q.ref
      · rw [if_pos hr]
        exact ending_of_tick hd hs (ending_of_found hm hs hop (hr ▸ hsl))
      · rw [if_neg hr]
        have := hgo (by rw [hsl]; exact hr)
        rwa [hsl] at this

/-! ### LOOKUP and DELETE -/

theorem tick_of_find (hs : t.state = .probe) (hop : t.q.op ≠ .insert) :
    t.tick = t.probeFind t.clearPulses := by
  unfold tick step
  rw [hs]
  exact if_neg hop

/-- The probe-depth pulses are no part of what a search ends with. -/
theorem ending_withProbes {n : OrderRefTableState c} {k : TableCore c} (op : TblOp) (p : UInt32)
    (hd : n.done = false) (hc : n.core = k) (hm : Marked n.mem) :
    Ending k { n.withProbes op p with state := .done } := by
  unfold withProbes
  split
  · exact ⟨rfl, hd, hc, hm⟩
  · exact ⟨rfl, hd, hc, hm⟩

/-- The probe of a search that meets the reference. -/
theorem probeFind_of_found (hm : Marked t.mem) {e : OrderEntry}
    (hsl : (t.mem t.idx).slot = .live t.q.ref e) :
    Ending (t.core.endFind t.q.op (some t.idx)) (t.probeFind t.clearPulses) := by
  have hentry := entry_of_slot hm t.idx
  rw [hsl] at hentry
  obtain ⟨hv, -, hr, he⟩ := hentry
  have hat : t.core.entryAt t.idx = t.mem t.idx := by
    show (match (t.mem t.idx).slot with | .live _ e => e | _ => {}) = _
    rw [hsl, he]
  unfold probeFind
  simp only [hv, hr, and_self, if_true, TableCore.endFind, hat]
  by_cases hop : t.q.op = .delete
  · simp only [hop, if_true]
    refine ending_withProbes _ _ rfl ?_ (hm.update _ fun h => (by cases h))
    rw [core_write]
    rfl
  · simp only [hop, if_false]
    exact ending_withProbes _ _ rfl rfl hm

/-- The probe of a search that meets an empty slot. -/
theorem probeFind_of_empty (hm : Marked t.mem) (hsl : (t.mem t.idx).slot = .empty) :
    Ending (t.core.endFind t.q.op none) (t.probeFind t.clearPulses) := by
  have hentry := entry_of_slot hm t.idx
  rw [hsl] at hentry
  obtain ⟨hv, ht⟩ := hentry
  unfold probeFind
  simp only [hv, ht, Bool.false_eq_true, false_and, if_false, Bool.not_false, and_self, if_true]
  exact ending_withProbes _ _ rfl rfl hm

/-- The probe of a search that passes its slot. -/
theorem probeFind_of_pass (hm : Marked t.mem) (hs : t.state = .probe)
    (hpass : t.Passes (t.mem t.idx).slot) :
    (t.probes.toNat < maxProbe → Onward t (t.probeFind t.clearPulses))
      ∧ (maxProbe ≤ t.probes.toNat →
        Ending (t.core.endFind t.q.op none) (t.probeFind t.clearPulses)) := by
  have hentry := entry_of_slot hm t.idx
  have hcur : ¬((t.mem t.idx).valid = true ∧ (t.mem t.idx).oref = t.q.ref)
      ∧ ¬((!(t.mem t.idx).valid) = true ∧ (!(t.mem t.idx).tomb) = true) := by
    cases hsl : (t.mem t.idx).slot with
    | empty =>
      rw [hsl] at hpass
      exact hpass.elim
    | tomb =>
      rw [hsl] at hentry
      simp [hentry.1, hentry.2]
    | live ref e =>
      rw [hsl] at hpass hentry
      have hne : (t.mem t.idx).oref ≠ t.q.ref := hentry.2.2.1 ▸ hpass
      simp [hentry.1, hne]
  unfold probeFind
  simp only [hcur, if_false]
  refine ⟨fun hlt => ?_, fun hge => ?_⟩
  · rw [if_neg (Nat.not_le.mpr hlt)]
    exact ⟨hs, rfl, rfl, rfl, rfl, rfl, rfl⟩
  · rw [if_pos hge]
    exact ⟨rfl, rfl, rfl, hm⟩

/-- A search probes on until it ends. Induction on the probes left. -/
theorem walk_find (left : ℕ) (hs : t.state = .probe) (hd : t.done = false)
    (hop : t.q.op ≠ .insert) (hp : t.probes.toNat + left = maxProbe) (hm : Marked t.mem) :
    Leads tick Working
      (Ending (t.core.endFind t.q.op (find (· + 1) t.core.slots t.q.ref left t.idx))) t := by
  have hslot : t.core.slots t.idx = (t.mem t.idx).slot := rfl
  -- as for an INSERT, but a tombstone is only stepped over
  induction left generalizing t with
  | zero =>
    have hge : maxProbe ≤ t.probes.toNat := hp.ge
    refine ending_of_tick hd hs ?_
    rw [TombstoneProbing.find, hslot, tick_of_find hs hop]
    cases hsl : (t.mem t.idx).slot with
    | empty => exact probeFind_of_empty hm hsl
    | tomb => exact (probeFind_of_pass hm hs (by rw [hsl]; trivial)).2 hge
    | live ref e =>
      dsimp only
      by_cases hr : ref = t.q.ref
      · rw [if_pos hr]
        exact probeFind_of_found hm (hr ▸ hsl)
      · rw [if_neg hr]
        exact (probeFind_of_pass hm hs (by rw [hsl]; exact hr)).2 hge
  | succ left ih =>
    have hlt : t.probes.toNat < maxProbe := by omega
    have hgo (hpass : t.Passes (t.mem t.idx).slot) :
        Leads tick Working (Ending (t.core.endFind t.q.op (find (· + 1) t.core.slots t.q.ref left
          (t.idx + 1)))) t := by
      have hon := (probeFind_of_pass hm hs hpass).1 hlt
      rw [← tick_of_find hs hop] at hon
      have hcount := hon.probes_toNat hlt
      have hrest := ih (t := t.tick) hon.state hon.done (by rw [hon.q]; exact hop)
        (by rw [hcount]; omega) (by rw [hon.mem]; exact hm) rfl
      rw [hon.core, hon.q, hon.idx] at hrest
      exact .next ⟨by rw [hs]; exact fun h => (by cases h), hd⟩ hrest
    rw [TombstoneProbing.find, hslot]
    cases hsl : (t.mem t.idx).slot with
    | empty =>
      refine ending_of_tick hd hs ?_
      rw [tick_of_find hs hop]
      exact probeFind_of_empty hm hsl
    | tomb => exact hgo (by rw [hsl]; trivial)
    | live ref e =>
      dsimp only
      by_cases hr : ref = t.q.ref
      · rw [if_pos hr]
        refine ending_of_tick hd hs ?_
        rw [tick_of_find hs hop]
        exact probeFind_of_found hm (hr ▸ hsl)
      · rw [if_neg hr]
        exact hgo (by rw [hsl]; exact hr)

/-! ### A whole command -/

/-- The table after a command: ready again, `done` raised. -/
structure Served (k : TableCore c) (t : OrderRefTableState c) : Prop extends Ready t where
  done : t.done = true
  core : t.core = k

/-- The last cycle raises `done`. -/
theorem Ending.served {k : TableCore c} (h : Ending k t) : Leads tick Working (Served k) t := by
  refine .next ⟨by rw [h.state]; exact fun h => (by cases h), h.done⟩ (.here ?_)
  have htick : t.tick = { t.clearPulses with done := true, state := .idle } := by
    unfold tick step
    rw [h.state]
  rw [htick]
  exact ⟨⟨rfl, h.marked⟩, rfl, h.core⟩

/-- **A command.** From the cycle it is latched on, the table works until it is done, and then its
memory and results are those of `exec`. -/
theorem Ready.serve (h : Ready t) (cmd : TblCmd) :
    Leads tick Working (Served (t.core.exec cmd)) (t.step true cmd) := by
  have hlatch : t.step true cmd = { t.clearPulses with q := cmd, state := .hash } := by
    unfold step
    rw [h.state]
    rfl
  -- two cycles to the first probe
  let t1 : OrderRefTableState c :=
    { t.clearPulses with q := cmd, hash := hashRef c cmd.ref, state := .home }
  let t2 : OrderRefTableState c :=
    { t1 with idx := hashRef c cmd.ref, probes := 1, haveTomb := false, state := .probe }
  have hwalk : Leads tick Working (Ending (t.core.exec cmd)) t2 := by
    by_cases hop : cmd.op = .insert
    · have := walk_insert (t := t2) TableCore.probeLeft rfl rfl hop rfl h.marked
      rw [TableCore.exec, hop]
      exact this
    · have := walk_find (t := t2) TableCore.probeLeft rfl rfl hop rfl h.marked
      rw [TableCore.exec]
      cases hc : cmd.op with
      | insert => exact (hop hc).elim
      | lookup =>
        rw [show t2.q.op = .lookup from hc] at this
        exact this
      | delete =>
        rw [show t2.q.op = .delete from hc] at this
        exact this
  rw [hlatch]
  refine .next ⟨fun h => (by cases h), rfl⟩ ?_
  refine .next (s := t1) ⟨fun h => (by cases h), rfl⟩ ?_
  exact hwalk.bind fun t' h' => h'.served

end OrderRefTableState

end ItchOrderbook.Rtl
