import ItchOrderbook.Rtl.InsertAnswers
import ItchOrderbook.Rtl.TableMap

/-!
# When an INSERT finds no place

An INSERT looks at the 64 slots from the hash of its reference on. It tests the tombstone register
in the clock edge that sets it, so a tombstone in the last of these slots does not count: an INSERT
gives up although it has seen a slot it could use exactly when that slot is the only one
(`run_insert_window`).
-/

namespace ItchOrderbook.Rtl

open TombstoneProbing

namespace OrderRefTableState

variable {c : Build} {t t' : OrderRefTableState c} {q : TblCmd}

/-- The `m`-th slot that a search for a reference looks at. -/
def window (t : OrderRefTableState c) (ref : UInt64) (m : ℕ) : OrderEntry :=
  t.mem ((· + 1)^[m] (hashRef c ref))

/-- A live entry of another reference. -/
def Other (e : OrderEntry) (ref : UInt64) : Prop := e.valid = true ∧ e.oref ≠ ref

/-- The reference has no live entry. -/
def NotLive (t : OrderRefTableState c) (ref : UInt64) : Prop :=
  ∀ i, (t.mem i).valid = true → (t.mem i).oref ≠ ref

/-- The entry of a command is stored, and no failure counted. -/
def StoredBy (t t' : OrderRefTableState c) (q : TblCmd) : Prop :=
  t'.insFailCount = t.insFailCount ∧ ∃ i, t'.mem i = q.insEntry

/-- A failure is counted only if the whole window holds live entries of other references, and the
entry is stored if some slot of the window is a tombstone or empty. -/
def FailsOnlyWhenFull (t t' : OrderRefTableState c) (q : TblCmd) : Prop :=
  (t'.insFailCount = t.insFailCount + 1 → ∀ m < maxProbe, Other (t.window q.ref m) q.ref)
    ∧ ((∃ m < maxProbe, (t.window q.ref m).valid = false) → StoredBy t t' q)

/-- The only slot of the window that is not live is the last, and it is a tombstone. -/
def OnlyLastTomb (t : OrderRefTableState c) (ref : UInt64) : Prop :=
  (∀ m < maxProbe - 1, Other (t.window ref m) ref)
    ∧ (t.window ref (maxProbe - 1)).valid = false ∧ (t.window ref (maxProbe - 1)).tomb = true

/-- The slot of an entry is live with another key exactly for an entry of another reference. -/
theorem slot_other_iff {e : OrderEntry} {ref : UInt64} :
    (∃ k' v, e.slot = .live k' v ∧ k' ≠ ref) ↔ Other e ref := by
  constructor
  · rintro ⟨k', v, hs, hne⟩
    obtain ⟨hv, hr, -⟩ := OrderEntry.slot_eq_live_iff.1 hs
    exact ⟨hv, hr ▸ hne⟩
  · rintro ⟨hv, hne⟩
    exact ⟨_, _, OrderEntry.slot_of_valid hv, hne⟩

/-- The search gives up where the first 63 slots are live and the last is not empty. -/
theorem seek_core_full_iff (hnew : t.NotLive q.ref) : t.core.seek q.ref = .full ↔
    (∀ m < maxProbe - 1, Other (t.window q.ref m) q.ref)
      ∧ (t.window q.ref (maxProbe - 1)).slot ≠ .empty := by
  refine seek_eq_full_iff.trans (and_congr ?_ (and_iff_left ?_))
  · exact forall_congr' fun m => forall_congr' fun _ => slot_other_iff
  · intro v hv
    obtain ⟨hvalid, hr, -⟩ := OrderEntry.slot_eq_live_iff.1 hv
    exact hnew _ hvalid hr

theorem lookup_of_notLive {live : LiveEntries} (h : t.core.Stores live) (hnew : t.NotLive q.ref) :
    live.lookup q.ref = none := by
  cases hl : live.lookup q.ref with
  | none => rfl
  | some e =>
    obtain ⟨i, -, hi⟩ := h.find_of_lookup hl
    obtain ⟨hv, hr, -⟩ := OrderEntry.slot_eq_live_iff.1 hi
    exact (hnew i hv hr).elim

/-- A window whose first 63 slots are live: the last decides. -/
theorem other_of_lt {ref : UInt64} (h : ∀ m < maxProbe - 1, Other (t.window ref m) ref)
    (hlast : Other (t.window ref (maxProbe - 1)) ref) : ∀ m < maxProbe, Other (t.window ref m) ref := by
  intro m hm
  rcases Nat.lt_or_ge m (maxProbe - 1) with hlt | hge
  · exact h m hlt
  · obtain rfl : m = maxProbe - 1 := by omega
    exact hlast

/-- An INSERT of a reference that is not live. -/
theorem insert_window {live : LiveEntries} (h : t.core.Stores live) (hnew : t.NotLive q.ref)
    (hop : q.op = .insert) (hend : t'.core = t.core.exec q) :
    FailsOnlyWhenFull t t' q ↔ ¬ t.OnlyLastTomb q.ref := by
  have hcount : t'.insFailCount = (t.core.exec q).insFailCount :=
    congrArg TableCore.insFailCount hend
  rcases h.insert_new (lookup_of_notLive h hnew) hop with
    ⟨hseek, hstores, -, hsame⟩ | ⟨hseek, hexec⟩
  · -- a place is found: the entry is stored, and the count stands
    have hstand : t'.insFailCount = t.insFailCount := hcount.trans hsame
    have hstored : StoredBy t t' q := by
      obtain ⟨i, hi⟩ := (hstores.represents.lookup_iff q.ref q.insEntry).1
        (Finmap.lookup_insert live)
      rw [← hend] at hi
      exact ⟨hstand, i, (OrderEntry.slot_eq_live_iff.1 hi).2.2⟩
    have hmoved : t'.insFailCount ≠ t.insFailCount + 1 := by
      rw [hstand]
      intro hc
      have hnat := congrArg UInt32.toNat hc
      rw [UInt32.toNat_add] at hnat
      change _ = (t.insFailCount.toNat + 1) % 2 ^ 32 at hnat
      omega
    refine iff_of_true ⟨fun hc => (hmoved hc).elim, fun _ => hstored⟩ fun honly => hseek ?_
    refine (seek_core_full_iff hnew).2 ⟨honly.1, fun hs => ?_⟩
    rw [OrderEntry.slot_of_tomb honly.2.1 honly.2.2] at hs
    cases hs
  · -- the search gives up: the last slot is live, or a tombstone that does not count
    have hfail : t'.insFailCount = t.insFailCount + 1 := by
      rw [hcount, hexec]
      rfl
    obtain ⟨hothers, hlast⟩ := (seek_core_full_iff hnew).1 hseek
    cases hv : (t.window q.ref (maxProbe - 1)).valid with
    | true =>
      have hall := other_of_lt hothers ⟨hv, hnew _ hv⟩
      refine iff_of_true ⟨fun _ => hall, ?_⟩ fun honly => ?_
      · rintro ⟨m, hm, hfree⟩
        rw [(hall m hm).1] at hfree
        cases hfree
      · have hfree := honly.2.1
        rw [hv] at hfree
        cases hfree
    | false =>
      have htomb : (t.window q.ref (maxProbe - 1)).tomb = true := by
        cases ht : (t.window q.ref (maxProbe - 1)).tomb with
        | true => rfl
        | false => exact (hlast (OrderEntry.slot_of_empty hv ht)).elim
      refine iff_of_false (fun hgood => ?_) (not_not_intro ⟨hothers, hv, htomb⟩)
      have hlive := (hgood.1 hfail (maxProbe - 1) (by decide)).1
      rw [hv] at hlive
      cases hlive

/-! ## A full window with one order deleted -/

theorem core_foldl_serve {c : Build} (qs : List TblCmd) (l : TableLog c) :
    (qs.foldl TableLog.serve l).core = qs.foldl TableCore.exec l.core := by
  induction qs generalizing l with
  | nil => rfl
  | cons q qs ih => exact ih (l.serve q)

theorem slots_insert {c : Build} {k : TableCore c} {q : TblCmd} {i : BitVec c.hashW}
    (hop : q.op = .insert) (hseek : k.seek q.ref = .place i) :
    (k.exec q).slots = Function.update k.slots i q.insEntry.slot := by
  unfold TableCore.exec
  rw [hop]
  dsimp only
  rw [hseek]
  rfl

theorem slots_delete {c : Build} {k : TableCore c} {ref : UInt64} {i : BitVec c.hashW}
    (hfind : k.find ref = some i) :
    (k.exec { op := .delete, ref := ref }).slots = Function.update k.slots i .tomb := by
  show (k.endFind .delete (k.find ref)).slots = _
  rw [hfind]
  rfl

/-- The commands that store the first `n` orders of the crowd. -/
def crowdCmds (n : ℕ) : List TblCmd := (List.range n).map fun m => BookCore.addCmd (crowdAdd m)

/-- They fill the first slots. -/
theorem slots_crowdCmds {n : ℕ} (hn : n ≤ 64) :
    ((crowdCmds n).foldl TableCore.exec ({} : TableCore .simulation)).slots = crowdSlots n := by
  induction n with
  | zero =>
    funext i
    exact (if_neg (Nat.not_lt_zero _)).symm
  | succ n ih =>
    have hslots := ih (Nat.le_of_succ_le hn)
    have hseek := seek_crowd hslots (Nat.lt_of_succ_le hn)
    have hcmds : crowdCmds (n + 1) = crowdCmds n ++ [BookCore.addCmd (crowdAdd n)] := by
      unfold crowdCmds
      rw [List.range_succ, List.map_append]
      rfl
    have hnext := slots_insert (q := BookCore.addCmd (crowdAdd n)) rfl hseek
    rw [hslots] at hnext
    rw [hcmds, List.foldl_append]
    exact hnext.trans (crowdSlots_succ (Nat.lt_of_succ_le hn))

/-- The slots of the crowd with its order `d` deleted. -/
def buriedSlots (d : ℕ) : BitVec 16 → Slot UInt64 OrderEntry :=
  Function.update (crowdSlots 64) (BitVec.ofNat 16 d) .tomb

/-- The commands that lead there. -/
def buriedCmds (d : ℕ) : List TblCmd := crowdCmds 64 ++ [{ op := .delete, ref := crowdRef d }]

theorem crowdSlots_live {n m : ℕ} (hm : m < n) (hn : n < 65) :
    crowdSlots n (BitVec.ofNat 16 m) =
      .live (crowdRef m) (BookCore.addCmd (crowdAdd m)).insEntry := by
  have hnat : (BitVec.ofNat 16 m).toNat = m := by
    rw [BitVec.toNat_ofNat]
    omega
  unfold crowdSlots
  rw [hnat, if_pos hm]

/-- Where an order of the crowd is live. -/
theorem eq_of_crowdSlots_live {n m : ℕ} (hm : m < 65) (hn : n < 65) {i : BitVec 16} {e : OrderEntry}
    (h : crowdSlots n i = .live (crowdRef m) e) : i = BitVec.ofNat 16 m ∧ m < n := by
  unfold crowdSlots at h
  split at h
  · rename_i hlt
    obtain ⟨hr, -⟩ := Slot.live.inj h
    have hnum := crowdRef_inj (by omega) hm hr
    subst hnum
    exact ⟨(BitVec.ofNat_toNat 16 i).symm.trans (by simp), hlt⟩
  · cases h

theorem find_crowd {k : TableCore .simulation} (hslots : k.slots = crowdSlots 64) {d : ℕ}
    (hd : d < 64) : k.find (crowdRef d) = some (BitVec.ofNat 16 d) := by
  unfold TableCore.find
  rw [hslots, hashRef_crowdRef d (by omega)]
  refine find_of_reach (n := d) (Nat.le_of_lt_succ hd) (iterate_succ_zero d)
    (crowdSlots_live hd (by decide)) (fun m hm => ?_)
    fun x w hx => (eq_of_crowdSlots_live (by omega) (by decide) hx).1
  obtain ⟨ref, e, hlive, -⟩ := crowdSlots_pass (m := m) (n := 64) (by omega) (by decide)
  intro hempty
  cases hlive.symm.trans hempty

theorem slots_buriedCmds {d : ℕ} (hd : d < 64) :
    ((buriedCmds d).foldl TableCore.exec ({} : TableCore .simulation)).slots = buriedSlots d := by
  have hslots := slots_crowdCmds (n := 64) le_rfl
  have hnext := slots_delete (find_crowd hslots hd)
  rw [hslots] at hnext
  rw [buriedCmds, List.foldl_append, List.foldl_cons, List.foldl_nil]
  exact hnext

section Buried

variable {t : OrderRefTableState .simulation} {d : ℕ}

/-- The slots that a search for the next order of the crowd looks at. -/
theorem slot_window_buried (h : t.core.slots = buriedSlots d) (m : ℕ) :
    (t.window (crowdRef 64) m).slot = buriedSlots d (BitVec.ofNat 16 m) := by
  have hentry : t.window (crowdRef 64) m = t.mem (BitVec.ofNat 16 m) := by
    unfold OrderRefTableState.window
    rw [hashRef_crowdRef 64 (by decide)]
    exact congrArg t.mem (iterate_succ_zero m)
  rw [hentry]
  exact congrFun h _

/-- It passes the other orders of the crowd. -/
theorem other_buried (h : t.core.slots = buriedSlots d) (hd : d < 64) {m : ℕ} (hm : m < 64)
    (hne : m ≠ d) : Other (t.window (crowdRef 64) m) (crowdRef 64) := by
  have hslot : BitVec.ofNat 16 m ≠ BitVec.ofNat 16 d := by
    intro heq
    have hnat := congrArg BitVec.toNat heq
    rw [BitVec.toNat_ofNat, BitVec.toNat_ofNat] at hnat
    omega
  rw [← slot_other_iff, slot_window_buried h, buriedSlots, Function.update_of_ne hslot,
    crowdSlots_live hm (by decide)]
  exact ⟨_, _, rfl, fun heq => absurd (crowdRef_inj (by omega) (by decide) heq) (by omega)⟩

/-- In the place of the deleted order it finds a tombstone. -/
theorem tomb_buried (h : t.core.slots = buriedSlots d) (hm : Marked t.mem) :
    (t.window (crowdRef 64) d).valid = false ∧ (t.window (crowdRef 64) d).tomb = true := by
  have hslot := slot_window_buried h d
  rw [buriedSlots, Function.update_self] at hslot
  have hentry := entry_of_slot hm ((· + 1)^[d] (hashRef .simulation (crowdRef 64)))
  rwa [show (t.mem _).slot = .tomb from hslot] at hentry

theorem buriedSlots_ne_live (i : BitVec 16) (e : OrderEntry) :
    buriedSlots d i ≠ .live (crowdRef 64) e := by
  intro hlive
  unfold buriedSlots at hlive
  rw [Function.update_apply] at hlive
  split at hlive
  · cases hlive
  · exact absurd (eq_of_crowdSlots_live (by decide) (by decide) hlive).2 (by decide)

theorem notLive_buried (h : t.core.slots = buriedSlots d) : t.NotLive (crowdRef 64) := by
  intro i hv hr
  have hlive := (congrFun h i).symm.trans (OrderEntry.slot_of_valid hv)
  rw [hr] at hlive
  exact buriedSlots_ne_live i _ hlive

/-- A run that leaves the table so. -/
theorem exists_run_buried (hd : d < 64) : ∃ is : List (Bool × TblCmd),
    (is.foldl edge ({} : OrderRefTableState .simulation)).core.slots = buriedSlots d
      ∧ Ready (is.foldl edge ({} : OrderRefTableState .simulation)) := by
  obtain ⟨is, hserved, hrest⟩ := exists_run .simulation (buriedCmds d)
  refine ⟨is, ?_, hrest.toReady⟩
  rw [hrest.core, hserved, core_foldl_serve]
  exact slots_buriedCmds hd

end Buried

/-! ## Runs of cycles -/

/-- A command given to the idle table ends, whatever is offered meanwhile, with the operation done
on what the table stores. -/
theorem exec_of_idle (c : Build) (is : List (Bool × TblCmd))
    (hidle : (is.foldl edge ({} : OrderRefTableState c)).state = .idle) (q : TblCmd) :
    let t := is.foldl edge ({} : OrderRefTableState c)
    (∃ live, t.core.Stores live) ∧ ∃ n, ∀ js : List (Bool × TblCmd), js.length = n →
      let t' := ((true, q) :: js).foldl edge t
      t'.state = .idle ∧ t'.done = true ∧ t'.core = t.core.exec q := by
  intro t
  obtain ⟨-, ⟨live, hstores, -⟩, -⟩ := serving_run c is
  obtain ⟨hrest, n, hn⟩ := serve_of_idle c is hidle q
  refine ⟨⟨live, hrest.core ▸ hstores⟩, n, fun js hlen => ?_⟩
  obtain ⟨hend, hdone, -⟩ := hn js hlen
  exact ⟨hend.state, hdone, by rw [hrest.core]; exact hend.core⟩

/-- After any cycles, an INSERT of a reference that is not live, given to the idle table, ends,
whatever is offered meanwhile; and it fails only when its window is full unless the last slot of
the window is a tombstone and the others are live. -/
theorem run_insert_window (c : Build) (is : List (Bool × TblCmd))
    (hidle : (is.foldl edge ({} : OrderRefTableState c)).state = .idle) {q : TblCmd}
    (hop : q.op = .insert) (hnew : (is.foldl edge ({} : OrderRefTableState c)).NotLive q.ref) :
    ∃ n, ∀ js : List (Bool × TblCmd), js.length = n →
      let t := is.foldl edge ({} : OrderRefTableState c)
      let t' := ((true, q) :: js).foldl edge t
      t'.state = .idle ∧ t'.done = true ∧
        (FailsOnlyWhenFull t t' q ↔ ¬ t.OnlyLastTomb q.ref) := by
  obtain ⟨⟨live, hstores⟩, n, hn⟩ := exec_of_idle c is hidle q
  refine ⟨n, fun js hlen => ?_⟩
  obtain ⟨hend, hdone, hcore⟩ := hn js hlen
  exact ⟨hend, hdone, insert_window hstores hnew hop hcore⟩

/-- 64 orders with one hash, the last but one of them deleted: the next order with that hash takes
the place of the tombstone. -/
theorem run_insert_window_before_last : ∃ is : List (Bool × TblCmd),
    (∀ m < maxProbe, m ≠ 62 →
        Other ((is.foldl edge ({} : OrderRefTableState .simulation)).window (crowdRef 64) m)
          (crowdRef 64))
      ∧ ∃ n, ∀ js : List (Bool × TblCmd), js.length = n →
        StoredBy (is.foldl edge ({} : OrderRefTableState .simulation))
          (((true, BookCore.addCmd (crowdAdd 64)) :: js).foldl edge
            (is.foldl edge ({} : OrderRefTableState .simulation)))
          (BookCore.addCmd (crowdAdd 64)) := by
  obtain ⟨is, hslots, hready⟩ := exists_run_buried (d := 62) (by decide)
  obtain ⟨n, hn⟩ := run_insert_window .simulation is hready.state
    (q := BookCore.addCmd (crowdAdd 64)) rfl (notLive_buried hslots)
  obtain ⟨hfree, -⟩ := tomb_buried hslots hready.marked
  refine ⟨is, fun m hm hne => other_buried hslots (by decide) hm hne, n, fun js hlen => ?_⟩
  obtain ⟨-, -, hiff⟩ := hn js hlen
  refine (hiff.2 fun honly => ?_).2 ⟨62, by decide, hfree⟩
  have hlive := (honly.1 62 (by decide)).1
  exact absurd (hfree.symm.trans hlive) (by decide)

/-- 64 orders with one hash, the last of them deleted: the next order with that hash fails beside
the tombstone. -/
theorem insert_fails_beside_tomb : ∃ is : List (Bool × TblCmd),
    (is.foldl edge ({} : OrderRefTableState .simulation)).state = .idle
      ∧ (is.foldl edge ({} : OrderRefTableState .simulation)).NotLive (crowdRef 64)
      ∧ ∃ n, ∀ js : List (Bool × TblCmd), js.length = n →
        ¬ FailsOnlyWhenFull (is.foldl edge ({} : OrderRefTableState .simulation))
          (((true, BookCore.addCmd (crowdAdd 64)) :: js).foldl edge
            (is.foldl edge ({} : OrderRefTableState .simulation)))
          (BookCore.addCmd (crowdAdd 64)) := by
  obtain ⟨is, hslots, hready⟩ := exists_run_buried (d := 63) (by decide)
  have honly : (is.foldl edge ({} : OrderRefTableState .simulation)).OnlyLastTomb (crowdRef 64) :=
    ⟨fun m hm => other_buried hslots (by decide) (Nat.lt_succ_of_lt hm) (Nat.ne_of_lt hm),
      tomb_buried hslots hready.marked⟩
  have hnew := notLive_buried hslots
  refine ⟨is, hready.state, hnew, ?_⟩
  obtain ⟨⟨live, hstores⟩, n, hn⟩ :=
    exec_of_idle .simulation is hready.state (BookCore.addCmd (crowdAdd 64))
  refine ⟨n, fun js hlen hgood => ?_⟩
  obtain ⟨-, -, hcore⟩ := hn js hlen
  exact (insert_window hstores hnew rfl hcore).1 hgood honly

end OrderRefTableState

end ItchOrderbook.Rtl
