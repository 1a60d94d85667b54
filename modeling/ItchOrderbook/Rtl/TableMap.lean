import ItchOrderbook.Rtl.TableContents

/-!
# The order-reference table as a map, over runs of cycles

`lastStored ref past` is what a map of the commands in `past` holds under `ref`: the last INSERT
that stored it, unless a DELETE came after. In every cycle the table holds each reference at most
once (`OneSlot`), and every command that it takes ends with the answer of the map (`Answer`).
-/

namespace ItchOrderbook.Rtl

open TombstoneProbing

/-- The last INSERT of `ref` that stored its entry, unless a DELETE of `ref` came after it. The
commands stand latest first, each with whether it stored an entry. -/
def lastStored (ref : UInt64) : List (TblCmd × Bool) → Option TblCmd
  | [] => none
  | (q, stored) :: past =>
    if q.ref = ref then
      match q.op with
      | .insert => if stored then some q else lastStored ref past
      | .lookup => lastStored ref past
      | .delete => none
    else lastStored ref past

/-- Whether a command writes its entry: an INSERT that is neither refused nor out of probes. -/
def TableCore.stored {c : Build} (k : TableCore c) (q : TblCmd) : Bool :=
  match q.op with
  | .insert =>
    match k.seek q.ref with
    | .found _ => !q.unique
    | .place _ => true
    | .full => false
  | _ => false

/-- The table with the commands it has served, latest first. -/
structure TableLog (c : Build) where
  core : TableCore c := {}
  past : List (TblCmd × Bool) := []

/-- One more command served. -/
def TableLog.serve {c : Build} (l : TableLog c) (q : TblCmd) : TableLog c where
  core := l.core.exec q
  past := (q, l.core.stored q) :: l.past

/-! ## The commands and the map -/

section Log

variable {c : Build} {l : TableLog c} {live : LiveEntries} {q : TblCmd}

/-- The table holds what a map of its past commands does. -/
def TableLog.Sound (l : TableLog c) : Prop :=
  ∃ live, l.core.Stores live
    ∧ ∀ ref, live.lookup ref = (lastStored ref l.past).map TblCmd.insEntry

theorem TableLog.sound_empty : ({} : TableLog c).Sound :=
  ⟨∅, TableCore.stores_empty, fun _ => Finmap.lookup_empty _⟩

/-- The past of other references does not matter. -/
theorem lastStored_of_ne {ref : UInt64} (h : q.ref ≠ ref) (stored : Bool)
    (past : List (TblCmd × Bool)) : lastStored ref ((q, stored) :: past) = lastStored ref past :=
  if_neg h

/-- A command that is no DELETE and stores nothing leaves the map. -/
theorem lastStored_of_not_stored {past : List (TblCmd × Bool)} (hop : q.op ≠ .delete)
    (ref : UInt64) : lastStored ref ((q, false) :: past) = lastStored ref past := by
  rw [lastStored]
  split
  · cases h : q.op with
    | insert => rfl
    | lookup => rfl
    | delete => exact (hop h).elim
  · rfl

/-- What a stored INSERT does to the map. -/
theorem lookup_insert_stored {past : List (TblCmd × Bool)} (hop : q.op = .insert)
    (hl : ∀ ref, live.lookup ref = (lastStored ref past).map TblCmd.insEntry) (ref : UInt64) :
    (live.insert q.ref q.insEntry).lookup ref
      = (lastStored ref ((q, true) :: past)).map TblCmd.insEntry := by
  by_cases hr : q.ref = ref
  · subst hr
    rw [Finmap.lookup_insert, lastStored, if_pos rfl, hop]
    rfl
  · rw [Finmap.lookup_insert_of_ne _ (Ne.symm hr), lastStored_of_ne hr, hl]

/-- What a DELETE does to the map. -/
theorem lookup_erase_delete {past : List (TblCmd × Bool)} (hop : q.op = .delete)
    (hl : ∀ ref, live.lookup ref = (lastStored ref past).map TblCmd.insEntry) (stored : Bool)
    (ref : UInt64) :
    (live.erase q.ref).lookup ref
      = (lastStored ref ((q, stored) :: past)).map TblCmd.insEntry := by
  by_cases hr : q.ref = ref
  · subst hr
    rw [Finmap.lookup_erase, lastStored, if_pos rfl, hop]
    rfl
  · rw [Finmap.lookup_erase_ne (Ne.symm hr), lastStored_of_ne hr, hl]

end Log

/-- The effect of one command on the table, against the commands `past` before it. -/
structure TblEffect {c : Build} (k : TableCore c) (past : List (TblCmd × Bool)) (q : TblCmd)
    (stored : Bool) (k' : TableCore c) : Prop where
  found : q.op = .lookup → ∀ p, lastStored q.ref past = some p →
    k'.resFound = true ∧ k'.resPrice = p.price ∧ k'.resShares = p.shares ∧ k'.resIsBid = p.isBid
      ∧ k'.resLocate = p.locate
  missing : q.op = .lookup → lastStored q.ref past = none → k'.resFound = false
  duplicate : q.op = .insert → q.unique = true → (lastStored q.ref past).isSome →
    stored = false ∧ k'.resFound = false ∧ k'.insFailCount = k.insFailCount
  stores : stored = true → q.op = .insert ∧ ∃ i, k'.slots i = .live q.ref q.insEntry
  keeps : stored = false → q.op ≠ .delete → k'.slots = k.slots
  refuses : stored = false → q.op = .insert →
    (q.unique = true ∧ (lastStored q.ref past).isSome) ∨ k'.insFailCount = k.insFailCount + 1
  deletes : q.op = .delete → ∀ i v, k'.slots i ≠ .live q.ref v
  others : q.op = .delete → ∀ ref ≠ q.ref, ∀ i v, k'.slots i = .live ref v ↔ k.slots i = .live ref v

section Effect

variable {c : Build} {l : TableLog c} {live : LiveEntries} {q : TblCmd}

/-- An operation as a command of its own, for a LOOKUP or DELETE. -/
theorem TableCore.exec_find (k : TableCore c) (hop : q.op ≠ .insert) :
    k.exec q = k.endFind q.op (k.find q.ref) := by
  unfold TableCore.exec
  cases h : q.op with
  | insert => exact (hop h).elim
  | lookup => rfl
  | delete => rfl

theorem TableCore.stored_of_ne {k : TableCore c} (hop : q.op ≠ .insert) : k.stored q = false := by
  unfold TableCore.stored
  cases h : q.op with
  | insert => exact (hop h).elim
  | lookup => rfl
  | delete => rfl

/-- A LOOKUP answers as the map does, and changes nothing. -/
theorem TableLog.serve_lookup (h : l.core.Stores live)
    (hl : ∀ ref, live.lookup ref = (lastStored ref l.past).map TblCmd.insEntry)
    (hop : q.op = .lookup) :
    (l.serve q).Sound ∧ TblEffect l.core l.past q (l.core.stored q) (l.core.exec q) := by
  have hne : q.op ≠ .insert := by rw [hop]; exact fun h => (by cases h)
  have hslots : (l.core.exec q).slots = l.core.slots := by
    rw [TableCore.exec_find _ hne, hop]
    cases l.core.find q.ref <;> rfl
  have hstored : l.core.stored q = false := TableCore.stored_of_ne hne
  refine ⟨⟨live, h.congr hslots, fun ref => ?_⟩, ?_⟩
  · show _ = (lastStored ref ((q, l.core.stored q) :: l.past)).map _
    rw [hstored, lastStored_of_not_stored (by rw [hop]; exact fun h => (by cases h)), hl]
  have hno {op : TblOp} (ho : op ≠ .lookup) : q.op ≠ op := fun h => ho (h.symm.trans hop)
  rw [hstored]
  exact {
    found := fun _ p hp => by
      have hsome : live.lookup q.ref = some p.insEntry := by rw [hl, hp]; rfl
      obtain ⟨i, hf, hi⟩ := h.find_of_lookup hsome
      have hat : l.core.entryAt i = p.insEntry := by rw [TableCore.entryAt, hi]
      rw [TableCore.exec_find _ hne, hop, hf, TableCore.endFind, hat]
      exact ⟨rfl, rfl, rfl, rfl, rfl⟩
    missing := fun _ hp => by
      have hnone : live.lookup q.ref = none := by rw [hl, hp]; rfl
      rw [TableCore.exec_find _ hne, hop, h.find_of_none hnone]
      rfl
    duplicate := fun hi => (hne hi).elim
    stores := fun h => (by cases h)
    keeps := fun _ _ => hslots
    refuses := fun _ hi => (hne hi).elim
    deletes := fun hd => (hno (fun h => (by cases h)) hd).elim
    others := fun hd => (hno (fun h => (by cases h)) hd).elim }

/-- A DELETE removes the reference, and no other. -/
theorem TableLog.serve_delete (h : l.core.Stores live)
    (hl : ∀ ref, live.lookup ref = (lastStored ref l.past).map TblCmd.insEntry)
    (hop : q.op = .delete) :
    (l.serve q).Sound ∧ TblEffect l.core l.past q (l.core.stored q) (l.core.exec q) := by
  have hne : q.op ≠ .insert := by rw [hop]; exact fun h => (by cases h)
  have hno {op : TblOp} (ho : op ≠ .delete) : q.op ≠ op := fun h => ho (h.symm.trans hop)
  have hstored : l.core.stored q = false := TableCore.stored_of_ne hne
  have hexec := TableCore.exec_find l.core hne
  rw [hop] at hexec
  -- the slots after it: the slot of the reference, if there is one, is a tombstone
  have hslots : (∀ i v, (l.core.exec q).slots i ≠ .live q.ref v)
      ∧ (∀ ref ≠ q.ref, ∀ i v, (l.core.exec q).slots i = .live ref v
          ↔ l.core.slots i = .live ref v)
      ∧ (l.core.exec q).Stores (live.erase q.ref) := by
    rw [hexec]
    cases hlk : live.lookup q.ref with
    | none =>
      rw [h.find_of_none hlk]
      have hnone : ∀ i v, l.core.slots i ≠ .live q.ref v := fun i v hi => by
        rw [(h.represents.lookup_iff q.ref v).mpr ⟨i, hi⟩] at hlk
        cases hlk
      have herase : live.erase q.ref = live := by
        refine Finmap.ext_lookup fun ref => ?_
        by_cases hr : ref = q.ref
        · rw [hr, Finmap.lookup_erase, hlk]
        · rw [Finmap.lookup_erase_ne hr]
      refine ⟨hnone, fun _ _ _ _ => Iff.rfl, ?_⟩
      rw [herase]
      exact h.congr rfl
    | some e =>
      obtain ⟨i, hf, hi⟩ := h.find_of_lookup hlk
      rw [hf]
      have hupd : (l.core.endFind .delete (some i)).slots
          = Function.update l.core.slots i .tomb := rfl
      refine ⟨fun j v => ?_, fun ref hr j v => ?_, ⟨h.probed.bury i, ?_⟩⟩
      · rw [hupd, Function.update_apply]
        split
        · exact fun h => (by cases h)
        · exact fun hj => absurd (h.unique hi hj) ‹_›
      · rw [hupd, Function.update_apply]
        split
        · rename_i hji
          rw [hji, hi]
          refine ⟨fun h => (by cases h), fun hs => ?_⟩
          cases hs
          exact (hr rfl).elim
        · rfl
      · exact h.represents.bury hi fun j w hj => h.unique hi hj
  obtain ⟨hgone, hothers, hstores⟩ := hslots
  refine ⟨⟨live.erase q.ref, hstores, lookup_erase_delete hop hl _⟩, ?_⟩
  rw [hstored]
  exact {
    found := fun hd => (hno (fun h => (by cases h)) hd).elim
    missing := fun hd => (hno (fun h => (by cases h)) hd).elim
    duplicate := fun hi => (hne hi).elim
    stores := fun h => (by cases h)
    keeps := fun _ hd => (hd hop).elim
    refuses := fun _ hi => (hne hi).elim
    deletes := fun _ => hgone
    others := fun _ => hothers }

/-- An INSERT stores its entry, is refused, or runs out of probes. -/
theorem TableLog.serve_insert (h : l.core.Stores live)
    (hl : ∀ ref, live.lookup ref = (lastStored ref l.past).map TblCmd.insEntry)
    (hop : q.op = .insert) :
    (l.serve q).Sound ∧ TblEffect l.core l.past q (l.core.stored q) (l.core.exec q) := by
  have hno {op : TblOp} (ho : op ≠ .insert) : q.op ≠ op := fun h => ho (h.symm.trans hop)
  have hsome : (lastStored q.ref l.past).isSome = (live.lookup q.ref).isSome := by
    rw [hl, Option.isSome_map]
  have hstored : l.core.stored q = match l.core.seek q.ref with
      | .found _ => !q.unique
      | .place _ => true
      | .full => false := by
    unfold TableCore.stored
    rw [hop]
  -- what the INSERT leaves when it stores its entry
  have hstore (hs : l.core.stored q = true)
      (hst : (l.core.exec q).Stores (live.insert q.ref q.insEntry))
      (hdup : ¬(q.unique = true ∧ (live.lookup q.ref).isSome)) :
      (l.serve q).Sound ∧ TblEffect l.core l.past q (l.core.stored q) (l.core.exec q) := by
    refine ⟨⟨_, hst, fun ref => ?_⟩, ?_⟩
    · show _ = (lastStored ref ((q, l.core.stored q) :: l.past)).map _
      rw [hs, lookup_insert_stored hop hl]
    rw [hs]
    exact {
      found := fun hd => (hno (fun h => (by cases h)) hd).elim
      missing := fun hd => (hno (fun h => (by cases h)) hd).elim
      duplicate := fun _ hu hp => (hdup ⟨hu, hsome ▸ hp⟩).elim
      stores := fun _ => ⟨hop, (hst.represents.lookup_iff _ _).mp (Finmap.lookup_insert _)⟩
      keeps := fun h => (by cases h)
      refuses := fun h => (by cases h)
      deletes := fun hd => (hno (fun h => (by cases h)) hd).elim
      others := fun hd => (hno (fun h => (by cases h)) hd).elim }
  -- and when it does not
  have hkeep (hs : l.core.stored q = false) (hslots : (l.core.exec q).slots = l.core.slots)
      (hdup : q.unique = true → (live.lookup q.ref).isSome → (l.core.exec q).resFound = false
        ∧ (l.core.exec q).insFailCount = l.core.insFailCount)
      (hwhy : (q.unique = true ∧ (live.lookup q.ref).isSome)
        ∨ (l.core.exec q).insFailCount = l.core.insFailCount + 1) :
      (l.serve q).Sound ∧ TblEffect l.core l.past q (l.core.stored q) (l.core.exec q) := by
    refine ⟨⟨live, h.congr hslots, fun ref => ?_⟩, ?_⟩
    · show _ = (lastStored ref ((q, l.core.stored q) :: l.past)).map _
      rw [hs, lastStored_of_not_stored (hno fun h => (by cases h)), hl]
    rw [hs]
    exact {
      found := fun hd => (hno (fun h => (by cases h)) hd).elim
      missing := fun hd => (hno (fun h => (by cases h)) hd).elim
      duplicate := fun _ hu hp => ⟨rfl, hdup hu (hsome ▸ hp)⟩
      stores := fun h => (by cases h)
      keeps := fun _ _ => hslots
      refuses := fun _ _ => by rwa [hsome]
      deletes := fun hd => (hno (fun h => (by cases h)) hd).elim
      others := fun hd => (hno (fun h => (by cases h)) hd).elim }
  cases hlk : live.lookup q.ref with
  | some e =>
    obtain ⟨i, hs, -⟩ := h.seek_of_lookup hlk
    rw [hs] at hstored
    cases hu : q.unique with
    | true =>
      have hexec := h.insert_duplicate hlk hop hu
      rw [hu] at hstored
      exact hkeep hstored (by rw [hexec]) (fun _ _ => by rw [hexec]; exact ⟨rfl, rfl⟩)
        (Or.inl ⟨hu, by rw [hlk]; rfl⟩)
    | false =>
      rw [hu] at hstored
      exact hstore hstored (h.update hlk hop hu).1 fun hd => (by rw [hu] at hd; cases hd.1)
  | none =>
    have hfresh : ¬(live.lookup q.ref).isSome = true := by rw [hlk]; exact Bool.false_ne_true
    rcases h.insert_new hlk hop with ⟨hseek, hst, -, -⟩ | ⟨hseek, hexec⟩
    · refine hstore ?_ hst fun hd => hfresh hd.2
      rcases h.seek_of_none hlk with ⟨i, hs, -⟩ | hs
      · rw [hstored, hs]
      · exact (hseek hs).elim
    · rw [hseek] at hstored
      exact hkeep hstored (by rw [hexec]) (fun _ hp => (hfresh hp).elim)
        (Or.inr (by rw [hexec]))

/-- One command: the table is still the map of its past, and has answered as the map does. -/
theorem TableLog.Sound.serve (h : l.Sound) (q : TblCmd) :
    (l.serve q).Sound ∧ TblEffect l.core l.past q (l.core.stored q) (l.core.exec q) := by
  obtain ⟨live, hst, hl⟩ := h
  cases hop : q.op with
  | insert => exact TableLog.serve_insert hst hl hop
  | lookup => exact TableLog.serve_lookup hst hl hop
  | delete => exact TableLog.serve_delete hst hl hop

end Effect

/-! ## Runs of cycles -/

namespace OrderRefTableState

variable {c : Build} {t : OrderRefTableState c} {l : TableLog c}

/-- One cycle, `cmd_valid` and the command at the inputs. -/
def edge (t : OrderRefTableState c) (i : Bool × TblCmd) : OrderRefTableState c := t.step i.1 i.2

/-- The command that a cycle latches. -/
def latches (t : OrderRefTableState c) (i : Bool × TblCmd) : Option TblCmd :=
  if t.state = .idle ∧ i.1 = true then some i.2 else none

/-- Ready, with the memory and the results that the commands of `l` leave. -/
structure Holds (t : OrderRefTableState c) (l : TableLog c) : Prop extends Ready t where
  core : t.core = l.core

/-- The table serves its commands. -/
theorem serves : Serves (@edge c) latches (fun _ => True) tick Working (fun t => t.done = true)
    Holds TableLog.serve (fun _ _ => True) where
  idle {t l i} h _ ha := by
    have hv : i.1 = false := by
      cases hi : i.1 with
      | false => rfl
      | true =>
        rw [latches, if_pos ⟨h.state, hi⟩] at ha
        cases ha
    have hstep : t.edge i = t.clearPulses := by
      unfold edge step
      rw [h.state, hv]
      rfl
    rw [hstep]
    exact ⟨⟨⟨h.state, h.marked⟩, h.core⟩, Bool.false_ne_true⟩
  serve {t l i q} h _ ha _ := by
    unfold latches at ha
    split at ha
    · rename_i hi
      cases ha
      have hserve := h.toReady.serve i.2
      rw [h.core] at hserve
      unfold edge
      rw [hi.2]
      exact hserve.mono fun t' ht => ⟨⟨ht.toReady, ht.core⟩, ht.done⟩
    · cases ha
  waits {t i} hb _ := by
    refine ⟨if_neg fun h => hb.1 h.1, ?_, by rw [hb.2]; exact Bool.false_ne_true⟩
    unfold edge tick step
    cases hs : t.state with
    | idle => exact (hb.1 hs).elim
    | _ => rfl

/-- No reference is valid in two slots. -/
def OneSlot (t : OrderRefTableState c) : Prop :=
  ∀ ref i j, (t.mem i).valid = true → (t.mem i).oref = ref → (t.mem j).valid = true →
    (t.mem j).oref = ref → i = j

theorem oneSlot_of_stores {live : LiveEntries} (h : t.core.Stores live) : t.OneSlot := by
  intro ref i j hi hri hj hrj
  have hlive (x : BitVec c.hashW) (hx : (t.mem x).valid = true) (hr : (t.mem x).oref = ref) :
      t.core.slots x = .live ref (t.mem x) := OrderEntry.slot_eq_live_iff.mpr ⟨hx, hr, rfl⟩
  exact h.unique (hlive j hj hrj) (hlive i hi hri)

/-- A cycle writes to the memory only when it ends a command. -/
theorem mem_tick (t : OrderRefTableState c) (hb : t.state ≠ .idle) :
    t.tick.mem = t.mem ∨ t.tick.state = .done := by
  unfold tick step
  cases hs : t.state with
  | idle => exact (hb hs).elim
  | hash => exact Or.inl rfl
  | home => exact Or.inl rfl
  | done => exact Or.inl rfl
  | probe =>
    dsimp only
    split
    · unfold probeInsert
      dsimp only
      split_ifs <;> first | exact Or.inr rfl | exact Or.inl rfl
    · unfold probeFind
      dsimp only
      split_ifs <;> first | exact Or.inr rfl | exact Or.inl rfl

/-- The table is at rest after the commands of `l`, or at work on the last of them. -/
abbrev Serving (t : OrderRefTableState c) (l : TableLog c) : Prop :=
  Settles tick Working (fun t => t.done = true) Holds t l

/-- The cycle before `done` already has the memory that the command leaves. -/
theorem slots_of_done (hl : Leads tick Working (fun t => Holds t l ∧ t.done = true) t)
    (hs : t.state = .done) : t.core.slots = l.core.slots := by
  have htick : t.tick = { t.clearPulses with done := true, state := .idle } := by
    unfold tick step
    rw [hs]
  cases hl with
  | here h => rw [h.1.core]
  | next hb hl =>
    rw [htick] at hl
    cases hl with
    | here h =>
      rw [← h.1.core]
      rfl
    | next hb' _ => exact (hb'.1 rfl).elim

/-- A command at work keeps each reference in one slot. -/
theorem OneSlot.tick (h : t.OneSlot) (hb : t.state ≠ .idle) (hl : l.Sound)
    (hnext : Leads tick Working (fun t => Holds t l ∧ t.done = true) t.tick) :
    t.tick.OneSlot := by
  obtain ⟨live, hst, -⟩ := hl
  rcases mem_tick t hb with hm | hd
  · unfold OneSlot at h ⊢
    rwa [hm]
  · exact oneSlot_of_stores (hst.congr (slots_of_done hnext hd))

/-- A cycle at rest does not write. -/
theorem mem_edge (hs : t.state = .idle) (i : Bool × TblCmd) : (t.edge i).mem = t.mem := by
  unfold edge step
  rw [hs]
  dsimp only
  split <;> rfl

/-- One cycle, with the commands it leaves. -/
theorem Serving.edge (h : Serving t l) (hl : l.Sound) (hone : t.OneSlot) (i : Bool × TblCmd) :
    Serving (t.edge i) ((t.latches i).toList.foldl TableLog.serve l)
      ∧ ((t.latches i).toList.foldl TableLog.serve l).Sound ∧ (t.edge i).OneSlot := by
  have hstep := serves.settles_step h (i := i) trivial fun _ _ => trivial
  have hsound : ((t.latches i).toList.foldl TableLog.serve l).Sound := by
    cases t.latches i with
    | none => exact hl
    | some q => exact (hl.serve q).1
  refine ⟨hstep, hsound, ?_⟩
  by_cases hs : t.state = .idle
  · unfold OneSlot at hone ⊢
    rwa [mem_edge hs]
  · rcases h with hr | hlead
    · exact (hs hr.state).elim
    · cases hlead with
      | here hr => exact (hs hr.1.state).elim
      | next hb hnext =>
        rw [(serves.waits (i := i) hb trivial).2.1]
        exact hone.tick hs hl hnext

/-- The commands served over a run from power-up. -/
def servedOver (c : Build) (is : List (Bool × TblCmd)) : TableLog c :=
  (accepted edge latches ({} : OrderRefTableState c) is).foldl TableLog.serve {}

/-- After any run. Induction on the cycles. -/
theorem serving_run (c : Build) (is : List (Bool × TblCmd)) :
    Serving (is.foldl edge ({} : OrderRefTableState c)) (servedOver c is)
      ∧ (servedOver c is).Sound ∧ (is.foldl edge ({} : OrderRefTableState c)).OneSlot := by
  have hgen (is : List (Bool × TblCmd)) {t : OrderRefTableState c} {l : TableLog c}
      (h : Serving t l ∧ l.Sound ∧ t.OneSlot) :
      Serving (is.foldl edge t) ((accepted edge latches t is).foldl TableLog.serve l)
        ∧ ((accepted edge latches t is).foldl TableLog.serve l).Sound
        ∧ (is.foldl edge t).OneSlot := by
    induction is generalizing t l with
    | nil => exact h
    | cons i is ih =>
      rw [accepted, List.foldl_append]
      exact ih (h.1.edge h.2.1 h.2.2 i)
  exact hgen is ⟨Or.inl ⟨⟨rfl, fun _ h => (by cases h)⟩, rfl⟩, TableLog.sound_empty,
    fun _ _ _ h => (by cases h)⟩

/-- A command given to the idle table is served next, whatever is offered meanwhile. -/
theorem serve_of_idle (c : Build) (is : List (Bool × TblCmd))
    (hidle : (is.foldl edge ({} : OrderRefTableState c)).state = .idle) (q : TblCmd) :
    let t := is.foldl edge ({} : OrderRefTableState c)
    Holds t (servedOver c is) ∧ ∃ n, ∀ js : List (Bool × TblCmd), js.length = n →
      let t' := ((true, q) :: js).foldl edge t
      Holds t' ((servedOver c is).serve q) ∧ t'.done = true
        ∧ servedOver c (is ++ (true, q) :: js) = (servedOver c is).serve q := by
  intro t
  obtain ⟨hserving, -, -⟩ := serving_run c is
  have hrest : Holds t (servedOver c is) := hserving.rest fun hb => hb.1 hidle
  have htake : t.latches (true, q) = some q := if_pos ⟨hidle, rfl⟩
  obtain ⟨n, hn⟩ := serves.run_of_leads (serves.serve hrest trivial htake trivial)
  refine ⟨hrest, n, fun js hlen => ?_⟩
  obtain ⟨⟨hend, hdone⟩, hnone⟩ := hn js hlen fun _ _ => trivial
  refine ⟨hend, hdone, ?_⟩
  show (accepted edge latches _ _).foldl TableLog.serve _ = _
  rw [accepted_append, List.foldl_append, accepted, hnone, List.append_nil]
  show (t.latches (true, q)).toList.foldl TableLog.serve (servedOver c is) = _
  rw [htake]
  rfl

/-- **The table is a map.** After any cycles, no reference is valid in two slots; and a command
given to the idle table ends, whatever is offered meanwhile, with the effect that a map of the
commands served before has. -/
theorem run_table_map (c : Build) (is : List (Bool × TblCmd)) :
    let t := is.foldl edge ({} : OrderRefTableState c)
    t.OneSlot ∧ (t.state = .idle → ∀ q : TblCmd, ∃ n, ∀ js : List (Bool × TblCmd), js.length = n →
      let t' := ((true, q) :: js).foldl edge t
      t'.state = .idle ∧ t'.done = true
        ∧ ∃ stored, (servedOver c (is ++ (true, q) :: js)).past
            = (q, stored) :: (servedOver c is).past
          ∧ TblEffect t.core (servedOver c is).past q stored t'.core) := by
  intro t
  obtain ⟨-, hsound, hone⟩ := serving_run c is
  refine ⟨hone, fun hidle q => ?_⟩
  obtain ⟨hrest, n, hn⟩ := serve_of_idle c is hidle q
  refine ⟨n, fun js hlen => ?_⟩
  obtain ⟨hend, hdone, hserved⟩ := hn js hlen
  refine ⟨hend.state, hdone, _, congrArg TableLog.past hserved, ?_⟩
  rw [hrest.core, show (((true, q) :: js).foldl edge t).core = _ from hend.core]
  exact (hsound.serve q).2

/-- Some cycles serve the commands of a list, one after the other. -/
theorem exists_run (c : Build) (qs : List TblCmd) : ∃ is : List (Bool × TblCmd),
    servedOver c is = qs.foldl TableLog.serve {}
      ∧ Holds (is.foldl edge ({} : OrderRefTableState c)) (servedOver c is) := by
  have hpower : Holds ({} : OrderRefTableState c) {} := ⟨⟨rfl, fun _ h => (by cases h)⟩, rfl⟩
  obtain ⟨is, -, htaken, hrest⟩ := serves.exists_run (fun q => (true, q))
    (fun t l q ht => ⟨trivial, if_pos ⟨ht.state, rfl⟩⟩) (false, {}) trivial hpower qs
    (goodRun_true _ _ _)
  have hserved : servedOver c is = qs.foldl TableLog.serve {} := by
    unfold servedOver
    rw [htaken]
  exact ⟨is, hserved, hserved ▸ hrest⟩

/-- Two orders with hash 0, the first of them deleted. -/
def tombCmds : List TblCmd :=
  [{ ref := 24923485, price := 100, shares := 5 }, { ref := 16292538, price := 101, shares := 7 },
    { op := .delete, ref := 24923485 }]

/-- A LOOKUP past the tombstone that a DELETE left, in the slot the search begins with. -/
theorem run_table_map_lookup_past_tomb : ∃ is : List (Bool × TblCmd),
    let t := is.foldl edge ({} : OrderRefTableState .simulation)
    t.core.slots (hashRef .simulation 16292538) = .tomb
      ∧ ∃ n, ∀ js : List (Bool × TblCmd), js.length = n →
        let t' := ((true, { op := .lookup, ref := 16292538 }) :: js).foldl edge t
        t'.resFound = true ∧ t'.resPrice = 101 ∧ t'.resShares = 7 := by
  obtain ⟨is, hserved, hrest⟩ := exists_run .simulation tombCmds
  obtain ⟨n, hn⟩ := (run_table_map .simulation is).2 hrest.state { op := .lookup, ref := 16292538 }
  refine ⟨is, ?_, n, fun js hlen => ?_⟩
  · rw [hrest.core, hserved]
    rfl
  · obtain ⟨-, -, stored, -, heffect⟩ := hn js hlen
    rw [hserved] at heffect
    obtain ⟨hfound, hprice, hshares, -⟩ := heffect.found rfl
      { ref := 16292538, price := 101, shares := 7 } rfl
    exact ⟨hfound, hprice, hshares⟩

end OrderRefTableState

end ItchOrderbook.Rtl
