import ItchOrderbook.Rtl.DepthReferences

/-!
# What `res_found` says after an INSERT

The engine adds depth when `res_found` is set after an INSERT. An INSERT that runs out of probes
leaves the register as it was, so the depth of an order that was never stored is added after a
window of slots has filled up. In every other run the levels are backed by the table, and depth is
added exactly for the orders that are stored.
-/

namespace ItchOrderbook.Rtl

open TombstoneProbing

variable {c : Build}

/-! ## One message -/

/-- What the end of a message in `s'` says about its INSERT, after it was taken in `s`. -/
structure InsertExact (s s' : BookState c) (d : Decoded) : Prop where
  add : BookCore.IsAdd d → inWindow c (d.price - s.core.baseEff d.price) = true →
    (s'.engine.table.resFound = true
        ↔ ¬s.engine.table.HasRef d.orderRef ∧ s'.engine.table.HasRef d.orderRef)
      ∧ (s'.engine.side d.isBid).cnt
        = (s.engine.side d.isBid).cnt + if s'.engine.table.resFound then 1 else 0
  replace : d.mtype = tReplace → inWindow c (d.price - s.engine.bandBase) = true →
    ∀ i, (s.engine.table.mem i).valid = true → (s.engine.table.mem i).oref = d.orderRef →
    (s'.engine.table.resFound = true ↔ s'.engine.table.HasRef d.newOrderRef
        ∧ (d.newOrderRef = d.orderRef ∨ ¬s.engine.table.HasRef d.newOrderRef))
      ∧ (s'.engine.side (s.engine.table.mem i).isBid).cnt + 1
        = (s.engine.side (s.engine.table.mem i).isBid).cnt
          + if s'.engine.table.resFound then 1 else 0

namespace BookCore

variable {k : BookCore c} {live : LiveEntries} {e : OrderEntry} {d : Decoded}

/-- An Add in the band. -/
theorem Backed.add_iff (h : k.Backed live) (hd : IsAdd d)
    (hwin : inWindow c (d.price - k.baseEff d.price) = true) (hfree : ¬k.StaleInsert d) :
    ∃ live', (k.apply d).Backed live'
      ∧ ((k.apply d).table.resFound = true
        ↔ live.lookup d.orderRef = none ∧ live'.lookup d.orderRef ≠ none)
      ∧ ((k.apply d).side d.isBid).cnt
        = (k.side d.isBid).cnt + if (k.apply d).table.resFound then 1 else 0 := by
  have happ : k.apply d
      = ({ k with bandBase := k.baseEff d.price, bandValid := true } : BookCore c).arrive
        (addCmd d) := by
    have hmt : d.mtype = tAdd ∨ d.mtype = tAddMpid := hd
    unfold BookCore.apply BookCore.add
    rw [if_pos hmt]
    exact if_pos hwin
  rw [happ]
  exact (h.rebase d.price).arrive_iff (q := addCmd d) rfl rfl hwin (Or.inl rfl)
    fun hb => hfree (Or.inl ⟨hd, hwin, hb⟩)

/-- The count of a side after one of its orders has left it. -/
theorem Backed.cnt_removed (h : k.Backed live) {live' : LiveEntries} {k' : BookCore c}
    (h' : k'.Backed live') (ho : live.lookup d.orderRef = some e)
    (hlive : live' = live.erase d.orderRef) :
    (k'.side e.isBid).cnt + 1 = (k.side e.isBid).cnt := by
  have htotal : Finmap.totalAt OrderEntry.isBid (fun _ => 1) (live.erase d.orderRef) e.isBid
      + (if e.isBid = e.isBid then 1 else 0) = Finmap.totalAt OrderEntry.isBid (fun _ => 1) live e.isBid :=
    Finmap.totalAt_erase ho e.isBid
  rw [if_pos rfl] at htotal
  rw [(h'.totals e.isBid).cnt, (h.totals e.isBid).cnt, hlive, ← htotal, UInt32.ofNat_add]
  rfl

/-- A Replace in the band, of a live order. -/
theorem Backed.replace_iff (h : k.Backed live) (hd : d.mtype = tReplace)
    (ho : live.lookup d.orderRef = some e)
    (hwin : inWindow c (d.price - k.bandBase) = true) (hfree : ¬k.StaleInsert d) :
    ∃ live', (k.apply d).Backed live'
      ∧ ((k.apply d).table.resFound = true
        ↔ (live.erase d.orderRef).lookup d.newOrderRef = none
          ∧ live'.lookup d.newOrderRef ≠ none)
      ∧ ((k.apply d).side e.isBid).cnt + 1
        = (k.side e.isBid).cnt + if (k.apply d).table.resFound then 1 else 0 := by
  obtain ⟨hred, -, hbase, hvalid⟩ := h.removed ho
  have hlive : live.reduce d.orderRef e (modAmt d e.shares) = live.erase d.orderRef := by
    have hamt : modAmt d e.shares = e.shares := if_pos (Or.inr hd)
    rw [hamt]
    exact if_pos (UInt32.sub_self _)
  have hcnt := h.cnt_removed hred ho hlive
  rw [hlive] at hred
  have happ : k.apply d = (((k.lookup d.orderRef).print d (modAmt d e.shares)).reduce d.orderRef
      (modAmt d e.shares)).arrive (replaceCmd d e.isBid e.locate) := by
    unfold BookCore.apply
    rw [if_neg (by rw [hd]; decide), if_pos (by rw [hd]; decide), modify_some h ho, if_pos hd]
    unfold BookCore.readd
    rw [hbase]
    exact if_pos hwin
  have hbased : k.bandValid = true ∨ c.bandAutoInit = false := by
    rcases h.based with hv | hv | hv
    · exact Or.inl hv
    · exact Or.inr hv
    · rw [hv] at ho
      cases ho
  obtain ⟨live', hb, hiff, harr⟩ := hred.arrive_iff (q := replaceCmd d e.isBid e.locate) rfl rfl
    (by rw [hbase]; exact hwin) (by rw [hvalid]; exact hbased)
    (not_blocked_removed h ho hd hwin hfree)
  rw [happ]
  refine ⟨live', hb, hiff, ?_⟩
  rw [← hcnt, show (BookCore.side _ e.isBid).cnt = _ from harr]
  ac_rfl

end BookCore

namespace BookState

variable {s s' : BookState c}

theorem cnt_core (s : BookState c) (isBid : Bool) :
    (s.core.side isBid).cnt = (s.engine.side isBid).cnt :=
  congrArg SideCore.cnt (side_core ..)

/-- A message served: what its INSERT has answered is what it has done. -/
theorem insertExact_of_apply {live : LiveEntries} {d : Decoded} (h : s.core.Backed live)
    (h' : s'.core = s.core.apply d) (hfree : ¬s.core.StaleInsert d) : InsertExact s s' d where
  add hd hwin := by
    obtain ⟨live', hb, hiff, hcnt⟩ := h.add_iff hd hwin hfree
    rw [← h'] at hb hiff hcnt
    rw [← cnt_core, ← cnt_core, hasRef_iff h.stores, hasRef_iff hb.stores, not_ne_iff]
    exact ⟨hiff, hcnt⟩
  replace hd hwin i hv hr := by
    have ho : live.lookup d.orderRef = some (s.engine.table.mem i) :=
      (h.stores.represents.lookup_iff _ _).mpr ⟨i, OrderEntry.slot_eq_live_iff.mpr ⟨hv, hr, rfl⟩⟩
    obtain ⟨live', hb, hiff, hcnt⟩ := h.replace_iff hd ho hwin hfree
    rw [← h'] at hb hiff hcnt
    rw [← cnt_core, ← cnt_core, hasRef_iff h.stores, hasRef_iff hb.stores, not_ne_iff]
    refine ⟨?_, hcnt⟩
    rw [show s'.engine.table.resFound = s'.core.table.resFound from rfl, hiff, and_comm]
    refine and_congr_right fun _ => ?_
    by_cases hn : d.newOrderRef = d.orderRef
    · rw [hn, Finmap.lookup_erase]
      simp
    · rw [Finmap.lookup_erase_ne hn]
      simp [hn]

/-- The message offered to the engine at rest. -/
def offer (d : Decoded) : EngineIn := { decValid := true, dec := d }

theorem accept_offer {k : BookCore c} (h : s.Rest k) (d : Decoded) :
    s.accept (offer d) = some d := by
  unfold BookState.accept BookUpdateEngineState.decAccept
  rw [h.state]
  rfl

/-- Some cycles after power-up take the messages of a list, and no others. -/
theorem exists_run_taking (c : Build) (base : Option UInt32) (ds : List Decoded) :
    ∃ is : List EngineIn, (∀ i ∈ is, Plain i) ∧ (powerUp c base).taken is = ds
      ∧ (is.foldl BookState.step (powerUp c base)).Rest
        (ds.foldl BookCore.apply (BookCore.powerUp c base)) :=
  serves.exists_run offer (fun _ _ d hs => ⟨⟨rfl, rfl⟩, accept_offer hs d⟩) {} ⟨rfl, rfl⟩
    (rest_powerUp c base) ds (goodRun_true _ _ _)

/-- **Depth and references.** In a run from power-up none of whose messages makes an INSERT run out
of probes while `res_found` is set, the levels of every idle state are the totals over the table;
and the next such message ends with `res_found` saying whether its INSERT stored an order. -/
theorem run_depth_backed (c : Build) (base : Option UInt32) (is : List EngineIn)
    (hi : ∀ i ∈ is, Plain i) (hf : (powerUp c base).NoStaleInsert is) :
    let s := is.foldl BookState.step (powerUp c base)
    (s.engine.state = .idle → s.engine.DepthBacked)
      ∧ ∀ i d, Plain i → s.accept i = some d → ¬s.core.StaleInsert d →
        ∃ n, ∀ js : List EngineIn, js.length = n → (∀ j ∈ js, Plain j) →
          let s' := (i :: js).foldl BookState.step s
          s'.engine.state = .idle ∧ s'.engine.engineDone = true ∧ InsertExact s s' d := by
  intro s
  have hserves : s.ServesBacked :=
    ServesBacked.run ⟨_, ∅, Or.inl (rest_powerUp c base), BookCore.backed_powerUp base⟩ is hi hf
  refine ⟨hserves.depthBacked, fun i d hplain hacc hfree => ?_⟩
  obtain ⟨k, live, hserving, hb⟩ := hserves
  have hrest := (hserving.step_some hplain hacc).1
  obtain ⟨n, hn⟩ := serves.run_of_leads (serves.serve hrest hplain hacc trivial)
  refine ⟨n, fun js hlen hjs => ?_⟩
  obtain ⟨⟨hend, hdone⟩, -⟩ := hn js hlen hjs
  refine ⟨hend.state, hdone, ?_⟩
  rw [← hrest.core] at hb
  exact insertExact_of_apply hb (by rw [hrest.core]; exact hend.core) hfree

/-- An order, the same reference again, and a Replace of the order. -/
def replacedOrder : List Decoded :=
  [{ mtype := tAdd, isBid := true, price := 100, shares := 5, orderRef := 7 },
    { mtype := tAdd, isBid := true, price := 101, shares := 5, orderRef := 7 },
    { mtype := tReplace, price := 102, shares := 3, orderRef := 7, newOrderRef := 8 }]

/-- After them, an Add that repeats the reference of the Replace. -/
theorem run_depth_backed_replaced : ∃ is : List EngineIn,
    (powerUp .simulation (some 0)).taken is = replacedOrder
      ∧ let s := is.foldl BookState.step (powerUp .simulation (some 0))
        let d : Decoded := { mtype := tAdd, price := 103, shares := 1, orderRef := 8 }
        s.engine.DepthBacked ∧ ∃ n, ∀ js : List EngineIn, js.length = n → (∀ j ∈ js, Plain j) →
          InsertExact s ((offer d :: js).foldl BookState.step s) d := by
  obtain ⟨is, hplain, htaken, hrest⟩ := exists_run_taking .simulation (some 0) replacedOrder
  have hgood : GoodRun BookCore.apply (fun k d => ¬k.StaleInsert d)
      (BookCore.powerUp .simulation (some 0)) replacedOrder :=
    ⟨by decide +kernel, by decide +kernel, by decide +kernel, trivial⟩
  rw [← htaken] at hgood
  obtain ⟨hdepth, hnext⟩ := run_depth_backed .simulation (some 0) is hplain
    (Serving.noStaleInsert (Or.inl (rest_powerUp .simulation (some 0))) hplain hgood)
  refine ⟨is, htaken, hdepth hrest.state, ?_⟩
  obtain ⟨n, hn⟩ := hnext (offer { mtype := tAdd, price := 103, shares := 1, orderRef := 8 }) _
    ⟨rfl, rfl⟩ (accept_offer hrest _) (by rw [hrest.core]; decide +kernel)
  exact ⟨n, fun js hlen hjs => (hn js hlen hjs).2.2⟩

end BookState

/-! ## A window of slots that fills up -/

/-- References whose first slot is slot 0: `24923485` inverts the multiplier of the hash. -/
def crowdRef (n : ℕ) : UInt64 := UInt64.ofNat (24923485 * n % 2 ^ 25)

/-- An Add of one share. -/
def crowdAdd (n : ℕ) : Decoded :=
  { mtype := tAdd, isBid := true, price := 100, shares := 1, orderRef := crowdRef n }

/-- The slots with the first `n` orders of the crowd in them. -/
def crowdSlots (n : ℕ) (i : BitVec 16) : Slot UInt64 OrderEntry :=
  if i.toNat < n then .live (crowdRef i.toNat) (BookCore.addCmd (crowdAdd i.toNat)).insEntry
  else .empty

/-- The Adds of the first `n` orders of the crowd. -/
def crowd (n : ℕ) : List Decoded := (List.range n).map crowdAdd

theorem crowd_succ (n : ℕ) : crowd (n + 1) = crowd n ++ [crowdAdd n] := by
  unfold crowd
  rw [List.range_succ, List.map_append]
  rfl

theorem hashRef_crowdRef : ∀ n < 65, hashRef .simulation (crowdRef n) = 0 := by decide +kernel

/-- The number of an order, from its reference. -/
theorem crowdRef_num : ∀ n < 65, (crowdRef n).toNat * 0x13C6EF5 % 2 ^ 25 = n := by decide +kernel

theorem crowdRef_inj {m n : ℕ} (hm : m < 65) (hn : n < 65) (h : crowdRef m = crowdRef n) :
    m = n := by
  rw [← crowdRef_num m hm, h, crowdRef_num n hn]

theorem iterate_succ_zero (n : ℕ) : (· + 1)^[n] (0 : BitVec 16) = BitVec.ofNat 16 n := by
  induction n with
  | zero => rfl
  | succ n ih => rw [Function.iterate_succ_apply', ih, BitVec.ofNat_add]; rfl

theorem toNat_iterate {n : ℕ} (hn : n < 65) : ((· + 1)^[n] (0 : BitVec 16)).toNat = n := by
  rw [iterate_succ_zero, BitVec.toNat_ofNat]
  omega

/-- The slots that the search of the next order passes. -/
theorem crowdSlots_pass {m n : ℕ} (hm : m < n) (hn : n < 65) :
    ∃ ref e, crowdSlots n ((· + 1)^[m] 0) = .live ref e ∧ ref ≠ crowdRef n := by
  have hnat := toNat_iterate (n := m) (by omega)
  refine ⟨crowdRef m, (BookCore.addCmd (crowdAdd m)).insEntry, ?_, fun h => ?_⟩
  · unfold crowdSlots
    rw [hnat, if_pos hm]
  · exact Nat.ne_of_lt hm (crowdRef_inj (by omega) hn h)

theorem seek_crowd {t : TableCore .simulation} {n : ℕ} (ht : t.slots = crowdSlots n) (hn : n < 64) :
    t.seek (crowdRef n) = .place (BitVec.ofNat 16 n) := by
  have hempty : crowdSlots n ((· + 1)^[n] 0) = .empty :=
    if_neg (by rw [toNat_iterate (by omega)]; omega)
  unfold TableCore.seek
  rw [hashRef_crowdRef n (by omega), ht, ← iterate_succ_zero]
  exact seek_empty (Nat.le_of_lt_succ hn) (fun m hm => crowdSlots_pass hm (by omega)) hempty

theorem seek_crowd_full {t : TableCore .simulation} (ht : t.slots = crowdSlots 64) :
    t.seek (crowdRef 64) = .full := by
  unfold TableCore.seek
  rw [hashRef_crowdRef 64 (by decide), ht]
  exact seek_full fun m hm => crowdSlots_pass (Nat.lt_succ_of_le hm) (by decide)

/-- One more order takes the next slot. -/
theorem crowdSlots_succ {n : ℕ} (hn : n < 64) :
    Function.update (crowdSlots n) (BitVec.ofNat 16 n)
      (.live (crowdRef n) (BookCore.addCmd (crowdAdd n)).insEntry) = crowdSlots (n + 1) := by
  have hnat : (BitVec.ofNat 16 n).toNat = n := by
    rw [BitVec.toNat_ofNat]
    omega
  funext i
  rw [Function.update_apply]
  unfold crowdSlots
  by_cases hi : i = BitVec.ofNat 16 n
  · rw [if_pos hi, hi, hnat, if_pos (Nat.lt_succ_self n)]
  · have hne : i.toNat ≠ n := fun h => hi (BitVec.eq_of_toNat_eq (h.trans hnat.symm))
    rw [if_neg hi]
    exact if_congr (by omega) rfl rfl

/-- An Add of the crowd, in the band at 0, that the table answers as stored. -/
theorem apply_crowdAdd {k : BookCore .simulation} (hb : k.bandBase = 0) {n : ℕ}
    {t : TableCore .simulation} (ht : k.table.exec (BookCore.addCmd (crowdAdd n)) = t)
    (hf : t.resFound = true) :
    k.apply (crowdAdd n) = BookCore.setSide
      { k with bandBase := 0, bandValid := true, table := t } true
      ((k.side true).add true (levelAddr .simulation 100) 1) := by
  have hbase : k.baseEff 100 = 0 := (if_pos (Or.inr rfl)).trans hb
  have hadd : (crowdAdd n).mtype = tAdd ∨ (crowdAdd n).mtype = tAddMpid := Or.inl rfl
  have hwin : inWindow .simulation (100 - 0) = true := by decide
  unfold BookCore.apply BookCore.add
  rw [if_pos hadd]
  show (if inWindow _ (100 - k.baseEff 100) then BookCore.arrive _ _ else _) = _
  rw [show k.baseEff (crowdAdd n).price = 0 from hbase, hbase, if_pos hwin]
  unfold BookCore.arrive
  dsimp only
  rw [ht, if_pos hf]
  show BookCore.setSide _ true ((k.side true).add true (levelAddr _ (100 - 0)) 1) = _
  rw [UInt32.sub_zero]

/-- What the first orders of the crowd leave. -/
structure Crowded (n : ℕ) (k : BookCore .simulation) : Prop where
  backed : ∃ live, k.Backed live
  slots : k.table.slots = crowdSlots n
  found : n ≠ 0 → k.table.resFound = true
  base : k.bandBase = 0

theorem crowded_powerUp : Crowded 0 (BookCore.powerUp .simulation (some 0)) where
  backed := ⟨∅, BookCore.backed_powerUp _⟩
  slots := by
    funext i
    exact (if_neg (Nat.not_lt_zero _)).symm
  found h := (h rfl).elim
  base := rfl

/-- The next order of the crowd finds a slot. -/
theorem Crowded.step {n : ℕ} {k : BookCore .simulation} (h : Crowded n k) (hn : n < 64) :
    Crowded (n + 1) (k.apply (crowdAdd n)) := by
  obtain ⟨live, hb⟩ := h.backed
  have hseek := seek_crowd h.slots hn
  have hfree : ¬k.StaleInsert (crowdAdd n) := by
    rintro (⟨-, -, hfull, -⟩ | ⟨hrep, -⟩)
    · rw [show (crowdAdd n).orderRef = crowdRef n from rfl, hseek] at hfull
      cases hfull
    · exact absurd hrep (show tAdd ≠ tReplace by decide)
  have hexec : k.table.exec (BookCore.addCmd (crowdAdd n))
      = { k.table.write (BitVec.ofNat 16 n)
          (.live (crowdRef n) (BookCore.addCmd (crowdAdd n)).insEntry) with resFound := true } := by
    show k.table.endInsert _ (k.table.seek (crowdRef n)) = _
    rw [hseek]
    rfl
  rw [apply_crowdAdd h.base hexec rfl]
  have hb' := hb.apply hfree
  rw [apply_crowdAdd h.base hexec rfl] at hb'
  refine ⟨hb', ?_, fun _ => ?_, ?_⟩
  · rw [BookCore.table_setSide]
    show Function.update k.table.slots _ _ = _
    rw [h.slots]
    exact crowdSlots_succ hn
  · rw [BookCore.table_setSide]
  · rw [BookCore.bandBase_setSide]

/-- The first 64 orders of the crowd fill their window. -/
theorem crowded_crowd {n : ℕ} (hn : n ≤ 64) :
    Crowded n ((crowd n).foldl BookCore.apply (BookCore.powerUp .simulation (some 0))) := by
  induction n with
  | zero => exact crowded_powerUp
  | succ n ih =>
    rw [crowd_succ, List.foldl_append]
    exact (ih (by omega)).step (by omega)

/-- The order after them adds to its side, and is not in the table. -/
theorem Crowded.stale {k : BookCore .simulation} (h : Crowded 64 k) :
    (k.apply (crowdAdd 64)).table.slots = k.table.slots
      ∧ ((k.apply (crowdAdd 64)).side true).cnt = (k.side true).cnt + 1 := by
  have hexec : k.table.exec (BookCore.addCmd (crowdAdd 64))
      = { k.table with insFailCount := k.table.insFailCount + 1 } := by
    show k.table.endInsert _ (k.table.seek (crowdRef 64)) = _
    rw [seek_crowd_full h.slots]
    rfl
  rw [apply_crowdAdd h.base hexec (h.found (by decide)), BookCore.table_setSide,
    BookCore.side_setSide, if_pos rfl]
  exact ⟨rfl, rfl⟩

/-- A run that takes 65 Adds of new references, all with slot 0 as their first, ends in an idle
state whose bid count is not that of the table. -/
theorem depth_without_reference : ∃ is : List EngineIn, (∀ i ∈ is, BookState.Plain i)
    ∧ (BookState.powerUp .simulation (some 0)).taken is = crowd 65
    ∧ (is.foldl BookState.step (BookState.powerUp .simulation (some 0))).engine.state = .idle
    ∧ ¬(is.foldl BookState.step (BookState.powerUp .simulation (some 0))).engine.DepthBacked := by
  obtain ⟨is, hplain, htaken, hrest⟩ :=
    BookState.exists_run_taking .simulation (some 0) (crowd 65)
  refine ⟨is, hplain, htaken, hrest.state, fun hdepth => ?_⟩
  generalize is.foldl BookState.step (BookState.powerUp .simulation (some 0)) = s at hrest hdepth
  have hcrowd := crowded_crowd (n := 64) le_rfl
  have hlast : (crowd 65).foldl BookCore.apply (BookCore.powerUp .simulation (some 0))
      = ((crowd 64).foldl BookCore.apply (BookCore.powerUp .simulation (some 0))).apply
        (crowdAdd 64) := by
    rw [crowd_succ 64, List.foldl_append, List.foldl_cons, List.foldl_nil]
  have hcore := hrest.core
  rw [hlast] at hcore
  generalize (crowd 64).foldl BookCore.apply (BookCore.powerUp .simulation (some 0)) = k
    at hcrowd hcore
  obtain ⟨hslots, hcnt⟩ := hcrowd.stale
  obtain ⟨live, hb⟩ := hcrowd.backed
  rw [← hcore] at hslots hcnt
  -- the table still holds what it held after 64 orders
  have hstores : s.core.table.Stores live := hb.stores.congr hslots
  have htotal := (hdepth true).1
  rw [entryTotal_eq hstores, ← BookState.cnt_core, hcnt, (hb.totals true).cnt] at htotal
  have hsame : (live.total fun _ e => if e.isBid == true then 1 else 0)
      = Finmap.totalAt OrderEntry.isBid (fun _ => 1) live true :=
    Finmap.total_congr fun ref e _ => if_congr beq_iff_eq rfl rfl
  rw [hsame] at htotal
  -- one more than a count is another count
  generalize UInt32.ofNat _ = x at htotal
  grind

end ItchOrderbook.Rtl
