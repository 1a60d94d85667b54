import ItchOrderbook.Rtl.EnginePhases

/-!
# One message through the engine

The engine takes a message at rest and works on it until it raises `engine_done`; then it is at
rest again and its book is that of `BookCore.apply` (`serves`).
-/

namespace ItchOrderbook.Rtl

namespace BookState

variable {c : Build} {k : BookCore c} {l : Latch c} {s : BookState c}

/-! ## A whole message -/

/-- The registers hold a message. -/
structure Holds (d : Decoded) (l : Latch c) : Prop where
  mtype : l.mtype = d.mtype
  isReplace : l.isReplace = true ↔ d.mtype = tReplace
  ref : l.ref = d.orderRef
  newRef : l.newRef = d.newOrderRef
  price : l.decPrice = d.price
  shares : l.decShares = d.shares
  printable : l.printable = d.printable

variable {d : Decoded}

/-- The amount taken is that of the message. -/
theorem Holds.modAmt (h : Holds d l) (t : TableCore c) (base : UInt32) :
    (l.resting t base).modAmt = BookCore.modAmt d t.resShares := by
  unfold Latch.modAmt BookCore.modAmt Latch.resting
  dsimp only
  rw [h.mtype, h.shares]
  simp only [h.isReplace]

/-- The trade event is that of the message. -/
theorem Holds.printed (h : Holds d l) (t : TableCore c) (base : UInt32) {k : BookCore c}
    (hk : k.table = t) :
    { k with sums := (l.resting t base).printed k.sums }
      = k.print d (BookCore.modAmt d t.resShares) := by
  subst hk
  have hamt := h.modAmt k.table base
  unfold Latch.printed BookCore.print
  rw [hamt]
  unfold Latch.resting
  dsimp only
  rw [h.mtype, h.price, h.printable]
  split
  · rfl
  · split <;> rfl

/-- A reduction, level first, then the table, then the tracker. -/
theorem reduce_eq (k : BookCore c) (sums : TradeSums) (ref : UInt64) (amt : UInt32) (isBid : Bool)
    (hb : k.table.resIsBid = isBid) :
    let a := k.addr k.table.resPrice
    let left := k.table.resShares - amt
    let k₂ : BookCore c :=
      { k.setSide isBid ((k.side isBid).take a amt (left == 0)) with sums := sums }
    let k₃ : BookCore c := { k₂ with table := k₂.table.exec (BookCore.restCmd k.table ref left) }
    { k with sums := sums }.reduce ref amt
      = k₃.setSide isBid ((k₃.side isBid).settle isBid a) := by
  unfold BookCore.reduce
  dsimp only
  rw [hb]
  cases isBid <;> rfl

/-- The phases of a modify message, put together. -/
theorem modify_eq (h : Holds d l) (hf : (k.lookup l.ref).table.resFound = true) :
    let k₁ := k.lookup l.ref
    let l₁ := l.resting k₁.table k.bandBase
    let l₂ := l₁.reduced (k₁.side l₁.rSide)
    let k₂ := modLevel k₁ l₁
    let k₃ : BookCore c := { k₂ with table := k₂.table.exec l₂.restCmd }
    let k₄ := k₃.setSide l₂.rSide ((k₃.side l₂.rSide).settle l₂.rSide l₂.lvlAddr)
    k.modify d = if d.mtype = tReplace then k₄.readd d l₂.rSide l₂.rLocate else k₄ := by
  intro k₁ l₁ l₂ k₂ k₃ k₄
  have hamt : l₁.modAmt = BookCore.modAmt d k₁.table.resShares := h.modAmt _ _
  have hprint : { k₁ with sums := l₁.printed k₁.sums }
      = k₁.print d (BookCore.modAmt d k₁.table.resShares) := h.printed _ _ rfl
  have hreduce : k₄ = (k₁.print d (BookCore.modAmt d k₁.table.resShares)).reduce l.ref
      (BookCore.modAmt d k₁.table.resShares) := by
    rw [← hprint, ← hamt, reduce_eq k₁ _ l.ref l₁.modAmt _ rfl]
    rfl
  rw [BookCore.modify, ← h.ref, show (k.lookup l.ref).table.resFound = true from hf, if_pos rfl,
    hreduce]
  rfl

/-- `emptied_q` says whether the level written has shares left. -/
theorem emptied_modLevel (k : BookCore c) (l : Latch c) (t : TableCore c) :
    (l.reduced (k.side l.rSide)).emptied
      = ((BookCore.side { modLevel k l with table := t } l.rSide).sharesMem l.lvlAddr == 0) := by
  have hside : BookCore.side { modLevel k l with table := t } l.rSide
      = (k.side l.rSide).take l.lvlAddr l.modAmt (l.rRem - l.modAmt == 0) := by
    unfold modLevel
    cases l.rSide <;> rfl
  have hlevel : ((k.side l.rSide).take l.lvlAddr l.modAmt (l.rRem - l.modAmt == 0)).sharesMem
      l.lvlAddr = (k.side l.rSide).sharesMem l.lvlAddr - l.modAmt := Function.update_self ..
  rw [hside, hlevel]
  rfl

/-- What comes after the removal: the second half of a Replace, or the end. -/
theorem Sit.readd {base : UInt32} (hb : k.bandBase = base)
    (h : Sit (l.after base) (dropped k l) l s) (hd : Holds d l) :
    Leads work Busy (Finished
      (if d.mtype = tReplace then k.readd d l.rSide l.rLocate else k)) s := by
  subst hb
  unfold Latch.after dropped at h
  unfold BookCore.readd
  by_cases hr : d.mtype = tReplace
  · rw [if_pos hr]
    by_cases hw : inWindow c (l.decPrice - k.bandBase) = true
    · rw [if_pos ⟨hd.isReplace.mpr hr, hw⟩, if_neg (fun hn => hn.2 hw)] at h
      rw [hd.price] at hw
      rw [if_pos hw]
      have hins := h.insert (raddPath c)
      rw [hd.newRef, hd.price, hd.shares] at hins
      exact hins
    · rw [if_neg (fun hn => hw hn.2), if_pos ⟨hd.isReplace.mpr hr, hw⟩] at h
      rw [hd.price] at hw
      rw [if_neg hw]
      exact h.finish
  · rw [if_neg hr]
    have hl : ¬l.isReplace = true := fun hl => hr (hd.isReplace.mp hl)
    rw [if_neg (fun hn => hl hn.1), if_neg (fun hn => hl hn.1)] at h
    exact h.finish

/-- A message about a resting order, from its lookup on. -/
theorem Sit.modify (h : Sit .lk k l s) (hd : Holds d l) :
    Leads work Busy (Finished (k.modify d)) s := by
  refine h.lookup.bind fun s₁ h₁ => ?_
  cases hf : (k.lookup l.ref).table.resFound with
  | false =>
    -- an unknown reference
    rw [hf, if_neg Bool.false_ne_true] at h₁
    rw [BookCore.modify, ← hd.ref, hf, if_neg Bool.false_ne_true]
    exact .here h₁
  | true =>
    rw [hf, if_pos rfl] at h₁
    have heq := modify_eq hd hf
    dsimp only at heq
    -- the book and the registers after each phase
    generalize hl₁ : l.resting (k.lookup l.ref).table k.bandBase = l₁ at h₁ heq
    generalize k.lookup l.ref = k₁ at h₁ heq
    have hd₂ : Holds d (l₁.reduced (k₁.side l₁.rSide)) := by
      rw [← hl₁]
      exact ⟨hd.mtype, hd.isReplace, hd.ref, hd.newRef, hd.price, hd.shares, hd.printable⟩
    rw [heq]
    refine h₁.modLvl.bind fun s₂ h₂ => h₂.modTbl.bind fun s₃ h₃ =>
      (h₃.empty (emptied_modLevel _ _ _)).bind fun s₄ h₄ => ?_
    -- a Replace goes on to add the new order, when its price is in the band
    refine Sit.readd ?_ h₄ hd₂
    generalize (l₁.reduced (k₁.side l₁.rSide)).rSide = isBid
    cases isBid <;> rfl

/-- The message a cycle takes. -/
def accept (s : BookState c) (i : EngineIn) : Option Decoded :=
  if s.engine.decAccept i then some i.dec else none

/-- A message taken at rest is applied by the time the engine is done with it. -/
theorem Rest.accept (h : Rest s k) {i : EngineIn} (hr : i.rst = false) (hb : i.bandCfgValid = false)
    (hv : i.decValid = true) : Leads work Busy (Finished (k.apply i.dec)) (s.step i) := by
  obtain rfl := h.core
  have hq := quiet_clearPulses h.quiet
  have hfsm : s.engine.fsm i = s.engine.onIdle s.engine.clearPulses i := by
    unfold BookUpdateEngineState.fsm
    rw [h.state]
  unfold BookUpdateEngineState.onIdle at hfsm
  rw [if_pos hv] at hfsm
  unfold BookCore.apply
  -- the branches of `onIdle`, each beside the branch of `BookCore.apply` for the same types
  by_cases hadd : i.dec.mtype = tAdd ∨ i.dec.mtype = tAddMpid
  · rw [if_pos hadd] at hfsm ⊢
    have hwin : inWindow c (i.dec.price - s.core.baseEff i.dec.price) = s.engine.addInWin i.dec :=
      rfl
    unfold BookCore.add
    dsimp only
    rw [hwin]
    cases hw : s.engine.addInWin i.dec with
    | true =>
      rw [hw, if_pos rfl] at hfsm
      have hsit := sit_of_step h.quiet h.cmd h.ready hr hb hfsm ⟨rfl, rfl, rfl⟩ ⟨hq.bid, hq.ask⟩
        rfl h.req rfl rfl
      rw [if_pos rfl]
      exact hsit.insert (addPath c)
    -- out of the band: counted, and no INSERT is sent
    | false =>
      rw [hw, if_neg Bool.false_ne_true] at hfsm
      have hsit := sit_of_step h.quiet h.cmd h.ready hr hb hfsm ⟨rfl, rfl, rfl⟩ ⟨hq.bid, hq.ask⟩
        rfl h.req rfl rfl
      rw [if_neg Bool.false_ne_true]
      exact hsit.finish
  · rw [if_neg hadd] at hfsm ⊢
    by_cases hmod : i.dec.mtype = tExec ∨ i.dec.mtype = tExecPr ∨ i.dec.mtype = tCancel
        ∨ i.dec.mtype = tDelete
    · rw [if_pos hmod] at hfsm
      rw [if_pos (by tauto)]
      have hne : i.dec.mtype ≠ tReplace := by
        intro hU
        rw [hU] at hmod
        exact absurd hmod (by decide)
      have hsit := sit_of_step h.quiet h.cmd h.ready hr hb hfsm ⟨rfl, rfl, rfl⟩ ⟨hq.bid, hq.ask⟩
        rfl h.req rfl rfl
      exact hsit.modify ⟨rfl, ⟨fun h => (by cases h), fun h => (hne h).elim⟩, rfl, rfl, rfl, rfl, rfl⟩
    · rw [if_neg hmod] at hfsm
      by_cases hU : i.dec.mtype = tReplace
      · rw [if_pos hU] at hfsm
        rw [if_pos (by tauto)]
        have hsit := sit_of_step h.quiet h.cmd h.ready hr hb hfsm ⟨rfl, rfl, rfl⟩ ⟨hq.bid, hq.ask⟩
          rfl h.req rfl rfl
        exact hsit.modify ⟨rfl, ⟨fun _ => hU, fun _ => rfl⟩, rfl, rfl, rfl, rfl, rfl⟩
      · rw [if_neg hU] at hfsm
        rw [if_neg (by tauto)]
        by_cases hP : i.dec.mtype = tTrade
        · rw [if_pos hP] at hfsm ⊢
          have hsit := sit_of_step h.quiet h.cmd h.ready hr hb hfsm ⟨rfl, rfl, rfl⟩
            ⟨hq.bid, hq.ask⟩ rfl h.req rfl rfl
          exact hsit.finish
        · -- an unknown type is only taken
          rw [if_neg hP] at hfsm ⊢
          have hsit := sit_of_step h.quiet h.cmd h.ready hr hb hfsm ⟨rfl, rfl, rfl⟩
            ⟨hq.bid, hq.ask⟩ rfl h.req rfl rfl
          exact hsit.finish

/-- A cycle at rest without a message. -/
theorem Rest.idle (h : Rest s k) {i : EngineIn} (hr : i.rst = false) (hb : i.bandCfgValid = false)
    (hv : i.decValid = false) : Rest (s.step i) k ∧ (s.step i).engine.engineDone = false := by
  have hq := quiet_clearPulses h.quiet
  have hfsm : s.engine.fsm i = s.engine.clearPulses := by
    unfold BookUpdateEngineState.fsm BookUpdateEngineState.onIdle
    rw [h.state, hv]
    rfl
  have hsit := sit_of_step h.quiet h.cmd h.ready hr hb hfsm ⟨rfl, rfl, rfl⟩ ⟨hq.bid, hq.ask⟩
    rfl h.req rfl h.core
  have htrade : (s.step i).engine.tradeValid = false := by
    rw [show (s.step i).engine = _ from h.quiet.step hr hb hfsm ⟨rfl, rfl, rfl⟩]
    rfl
  exact ⟨⟨hsit.state.trans h.state, hsit.req, hsit.cmd, hsit.quiet, hsit.ready, htrade,
    hsit.core_eq⟩, hsit.notDone⟩

/-- A cycle without `rst` and without band configuration. -/
def Plain (i : EngineIn) : Prop := i.rst = false ∧ i.bandCfgValid = false

/-- While the engine works its inputs do not matter. -/
theorem Busy.step (h : s.Busy) {i : EngineIn} (hi : Plain i) :
    s.accept i = none ∧ s.step i = s.work := by
  have hstate := h.1
  refine ⟨?_, ?_⟩
  · unfold BookState.accept BookUpdateEngineState.decAccept
    cases hs : s.engine.state with
    | idle => exact (hstate hs).elim
    | _ => rfl
  · have hfsm : s.engine.fsm i = s.engine.fsm {} := by
      unfold BookUpdateEngineState.fsm
      cases hs : s.engine.state with
      | idle => exact (hstate hs).elim
      | _ => rfl
    unfold work BookState.step BookUpdateEngineState.step
    simp only [hi.1, hi.2, Bool.false_eq_true, if_false, hfsm]

/-- **The engine serves its messages.** At rest it takes a message, and it is done with it when its
book is that of `BookCore.apply`. -/
theorem serves : Serves (@step c) accept Plain work Busy (fun s => s.engine.engineDone = true)
    Rest BookCore.apply (fun _ _ => True) where
  idle {s k i} h hi ha := by
    have hv : i.decValid = false := by
      unfold BookState.accept BookUpdateEngineState.decAccept at ha
      rw [h.state] at ha
      cases hv : i.decValid with
      | false => rfl
      | true =>
        rw [hv] at ha
        cases ha
    obtain ⟨hrest, hd⟩ := h.idle hi.1 hi.2 hv
    exact ⟨hrest, by rw [hd]; exact Bool.false_ne_true⟩
  serve {s k i m} h hi ha _ := by
    unfold BookState.accept at ha
    split at ha
    · rename_i hacc
      cases ha
      have hv : i.decValid = true := (Bool.and_eq_true_iff.mp hacc).2
      exact h.accept hi.1 hi.2 hv
    · cases ha
  waits {s i} hb hi :=
    ⟨(hb.step hi).1, (hb.step hi).2, by rw [hb.2]; exact Bool.false_ne_true⟩

/-! ## Runs -/

/-- The book after power-up, the band configured at `base` or left to the first Add. -/
def powerUp (c : Build) (base : Option UInt32) : BookState c :=
  { engine := { bandValid := base.isSome, bandBase := base.getD 0 } }

/-- A cycle of band configuration after power-up. -/
theorem powerUp_config (c : Build) (base : UInt32) :
    (powerUp c none).step { bandCfgValid := true, bandCfgBase := base } = powerUp c (some base) :=
  rfl

/-- The engine is at rest with the book `k`, or on its way there. -/
abbrev Serving (s : BookState c) (k : BookCore c) : Prop :=
  Settles work Busy (fun s => s.engine.engineDone = true) Rest s k

/-- An engine that takes messages is at rest. -/
theorem Serving.rest_of_idle (h : Serving s k) (hs : s.engine.state = .idle) : s.Rest k :=
  h.rest fun hb => hb.1 hs

theorem Serving.rest_of_done (h : Serving s k) (hs : s.engine.engineDone = true) : s.Rest k :=
  h.rest fun hb => Bool.false_ne_true (hb.2.symm.trans hs)

theorem idle_of_accept {i : EngineIn} {d : Decoded} (h : d ∈ s.accept i) :
    s.engine.state = .idle ∧ i.decValid = true ∧ d = i.dec := by
  unfold BookState.accept at h
  split at h
  · rename_i hacc
    obtain ⟨hs, hv⟩ := Bool.and_eq_true_iff.mp hacc
    rw [Option.mem_some_iff] at h
    exact ⟨beq_iff_eq.mp hs, hv, h.symm⟩
  · cases h

/-- A cycle in which no message is taken. -/
theorem Serving.step_none (h : Serving s k) {i : EngineIn} (hi : Plain i)
    (ha : s.accept i = none) : Serving (s.step i) k := by
  have hstep := serves.settles_step h hi fun _ _ => trivial
  rwa [ha] at hstep

/-- A cycle in which a message is taken. -/
theorem Serving.step_some (h : Serving s k) {i : EngineIn} (hi : Plain i) {d : Decoded}
    (ha : s.accept i = some d) : s.Rest k ∧ Serving (s.step i) (k.apply d) := by
  have hstep := serves.settles_step h hi fun _ _ => trivial
  rw [ha] at hstep
  exact ⟨h.rest_of_idle (idle_of_accept ha).1, hstep⟩

/-- The messages taken over a run of cycles. -/
abbrev taken (s : BookState c) (is : List EngineIn) : List Decoded := accepted step accept s is

/-- What each message meets when it is taken, the run meets. Induction on the cycles. -/
theorem Serving.induction {P : BookState c → List EngineIn → Prop}
    {Good : BookCore c → Decoded → Prop} (hnil : ∀ s, P s [])
    (hcons : ∀ s i is, (∀ d ∈ s.accept i, Good s.core d) → P (s.step i) is → P s (i :: is))
    (h : Serving s k) {is : List EngineIn} (hi : ∀ i ∈ is, Plain i)
    (hgood : GoodRun BookCore.apply Good k (s.taken is)) : P s is := by
  induction is generalizing s k with
  | nil => exact hnil s
  | cons i is ih =>
    have hplain := hi i List.mem_cons_self
    have hrest : ∀ j ∈ is, Plain j := fun j hj => hi j (List.mem_cons_of_mem i hj)
    have htaken : s.taken (i :: is) = (s.accept i).toList ++ (s.step i).taken is := rfl
    rw [htaken] at hgood
    cases ha : s.accept i with
    | none =>
      rw [ha] at hgood
      exact hcons s i is (fun d hd => absurd (ha.symm.trans hd) (Option.some_ne_none d).symm)
        (ih (h.step_none hplain ha) hrest hgood)
    | some d =>
      rw [ha] at hgood
      obtain ⟨hs, hnext⟩ := h.step_some hplain ha
      refine hcons s i is (fun d' hd => ?_) (ih hnext hrest hgood.2)
      obtain rfl : d = d' := Option.some_inj.mp (ha.symm.trans hd)
      rw [hs.core]
      exact hgood.1

end BookState

end ItchOrderbook.Rtl
