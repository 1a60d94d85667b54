import ItchOrderbook.Rtl.OrderbookTop
import ItchOrderbook.Rtl.SerialEngines
import ItchOrderbook.Rtl.UartBridge

/-!
# The board (`fpga/board/fpga_top.sv`)

    uart_rx -> serial receiver -> uart_itch_bridge -> orderbook_top (raw mode)
    uart_tx <- serial transmitter <- snapshot frames <- its outputs

The bridge and the book run on one clock, behind a reset that takes three cycles to come off. The
LEDs are left out.
-/

namespace ItchOrderbook.Rtl

/-- `.raw_mode(1'b1), .mold_mode(1'b0)`. -/
abbrev boardMode : TopMode := ⟨true, false⟩

/-- The outputs of `u_ob` that are wired to `u_bridge`. -/
def TopState.bookView {c : Build} (s : TopState c) : BookView where
  bestBidValid := s.book.engine.bestValid true
  bestBidPrice := s.book.engine.bestPrice true
  bestBidShares := s.book.engine.bestShares true
  bestAskValid := s.book.engine.bestValid false
  bestAskPrice := s.book.engine.bestPrice false
  bestAskShares := s.book.engine.bestShares false
  totBidVol := s.book.engine.totVol true
  totAskVol := s.book.engine.totVol false
  vwapNum := s.book.stats.vwapNum
  vwapDen := s.book.stats.vwapDen
  tradeCount := s.book.stats.tradeCount
  spreadValid := s.book.spreadValid
  spread := s.book.spread
  bandBase := s.book.engine.bandBase
  bandDrops := s.book.engine.bandDrops
  msgTotal := s.perf.msgTotal
  mcAdd := s.perf.msgCount (typeIdx tAdd)
  mcAddmpid := s.perf.msgCount (typeIdx tAddMpid)
  mcExec := s.perf.msgCount (typeIdx tExec)
  mcExecpr := s.perf.msgCount (typeIdx tExecPr)
  mcCancel := s.perf.msgCount (typeIdx tCancel)
  mcDelete := s.perf.msgCount (typeIdx tDelete)
  mcReplace := s.perf.msgCount (typeIdx tReplace)
  mcTrade := s.perf.msgCount (typeIdx tTrade)
  mcSystem := s.perf.msgCount (typeIdx tSystem)
  tblInsFails := s.book.engine.table.insFailCount

/-- The inputs of one cycle: `rstn_in && mmcm_locked`, and the serial line. -/
structure FpgaIn where
  rstnIn : Bool
  uartRx : Bool

/-- `rst_sync_q`, the serial engines and the frames of `u_bridge`, and `u_ob`. -/
structure FpgaTop (c : Build) (d : Divisor) where
  rstSync : BitVec 3
  rx : SerialRx d
  tx : SerialTx d
  bridge : BridgeState
  core : TopState c

namespace FpgaTop

variable {c : Build} {d : Divisor} (s : FpgaTop c d)

/-- `rst_n`. -/
def rstN : Bool := s.rstSync.getLsbD 2

/-- `rxb_q` while `rxb_v`. -/
def rxb : Option UInt8 := if s.rx.engine.rxbV then some ⟨s.rx.engine.rxbQ⟩ else none

/-- The inputs of the frames of `u_bridge`. -/
def bridgeIn : BridgeIn where
  rxb := s.rxb
  inReady := s.core.inReady boardMode
  txBusy := s.tx.txBusy
  book := s.core.bookView

/-- The inputs of `u_ob`. -/
def coreIn : TopIn where
  rst := !s.rstN
  inBeat := s.bridge.rx.inBeat
  inValid := s.bridge.rx.inValid
  inSop := false
  bandCfgValid := s.bridge.rx.bandCfgValid
  bandCfgBase := s.bridge.rx.bandCfgBase

/-- `{rst_sync_q[1:0], 1'b1}`. -/
def shifted (r : BitVec 3) : BitVec 3 := (r.extractLsb' 0 2).concat true

/-- One clock edge. -/
def step (i : FpgaIn) : FpgaTop c d where
  rstSync := if i.rstnIn then shifted s.rstSync else 0
  rx := if s.rstN then s.rx.step i.uartRx else s.rx.resetStep i.uartRx
  tx := if s.rstN then s.tx.step (s.bridge.tx.txb s.tx.txBusy) else .reset
  bridge := if s.rstN then s.bridge.step s.bridgeIn else s.bridge.reset
  core := s.core.step boardMode s.coreIn

end FpgaTop

/-- The board: it takes the bytes that `u_bridge` hears and gives the commits of `u_ob`. -/
def fpgaTop (c : Build) (d : Divisor) : StreamMachine (FpgaTop c d) FpgaIn UInt8 UInt8 where
  step := FpgaTop.step
  taken s _ := if s.rstN then s.bridge.rx.heard s.rxb else []
  given s _ := if s.rstN then (orderbookTop c boardMode).given s.core s.coreIn else []

namespace FpgaTop

variable {c : Build} {d : Divisor}

/-! ## Reset -/

/-- After configuration: the reset pipe and the book with its memories are zero. What the other
registers hold is left open. -/
structure Configured (s : FpgaTop c d) : Prop where
  rstSync : s.rstSync = 0
  book : s.core.book = {}

/-- The button is held for some cycles or not at all, and the reset comes off. -/
def Boots (is : List FpgaIn) : Prop :=
  ∃ (held : List FpgaIn) (i₁ i₂ i₃ : FpgaIn), is = held ++ [i₁, i₂, i₃] ∧
    (∀ i ∈ held, i.rstnIn = false) ∧ i₁.rstnIn = true ∧ i₂.rstnIn = true ∧ i₃.rstnIn = true

/-- What the reset leaves behind in the units. -/
structure Cleared (s : FpgaTop c d) : Prop where
  bridge : ∃ b : BridgeState, s.bridge = b.reset
  core : ∃ mold ingest, s.core = TopState.start c none mold ingest

/-- A cycle with the reset on. -/
theorem Cleared.of_step {s : FpgaTop c d} (i : FpgaIn) (hrst : s.rstN = false)
    (hbook : s.core.book = {} ∨ ∃ mold ingest, s.core = TopState.start c none mold ingest) :
    Cleared (s.step i) where
  bridge := by
    unfold step
    rw [hrst, if_neg Bool.false_ne_true]
    exact ⟨s.bridge, rfl⟩
  core := by
    have hcore : (s.step i).core = s.core.reset := by
      unfold step TopState.step coreIn
      rw [hrst]
      rfl
    have hreset : s.core.book.reset = BookState.powerUp c none := by
      rcases hbook with hbook | ⟨mold, ingest, hcore⟩
      · rw [hbook]
        rfl
      · rw [hcore]
        rfl
    refine ⟨s.core.mold, s.core.ingest, ?_⟩
    rw [hcore, TopState.reset, hreset]
    rfl

/-- The bytes that `u_bridge` hears and the commits, none while the reset is on. -/
theorem tokens_of_reset {s : FpgaTop c d} (i : FpgaIn) (hrst : s.rstN = false) :
    (fpgaTop c d).taken s i = [] ∧ (fpgaTop c d).given s i = [] := by
  have hno : ¬s.rstN = true := fun h => Bool.false_ne_true (hrst.symm.trans h)
  exact ⟨if_neg hno, if_neg hno⟩

theorem rx_of_reset {s : FpgaTop c d} (i : FpgaIn) (hrst : s.rstN = false) :
    (s.step i).rx = s.rx.resetStep i.uartRx :=
  if_neg fun h => Bool.false_ne_true (hrst.symm.trans h)

/-- The reset stays on while the button is held. -/
theorem Configured.held {s : FpgaTop c d} (h : s.Configured) {is : List FpgaIn}
    (his : ∀ i ∈ is, i.rstnIn = false) :
    let s' := (fpgaTop c d).run s is
    s'.rstSync = 0 ∧
      (s'.core.book = {} ∨ ∃ mold ingest, s'.core = TopState.start c none mold ingest) ∧
      (fpgaTop c d).allTaken s is = [] ∧ (fpgaTop c d).allGiven s is = [] := by
  have hrun (s : FpgaTop c d) (hsync : s.rstSync = 0) (hbook : s.core.book = {} ∨
      ∃ mold ingest, s.core = TopState.start c none mold ingest) :
      let s' := (fpgaTop c d).run s is
      s'.rstSync = 0 ∧
        (s'.core.book = {} ∨ ∃ mold ingest, s'.core = TopState.start c none mold ingest) ∧
        (fpgaTop c d).allTaken s is = [] ∧ (fpgaTop c d).allGiven s is = [] := by
    induction is generalizing s with
    | nil => exact ⟨hsync, hbook, rfl, rfl⟩
    | cons i is ih =>
      obtain ⟨hi, his⟩ := List.forall_mem_cons.1 his
      have hrst : s.rstN = false := by rw [rstN, hsync]; rfl
      have hnext : (s.step i).rstSync = 0 := by rw [step, hi]; rfl
      obtain ⟨htaken, hgiven⟩ := tokens_of_reset i hrst
      obtain ⟨hsync', hbook', hnone, hnone'⟩ :=
        ih his (s.step i) hnext (.inr (Cleared.of_step i hrst hbook).core)
      exact ⟨hsync', hbook', by rw [StreamMachine.allTaken, htaken]; exact hnone,
        by rw [StreamMachine.allGiven, hgiven]; exact hnone'⟩
  exact hrun s h.rstSync (.inl h.book)

theorem rstSync_step {s : FpgaTop c d} {i : FpgaIn} (h : i.rstnIn = true) :
    (s.step i).rstSync = shifted s.rstSync := if_pos h

/-- Once off, the reset stays off while the button is not pressed. -/
theorem rstSync_kept {s : FpgaTop c d} {i : FpgaIn} (hsync : s.rstSync = 7) (h : i.rstnIn = true) :
    (s.step i).rstSync = 7 := by
  rw [rstSync_step h, hsync]
  rfl

/-- **The board comes up.** -/
theorem Configured.boots {s : FpgaTop c d} (h : s.Configured) {is : List FpgaIn} (his : Boots is) :
    let s' := (fpgaTop c d).run s is
    s'.rstSync = 7 ∧ s'.Cleared ∧
      ((∀ i ∈ is, i.uartRx = true) → s'.rx = ⟨true, true, RxEngine.reset⟩) ∧
      (fpgaTop c d).allTaken s is = [] ∧ (fpgaTop c d).allGiven s is = [] := by
  obtain ⟨held, i₁, i₂, i₃, rfl, hheld, h₁, h₂, h₃⟩ := his
  obtain ⟨hsync, hbook, htaken, hgiven⟩ := h.held hheld
  generalize hs : (fpgaTop c d).run s held = s₀ at hsync hbook
  -- ones are shifted in behind the zeros, and the third comes out as `rst_n`
  have hsync₁ : (s₀.step i₁).rstSync = 1 := by
    rw [rstSync_step h₁, hsync]
    rfl
  have hsync₂ : ((s₀.step i₁).step i₂).rstSync = 3 := by
    rw [rstSync_step h₂, hsync₁]
    rfl
  have hsync₃ : (((s₀.step i₁).step i₂).step i₃).rstSync = 7 := by
    rw [rstSync_step h₃, hsync₂]
    rfl
  have hrst₀ : s₀.rstN = false := by rw [rstN, hsync]; rfl
  have hrst₁ : (s₀.step i₁).rstN = false := by rw [rstN, hsync₁]; rfl
  have hrst₂ : ((s₀.step i₁).step i₂).rstN = false := by rw [rstN, hsync₂]; rfl
  have hclear₁ := Cleared.of_step i₁ hrst₀ hbook
  have hclear₂ := Cleared.of_step i₂ hrst₁ (.inr hclear₁.core)
  have hclear₃ := Cleared.of_step i₃ hrst₂ (.inr hclear₂.core)
  obtain ⟨ht₀, hg₀⟩ := tokens_of_reset i₁ hrst₀
  obtain ⟨ht₁, hg₁⟩ := tokens_of_reset i₂ hrst₁
  obtain ⟨ht₂, hg₂⟩ := tokens_of_reset i₃ hrst₂
  have hrun : (fpgaTop c d).run s (held ++ [i₁, i₂, i₃]) = ((s₀.step i₁).step i₂).step i₃ := by
    rw [StreamMachine.run_append, hs]
    rfl
  refine ⟨?_, ?_, ?_, ?_, ?_⟩
  · rw [hrun]
    exact hsync₃
  · rw [hrun]
    exact hclear₃
  · intro hidle
    rw [hrun, rx_of_reset i₃ hrst₂, rx_of_reset i₂ hrst₁]
    have hline : i₂.uartRx = true ∧ i₃.uartRx = true :=
      ⟨hidle i₂ (by simp), hidle i₃ (by simp)⟩
    unfold SerialRx.resetStep
    rw [hline.1, hline.2]
  · rw [StreamMachine.allTaken_append, htaken, hs, List.nil_append]
    show _ ++ (_ ++ (_ ++ [])) = []
    rw [ht₀]
    show (fpgaTop c d).taken (s₀.step i₁) i₂ ++
      ((fpgaTop c d).taken ((s₀.step i₁).step i₂) i₃ ++ []) = _
    rw [ht₁, ht₂]
    rfl
  · rw [StreamMachine.allGiven_append, hgiven, hs, List.nil_append]
    show _ ++ (_ ++ (_ ++ [])) = []
    rw [hg₀]
    show (fpgaTop c d).given (s₀.step i₁) i₂ ++
      ((fpgaTop c d).given ((s₀.step i₁).step i₂) i₃ ++ []) = _
    rw [hg₁, hg₂]
    rfl

end FpgaTop

end ItchOrderbook.Rtl
