import ItchOrderbook.Rtl.SerialEngines

/-!
# Serial loopback

The transmitter puts each byte on the line as the idle level of the cycle that takes it and then its
`wave` (`Sends.tx`). A receiver at rest that sees a wave, two cycles late, delivers the byte and is
at rest again when the next one may start (`Waves.rx`): it samples `DIVISOR / 2 + 1` cycles into
each bit, and in the stop bit it is done before the bit is over. It needs no idle cycle between
bytes.
-/

namespace ItchOrderbook.Rtl

variable {d : Divisor}

namespace Divisor

variable (d : Divisor)

theorem lt_counter {k : ℕ} (h : k < d.n) : k < 2 ^ (d.dw + 1) := by
  have hpow : d.n ≤ 2 ^ d.dw := Nat.le_pow_clog (by decide) d.n
  rw [Nat.pow_succ]
  omega

/-- Behind a sample this much of the bit is left. -/
def left : ℕ := d.n - d.n / 2 - 2

theorem split_bit : d.n / 2 + 1 + 1 + d.left = d.n := by
  have := d.four_le
  unfold left
  omega

theorem bit_cycles (v : Bool) : List.replicate d.n v =
    List.replicate (d.n / 2 + 1) v ++ (v :: List.replicate d.left v) := by
  have hlen : d.n / 2 + 1 + (d.left + 1) = d.n := by
    have := d.split_bit
    omega
  rw [← List.replicate_succ, ← List.replicate_add, hlen]

end Divisor

/-- The line over one byte. -/
def wave (d : Divisor) (b : UInt8) : List Bool :=
  List.replicate d.n false
    ++ (List.range 8).flatMap (fun i => List.replicate d.n (b.toBitVec.getLsbD i))
    ++ List.replicate d.n true

/-! ## Counters -/

section

variable {w j : ℕ}

theorem counter_ne {k : ℕ} (hj : j < 2 ^ w) (hk : k < 2 ^ w) (h : j ≠ k) :
    ¬BitVec.ofNat w j = BitVec.ofNat w k := by
  intro heq
  have hnat := congrArg BitVec.toNat heq
  rw [BitVec.toNat_ofNat, BitVec.toNat_ofNat, Nat.mod_eq_of_lt hj, Nat.mod_eq_of_lt hk] at hnat
  exact h hnat

theorem counter_pred : BitVec.ofNat w (j + 1) - 1#w = BitVec.ofNat w j := by
  rw [BitVec.ofNat_add]
  exact BitVec.add_sub_cancel _ _

end

/-! ## Transmitter -/

namespace SerialTx

/-- Busy with bit `k`, with `j` more cycles to count. -/
def sending (d : Divisor) (k j : ℕ) (sh : BitVec 10) : SerialTx d where
  txdiv := BitVec.ofNat _ j
  txbit := BitVec.ofNat _ k
  txBusy := true
  txsh := sh

/-- At rest. -/
def Resting (s : SerialTx d) : Prop := s.txBusy = false

theorem step_count {k j : ℕ} (h : j + 1 < d.n) (sh : BitVec 10) (go : Option UInt8) :
    (sending d k (j + 1) sh).step go = sending d k j sh := by
  have hne : ¬BitVec.ofNat (d.dw + 1) (j + 1) = 0#(d.dw + 1) :=
    counter_ne (d.lt_counter h) (Nat.two_pow_pos _) (Nat.succ_ne_zero j)
  simp [step, sending, if_pos hne, counter_pred]

theorem step_shift {k : ℕ} (h : k < 9) (sh : BitVec 10) (go : Option UInt8) :
    (sending d k 0 sh).step go = sending d (k + 1) (d.n - 1) (shifted sh) := by
  have hne : ¬BitVec.ofNat 4 k = 9#4 := counter_ne (by omega) (by decide) (Nat.ne_of_lt h)
  simp only [step, sending, Bool.not_true, Bool.false_eq_true, if_false, BitVec.ofNat_eq_ofNat,
    ne_eq, not_true_eq_false, Divisor.full, BitVec.ofNat_add]
  exact if_neg hne

theorem step_last (sh : BitVec 10) (go : Option UInt8) :
    Resting ((sending d 9 0 sh).step go) := by
  simp [step, sending, Resting]

theorem step_take {s : SerialTx d} (h : s.Resting) (b : UInt8) :
    s.step (some b) = sending d 0 (d.n - 1) (framed b) := by
  rw [Resting] at h
  simp [step, sending, h, Divisor.full]

/-- The rest of a bit. -/
theorem run_count {k j : ℕ} (h : j < d.n) (sh : BitVec 10) (is : List (Option UInt8))
    (hlen : is.length = j) :
    (machine d).run (sending d k j sh) is = sending d k 0 sh
      ∧ (machine d).allGiven (sending d k j sh) is = List.replicate j (sh.getLsbD 0)
      ∧ (machine d).allTaken (sending d k j sh) is = [] := by
  induction j generalizing is with
  | zero =>
    obtain rfl := List.length_eq_zero_iff.mp hlen
    exact ⟨rfl, rfl, rfl⟩
  | succ j ih =>
    cases is with
    | nil => cases hlen
    | cons go is =>
      have hstep : (machine d).step (sending d k (j + 1) sh) go = sending d k j sh :=
        step_count h sh go
      obtain ⟨hrun, hgiven, htaken⟩ := ih (Nat.lt_of_succ_lt h) is (Nat.succ.inj hlen)
      rw [StreamMachine.run_cons, StreamMachine.allGiven, StreamMachine.allTaken, hstep, hrun,
        hgiven, htaken]
      exact ⟨rfl, rfl, rfl⟩

/-- A whole bit, up to the edge that ends it. -/
theorem run_bit (k : ℕ) (sh : BitVec 10) (is : List (Option UInt8)) (hlen : is.length = d.n) :
    ∃ go, (machine d).run (sending d k (d.n - 1) sh) is = (sending d k 0 sh).step go
      ∧ (machine d).allGiven (sending d k (d.n - 1) sh) is = List.replicate d.n (sh.getLsbD 0)
      ∧ (machine d).allTaken (sending d k (d.n - 1) sh) is = [] := by
  have hfour := d.four_le
  have hne : is ≠ [] := List.ne_nil_of_length_pos (by omega)
  obtain ⟨front, last, rfl⟩ : ∃ front last, is = front ++ [last] :=
    ⟨_, _, (List.dropLast_append_getLast hne).symm⟩
  rw [List.length_append, List.length_singleton] at hlen
  obtain ⟨hrun, hgiven, htaken⟩ := run_count (k := k) (show d.n - 1 < d.n by omega) sh front
    (by omega)
  have hcycles : List.replicate d.n (sh.getLsbD 0) =
      List.replicate (d.n - 1) (sh.getLsbD 0) ++ [sh.getLsbD 0] := by
    rw [← List.replicate_succ', Nat.sub_add_cancel (by omega)]
  refine ⟨last, ?_, ?_, ?_⟩
  · rw [StreamMachine.run_append, hrun]
    rfl
  · rw [StreamMachine.allGiven_append, hrun, hgiven, hcycles]
    rfl
  · rw [StreamMachine.allTaken_append, hrun, htaken]
    rfl

/-- What is behind a bit comes out next. -/
theorem shifted_getLsbD {i : ℕ} (h : i < 9) (sh : BitVec 10) :
    (shifted sh).getLsbD i = sh.getLsbD (i + 1) := by
  rw [shifted, BitVec.getLsbD_cons, if_neg (Nat.ne_of_lt h), BitVec.getLsbD_extractLsb']
  simp [h, Nat.add_comm]

/-- The bits of a byte from bit `k` on. Induction on how many are behind it. -/
theorem run_bits {k n : ℕ} (h : k + n = 9) (sh : BitVec 10) (is : List (Option UInt8))
    (hlen : is.length = (n + 1) * d.n) :
    Resting ((machine d).run (sending d k (d.n - 1) sh) is)
      ∧ (machine d).allGiven (sending d k (d.n - 1) sh) is =
        (List.range (n + 1)).flatMap (fun i => List.replicate d.n (sh.getLsbD i))
      ∧ (machine d).allTaken (sending d k (d.n - 1) sh) is = [] := by
  induction n generalizing k sh is with
  | zero =>
    obtain rfl : k = 9 := h
    rw [Nat.zero_add, Nat.one_mul] at hlen
    obtain ⟨go, hrun, hgiven, htaken⟩ := run_bit 9 sh is hlen
    refine ⟨?_, ?_, htaken⟩
    · rw [hrun]
      exact step_last sh go
    · rw [hgiven]
      simp
  | succ n ih =>
    have hfirst : (is.take d.n).length = d.n := by
      rw [List.length_take, hlen, Nat.succ_mul]
      omega
    have hrest : (is.drop d.n).length = (n + 1) * d.n := by
      rw [List.length_drop, hlen, Nat.succ_mul (n + 1)]
      omega
    obtain ⟨go, hrun, hgiven, htaken⟩ := run_bit k sh _ hfirst
    rw [step_shift (by omega)] at hrun
    obtain ⟨hend, hgiven', htaken'⟩ := ih (k := k + 1) (by omega) (shifted sh) _ hrest
    rw [← List.take_append_drop d.n is, StreamMachine.run_append, StreamMachine.allGiven_append,
      StreamMachine.allTaken_append, hrun, hgiven, htaken, hgiven', htaken']
    refine ⟨hend, ?_, rfl⟩
    -- the bits behind the first are those of the shifted register
    rw [List.range_succ_eq_map (n := n + 1), List.flatMap_cons, List.flatMap_map]
    congr 1
    refine List.flatMap_congr fun i hi => ?_
    have hlt : i < 9 := by
      have := List.mem_range.mp hi
      omega
    rw [shifted_getLsbD hlt]

theorem framed_zero (b : UInt8) : (framed b).getLsbD 0 = false := by
  rw [framed, BitVec.getLsbD_cons, if_neg (by decide), BitVec.getLsbD_concat_zero]

theorem framed_data (b : UInt8) {i : ℕ} (h : i < 8) :
    (framed b).getLsbD (i + 1) = b.toBitVec.getLsbD i := by
  rw [framed, BitVec.getLsbD_cons, if_neg (by omega), BitVec.getLsbD_concat_succ]

theorem framed_nine (b : UInt8) : (framed b).getLsbD 9 = true := by
  simp [framed, BitVec.getLsbD_cons]

/-- A byte that is taken is on the line for the ten bits behind, whatever is offered. -/
theorem run_byte (b : UInt8) (is : List (Option UInt8)) (hlen : is.length = 10 * d.n) :
    Resting ((machine d).run (sending d 0 (d.n - 1) (framed b)) is)
      ∧ (machine d).allGiven (sending d 0 (d.n - 1) (framed b)) is = wave d b
      ∧ (machine d).allTaken (sending d 0 (d.n - 1) (framed b)) is = [] := by
  obtain ⟨hend, hgiven, htaken⟩ := run_bits (k := 0) (n := 9) rfl (framed b) is hlen
  refine ⟨hend, hgiven.trans ?_, htaken⟩
  have hdata : (List.range 8).flatMap (fun i => List.replicate d.n ((framed b).getLsbD (i + 1))) =
      (List.range 8).flatMap fun i => List.replicate d.n (b.toBitVec.getLsbD i) := by
    refine List.flatMap_congr fun i hi => ?_
    rw [framed_data b (List.mem_range.mp hi)]
  rw [List.range_succ_eq_map, List.flatMap_cons, List.flatMap_map, List.range_succ,
    List.flatMap_append, List.flatMap_singleton, framed_zero, framed_nine, hdata, wave,
    List.append_assoc]

end SerialTx

/-! ## Schedules -/

/-- A schedule of offers in which every byte that is taken is also sent to its end, the bytes, and
the line. -/
inductive Sends (d : Divisor) : List (Option UInt8) → List UInt8 → List Bool → Prop where
  | nil : Sends d [] [] []
  | idle {is bs line} (h : Sends d is bs line) : Sends d (none :: is) bs (true :: line)
  | byte {is bs line} (b : UInt8) (ignored : List (Option UInt8)) (hlen : ignored.length = 10 * d.n)
      (h : Sends d is bs line) :
      Sends d (some b :: (ignored ++ is)) (b :: bs) (true :: (wave d b ++ line))

theorem sends_idle (d : Divisor) (n : ℕ) :
    Sends d (List.replicate n none) [] (List.replicate n true) := by
  induction n with
  | zero => exact .nil
  | succ n ih =>
    rw [List.replicate_succ, List.replicate_succ]
    exact .idle ih

theorem Sends.append {is is' : List (Option UInt8)} {bs bs' : List UInt8} {line line' : List Bool}
    (h : Sends d is bs line) (h' : Sends d is' bs' line') :
    Sends d (is ++ is') (bs ++ bs') (line ++ line') := by
  induction h with
  | nil => exact h'
  | idle h ih => exact .idle ih
  | byte b ignored hlen h ih =>
    rw [List.cons_append, List.append_assoc, List.cons_append, List.cons_append, List.append_assoc]
    exact .byte b ignored hlen ih

/-- Any offers, with time for a last byte behind them. Strong induction on the offers: a byte that
is taken skips those of its wave. -/
theorem exists_sends (is : List (Option UInt8)) {n : ℕ} (hn : 10 * d.n ≤ n) :
    ∃ bs line, Sends d (is ++ List.replicate n none) bs line := by
  induction hk : is.length using Nat.strong_induction_on generalizing is n with
  | h k ih =>
    cases is with
    | nil => exact ⟨[], _, sends_idle d n⟩
    | cons go is =>
      rw [List.length_cons] at hk
      cases go with
      | none =>
        obtain ⟨bs, line, h⟩ := ih is.length (by omega) is hn rfl
        exact ⟨bs, _, .idle h⟩
      | some b =>
        rcases Nat.lt_or_ge is.length (10 * d.n) with hlt | hge
        · -- the wave ends in the idle cycles
          have hsplit : List.replicate n (none : Option UInt8) =
              List.replicate (10 * d.n - is.length) none
                ++ List.replicate (n - (10 * d.n - is.length)) none := by
            rw [← List.replicate_add]
            congr 1
            omega
          refine ⟨[b], true :: (wave d b ++
            List.replicate (n - (10 * d.n - is.length)) true), ?_⟩
          rw [List.cons_append, hsplit, ← List.append_assoc]
          exact .byte b _ (by rw [List.length_append, List.length_replicate]; omega)
            (sends_idle d _)
        · obtain ⟨bs, line, h⟩ := ih (is.drop (10 * d.n)).length
            (by rw [List.length_drop]; omega) (is.drop (10 * d.n)) hn rfl
          refine ⟨b :: bs, true :: (wave d b ++ line), ?_⟩
          rw [← List.take_append_drop (10 * d.n) is, List.cons_append, List.append_assoc]
          exact .byte b _ (by rw [List.length_take]; omega) h

/-- The transmitter over such a schedule. -/
theorem Sends.tx {is : List (Option UInt8)} {bs : List UInt8} {line : List Bool}
    (h : Sends d is bs line) {s : SerialTx d} (hs : s.Resting) :
    (SerialTx.machine d).allTaken s is = bs ∧ (SerialTx.machine d).allGiven s is = line
      ∧ ((SerialTx.machine d).run s is).Resting := by
  induction h generalizing s with
  | nil => exact ⟨rfl, rfl, hs⟩
  | @idle is bs line h ih =>
    have hstep : (SerialTx.machine d).step s none = s := by
      show s.step none = s
      simp [SerialTx.step, show s.txBusy = false from hs]
    have htaken : (SerialTx.machine d).taken s none = [] := by
      show s.sent none = []
      simp [SerialTx.sent]
    have hgiven : (SerialTx.machine d).given s none = [true] := by
      show [s.uartTx] = [true]
      simp [SerialTx.uartTx, show s.txBusy = false from hs]
    obtain ⟨hbs, hline, hend⟩ := ih hs
    rw [StreamMachine.allTaken, StreamMachine.allGiven, StreamMachine.run_cons, hstep, htaken,
      hgiven, hbs, hline]
    exact ⟨rfl, rfl, hend⟩
  | @byte is bs line b ignored hlen h ih =>
    have hstep : (SerialTx.machine d).step s (some b) =
        SerialTx.sending d 0 (d.n - 1) (SerialTx.framed b) := SerialTx.step_take hs b
    have htaken : (SerialTx.machine d).taken s (some b) = [b] := by
      show s.sent (some b) = [b]
      simp [SerialTx.sent, show s.txBusy = false from hs]
    have hgiven : (SerialTx.machine d).given s (some b) = [true] := by
      show [s.uartTx] = [true]
      simp [SerialTx.uartTx, show s.txBusy = false from hs]
    obtain ⟨hrest, hwave, hnone⟩ := SerialTx.run_byte b ignored hlen
    obtain ⟨hbs, hline, hend⟩ := ih hrest
    rw [StreamMachine.allTaken, StreamMachine.allGiven, StreamMachine.run_cons, hstep, htaken,
      hgiven, StreamMachine.allTaken_append, StreamMachine.allGiven_append,
      StreamMachine.run_append, hwave, hnone, hbs, hline]
    exact ⟨rfl, rfl, hend⟩

/-! ## Receiver -/

namespace RxEngine

/-- Busy with bit `k`, with `j` more cycles to count. -/
def receiving (d : Divisor) (k j : ℕ) (sh q : BitVec 8) : RxEngine d where
  rxdiv := BitVec.ofNat _ j
  rxbit := BitVec.ofNat _ k
  rxBusy := true
  rxsh := sh
  rxbV := false
  rxbQ := q

/-- At rest. The last byte may be on `rxb_q` still. -/
def Resting (s : RxEngine d) : Prop := s.rxBusy = false

theorem step_idle {s : RxEngine d} (h : s.Resting) : s.step true = { s with rxbV := false } := by
  simp [step, show s.rxBusy = false from h]

theorem step_begin {s : RxEngine d} (h : s.Resting) :
    s.step false = receiving d 0 (d.n / 2) s.rxsh s.rxbQ := by
  simp [step, show s.rxBusy = false from h, receiving, Divisor.half]

theorem step_count {k j : ℕ} (h : j + 1 < d.n) (sh q : BitVec 8) (v : Bool) :
    (receiving d k (j + 1) sh q).step v = receiving d k j sh q := by
  have hne : ¬BitVec.ofNat (d.dw + 1) (j + 1) = 0#(d.dw + 1) :=
    counter_ne (d.lt_counter h) (Nat.two_pow_pos _) (Nat.succ_ne_zero j)
  simp [step, receiving, if_pos hne, counter_pred]

theorem step_start (sh q : BitVec 8) :
    (receiving d 0 0 sh q).step false = receiving d 1 (d.n - 1) sh q := by
  simp [step, receiving, Divisor.full]

theorem step_data {k : ℕ} (hpos : 1 ≤ k) (hle : k ≤ 8) (sh q : BitVec 8) (v : Bool) :
    (receiving d k 0 sh q).step v = receiving d (k + 1) (d.n - 1) (shifted sh v) q := by
  have hne : ¬BitVec.ofNat 4 k = 0#4 := counter_ne (by omega) (by decide) (by omega)
  have hdata : k % 16 ≤ 8 := by omega
  simp [step, receiving, if_neg hne, hdata, Divisor.full, BitVec.ofNat_add]

/-- The stop bit delivers the byte. -/
theorem step_stop (sh q : BitVec 8) :
    Resting ((receiving d 9 0 sh q).step true)
      ∧ ((receiving d 9 0 sh q).step true).delivered = [⟨sh⟩] := by
  simp [step, receiving, Resting, delivered]

/-- Counting looks at no sample and delivers nothing. -/
theorem run_count {k j n : ℕ} (h : n + j < d.n) (sh q : BitVec 8) (v : Bool) :
    (machine d).run (receiving d k (n + j) sh q) (List.replicate n v) = receiving d k j sh q
      ∧ (machine d).allGiven (receiving d k (n + j) sh q) (List.replicate n v) = [] := by
  induction n with
  | zero =>
    rw [Nat.zero_add]
    exact ⟨rfl, rfl⟩
  | succ n ih =>
    have hstep : (machine d).step (receiving d k (n + 1 + j) sh q) v =
        receiving d k (n + j) sh q := by
      rw [Nat.add_right_comm]
      exact step_count (by omega) sh q v
    obtain ⟨hrun, hgiven⟩ := ih (by omega)
    rw [List.replicate_succ, StreamMachine.run_cons, StreamMachine.allGiven, hstep, hrun, hgiven]
    exact ⟨rfl, rfl⟩

/-- Behind a sample the rest of its bit is counted off. -/
theorem run_left {s : RxEngine d} {k : ℕ} {sh q : BitVec 8} {v : Bool}
    (hstep : s.step v = receiving d k (d.n - 1) sh q) :
    (machine d).run s (v :: List.replicate d.left v) = receiving d k (d.n / 2 + 1) sh q
      ∧ (machine d).allGiven s (v :: List.replicate d.left v) = s.delivered := by
  have hfour := d.four_le
  have hsplit := d.split_bit
  have hfull : d.n - 1 = d.left + (d.n / 2 + 1) := by omega
  have hnext : (machine d).step s v = receiving d k (d.left + (d.n / 2 + 1)) sh q := by
    rw [← hfull]
    exact hstep
  obtain ⟨hrun, hgiven⟩ := run_count (d := d) (k := k) (j := d.n / 2 + 1) (n := d.left) (by omega)
    sh q v
  rw [StreamMachine.run_cons, StreamMachine.allGiven, hnext, hrun, hgiven]
  exact ⟨rfl, List.append_nil _⟩

/-- The start bit. -/
theorem run_start {s : RxEngine d} (hs : s.Resting) :
    (machine d).run s (List.replicate d.n false) = receiving d 1 (d.n / 2 + 1) s.rxsh s.rxbQ
      ∧ (machine d).allGiven s (List.replicate d.n false) = s.delivered := by
  have hfour := d.four_le
  have hbegin : (machine d).step s false = receiving d 0 (d.n / 2 + 0) s.rxsh s.rxbQ :=
    step_begin hs
  have hpulse : (machine d).given s false = s.delivered := rfl
  obtain ⟨hrun, hgiven⟩ := run_count (d := d) (k := 0) (j := 0) (n := d.n / 2) (by omega) s.rxsh
    s.rxbQ false
  obtain ⟨hrun', hgiven'⟩ := run_left (step_start (d := d) s.rxsh s.rxbQ)
  rw [d.bit_cycles, List.replicate_succ, List.cons_append, StreamMachine.run_cons,
    StreamMachine.allGiven, hbegin, hpulse, StreamMachine.run_append,
    StreamMachine.allGiven_append, hrun, hgiven, hrun', hgiven']
  exact ⟨rfl, List.append_nil _⟩

/-- A data bit. -/
theorem run_data {k : ℕ} (hpos : 1 ≤ k) (hle : k ≤ 8) (sh q : BitVec 8) (v : Bool) :
    (machine d).run (receiving d k (d.n / 2 + 1) sh q) (List.replicate d.n v) =
        receiving d (k + 1) (d.n / 2 + 1) (shifted sh v) q
      ∧ (machine d).allGiven (receiving d k (d.n / 2 + 1) sh q) (List.replicate d.n v) = [] := by
  have hfour := d.four_le
  obtain ⟨hrun, hgiven⟩ := run_count (d := d) (k := k) (j := 0) (n := d.n / 2 + 1) (by omega) sh q v
  obtain ⟨hrun', hgiven'⟩ := run_left (step_data (d := d) hpos hle sh q v)
  rw [Nat.add_zero] at hrun hgiven
  rw [d.bit_cycles, StreamMachine.run_append, StreamMachine.allGiven_append, hrun, hgiven, hrun',
    hgiven']
  exact ⟨rfl, rfl⟩

/-- At rest an idle line only ends the pulse. -/
theorem run_idle {s : RxEngine d} (hs : s.Resting) (n : ℕ) :
    Resting ((machine d).run s (List.replicate n true))
      ∧ (machine d).allGiven s (List.replicate n true)
          ++ ((machine d).run s (List.replicate n true)).delivered = s.delivered := by
  induction n generalizing s with
  | zero => exact ⟨hs, rfl⟩
  | succ n ih =>
    have hstep : (machine d).step s true = { s with rxbV := false } := step_idle hs
    obtain ⟨hrest, hgiven⟩ := ih (s := { s with rxbV := false }) hs
    rw [List.replicate_succ, StreamMachine.run_cons, StreamMachine.allGiven, hstep,
      List.append_assoc, hgiven]
    exact ⟨hrest, List.append_nil _⟩

/-- The stop bit. -/
theorem run_stop (sh q : BitVec 8) :
    Resting ((machine d).run (receiving d 9 (d.n / 2 + 1) sh q) (List.replicate d.n true))
      ∧ (machine d).allGiven (receiving d 9 (d.n / 2 + 1) sh q) (List.replicate d.n true)
          ++ ((machine d).run (receiving d 9 (d.n / 2 + 1) sh q)
            (List.replicate d.n true)).delivered = [⟨sh⟩] := by
  have hfour := d.four_le
  obtain ⟨hrun, hgiven⟩ := run_count (d := d) (k := 9) (j := 0) (n := d.n / 2 + 1) (by omega) sh q
    true
  rw [Nat.add_zero] at hrun hgiven
  obtain ⟨hrest, hbyte⟩ := step_stop (d := d) sh q
  obtain ⟨hend, hlast⟩ := run_idle hrest d.left
  rw [d.bit_cycles, StreamMachine.run_append, StreamMachine.allGiven_append, hrun, hgiven,
    StreamMachine.run_cons, StreamMachine.allGiven]
  exact ⟨hend, hlast.trans hbyte⟩

/-- The register after the first `n` bits. -/
def collected (b sh : BitVec 8) (n : ℕ) : BitVec 8 :=
  (List.range n).foldl (fun sh i => shifted sh (b.getLsbD i)) sh

theorem shifted_getLsbD (sh : BitVec 8) (v : Bool) {i : ℕ} (h : i < 8) :
    (shifted sh v).getLsbD i = if i = 7 then v else sh.getLsbD (i + 1) := by
  rw [shifted, BitVec.getLsbD_cons]
  split
  · rfl
  · rename_i hne
    rw [BitVec.getLsbD_extractLsb', Nat.add_comm 1 i]
    simp [show i < 7 by omega]

/-- The bits come in from above. -/
theorem collected_getLsbD (b sh : BitVec 8) {n i : ℕ} (hn : n ≤ 8) (hi : i < 8) :
    (collected b sh n).getLsbD i =
      if i + n < 8 then sh.getLsbD (i + n) else b.getLsbD (i + n - 8) := by
  induction n generalizing i with
  | zero =>
    rw [Nat.add_zero, if_pos hi]
    rfl
  | succ n ih =>
    have hshift : collected b sh (n + 1) = shifted (collected b sh n) (b.getLsbD n) := by
      rw [collected, List.range_succ, List.foldl_append]
      rfl
    rw [hshift, shifted_getLsbD _ _ hi]
    split
    · rename_i htop
      rw [if_neg (by omega)]
      congr 1
      omega
    · rw [ih (by omega) (by omega), Nat.add_right_comm i 1 n]
      rfl

/-- Eight bits push out what was there. -/
theorem collected_eight (b sh : BitVec 8) : collected b sh 8 = b := by
  apply BitVec.eq_of_getLsbD_eq
  intro i hi
  rw [collected_getLsbD b sh (Nat.le_refl 8) hi, if_neg (by omega), Nat.add_sub_cancel]

/-- The data bits. Induction on their number. -/
theorem run_bits (b sh q : BitVec 8) {n : ℕ} (h : n ≤ 8) :
    (machine d).run (receiving d 1 (d.n / 2 + 1) sh q)
        ((List.range n).flatMap fun i => List.replicate d.n (b.getLsbD i)) =
        receiving d (n + 1) (d.n / 2 + 1) (collected b sh n) q
      ∧ (machine d).allGiven (receiving d 1 (d.n / 2 + 1) sh q)
        ((List.range n).flatMap fun i => List.replicate d.n (b.getLsbD i)) = [] := by
  induction n with
  | zero => exact ⟨rfl, rfl⟩
  | succ n ih =>
    obtain ⟨hrun, hgiven⟩ := ih (Nat.le_of_succ_le h)
    obtain ⟨hrun', hgiven'⟩ := run_data (d := d) (k := n + 1) (by omega) h (collected b sh n) q
      (b.getLsbD n)
    rw [List.range_succ, List.flatMap_append, List.flatMap_singleton, StreamMachine.run_append,
      StreamMachine.allGiven_append, hrun, hgiven, hrun', hgiven', collected, collected,
      List.range_succ, List.foldl_append]
    exact ⟨rfl, rfl⟩

/-- A whole byte. The pulse of the byte before may come in its first cycle. -/
theorem run_wave {s : RxEngine d} (hs : s.Resting) (b : UInt8) :
    Resting ((machine d).run s (wave d b))
      ∧ (machine d).allGiven s (wave d b) ++ ((machine d).run s (wave d b)).delivered =
        s.delivered ++ [b] := by
  obtain ⟨hstart, hpulse⟩ := run_start hs
  obtain ⟨hdata, hnone'⟩ := run_bits (d := d) b.toBitVec s.rxsh s.rxbQ (Nat.le_refl 8)
  obtain ⟨hend, hbyte⟩ := run_stop (d := d) b.toBitVec s.rxbQ
  rw [collected_eight] at hdata
  rw [wave, StreamMachine.run_append, StreamMachine.run_append, StreamMachine.allGiven_append,
    StreamMachine.allGiven_append, StreamMachine.run_append, hstart, hpulse, hdata, hnone',
    List.append_nil, List.append_assoc]
  exact ⟨hend, congrArg (s.delivered ++ ·) hbyte⟩

end RxEngine

/-- A line that carries bytes: each is its wave, with any number of idle cycles in front. -/
inductive Waves (d : Divisor) : List UInt8 → List Bool → Prop where
  | nil : Waves d [] []
  | idle {bs line} (h : Waves d bs line) : Waves d bs (true :: line)
  | byte {bs line} (b : UInt8) (h : Waves d bs line) : Waves d (b :: bs) (wave d b ++ line)

/-- The transmitter's line. -/
theorem Sends.waves {is : List (Option UInt8)} {bs : List UInt8} {line : List Bool}
    (h : Sends d is bs line) : Waves d bs line := by
  induction h with
  | nil => exact .nil
  | idle h ih => exact .idle ih
  | byte b ignored hlen h ih => exact .idle (.byte b ih)

namespace Waves

variable {bs bs' : List UInt8} {line line' : List Bool}

theorem idles (h : Waves d bs line) (n : ℕ) : Waves d bs (List.replicate n true ++ line) := by
  induction n with
  | zero => exact h
  | succ n ih => exact .idle ih

theorem append (h : Waves d bs line) (h' : Waves d bs' line') :
    Waves d (bs ++ bs') (line ++ line') := by
  induction h with
  | nil => exact h'
  | idle h ih => exact .idle ih
  | byte b h ih =>
    rw [List.cons_append, List.append_assoc]
    exact .byte b ih

/-- The receiver over such a line. The pulse of a byte may come in the cycle behind its wave. -/
theorem rx (h : Waves d bs line) {s : RxEngine d} (hs : s.Resting) :
    ((RxEngine.machine d).run s line).Resting
      ∧ (RxEngine.machine d).allGiven s line ++ ((RxEngine.machine d).run s line).delivered =
        s.delivered ++ bs := by
  induction h generalizing s with
  | nil => exact ⟨hs, (List.append_nil _).symm⟩
  | @idle bs line h ih =>
    have hstep : (RxEngine.machine d).step s true = { s with rxbV := false } :=
      RxEngine.step_idle hs
    obtain ⟨hend, hgiven⟩ := ih (s := { s with rxbV := false }) hs
    rw [StreamMachine.run_cons, StreamMachine.allGiven, hstep, List.append_assoc, hgiven]
    exact ⟨hend, rfl⟩
  | @byte bs line b h ih =>
    obtain ⟨hrest, hbyte⟩ := RxEngine.run_wave hs b
    obtain ⟨hend, hgiven⟩ := ih hrest
    rw [StreamMachine.run_append, StreamMachine.allGiven_append, List.append_assoc, hgiven,
      ← List.append_assoc, hbyte, List.append_assoc]
    exact ⟨hend, rfl⟩

end Waves

/-! ## The link -/

/-- The engine sees the line two cycles late. -/
theorem SerialRx.allGiven_eq (s : SerialRx d) (line : List Bool) :
    (SerialRx.machine d).allGiven s line =
      (RxEngine.machine d).allGiven s.engine ((s.rxdS :: s.rxdM :: line).take line.length) := by
  induction line generalizing s with
  | nil => rfl
  | cons v line ih =>
    rw [StreamMachine.allGiven, ih, List.length_cons, List.take_succ_cons, StreamMachine.allGiven]
    rfl

/-- The receiver behind reset, over a line and three idle cycles. -/
theorem Waves.serialRx {bs : List UInt8} {line : List Bool} (h : Waves d bs line) :
    (SerialRx.machine d).allGiven ⟨true, true, RxEngine.reset⟩ (line ++ List.replicate 3 true) =
      bs := by
  have hrest : (RxEngine.reset : RxEngine d).Resting := rfl
  obtain ⟨-, hgiven⟩ := (Waves.idle (Waves.idle h)).rx hrest
  have hlate : (true :: true :: (line ++ List.replicate 3 true)).take
      (line ++ List.replicate 3 true).length = true :: true :: line ++ [true] := by
    have hlen : (line ++ List.replicate 3 true).length = line.length + 1 + 1 + 1 := by simp
    rw [hlen, List.take_succ_cons, List.take_succ_cons, List.take_length_add_append]
    rfl
  rw [SerialRx.allGiven_eq, hlate, StreamMachine.allGiven_append]
  -- the last cycle shows what the byte before it left on `rxb_q`
  show _ ++ (((RxEngine.machine d).run _ _).delivered ++ []) = bs
  rw [List.append_nil]
  exact hgiven

namespace Loopback

theorem allTaken_eq (s : Loopback d) (is : List (Option UInt8)) :
    (machine d).allTaken s is = (SerialTx.machine d).allTaken s.tx is := by
  induction is generalizing s with
  | nil => rfl
  | cons go is ih =>
    rw [StreamMachine.allTaken, StreamMachine.allTaken, ih]
    rfl

theorem allGiven_eq (s : Loopback d) (is : List (Option UInt8)) :
    (machine d).allGiven s is =
      (SerialRx.machine d).allGiven s.rx ((SerialTx.machine d).allGiven s.tx is) := by
  induction is generalizing s with
  | nil => rfl
  | cons go is ih =>
    rw [StreamMachine.allGiven, StreamMachine.allGiven, ih]
    rfl

/-- Three cycles of reset leave nothing of what was before. -/
theorem start_eq (s : Loopback d) :
    s.start = ⟨SerialTx.reset, ⟨true, true, RxEngine.reset⟩⟩ := rfl

/-- A schedule that ends with a whole byte, and three cycles for the receiver to see it. -/
theorem run_sends (s : Loopback d) {is : List (Option UInt8)} {bs : List UInt8} {line : List Bool}
    (h : Sends d is bs line) :
    (machine d).allTaken s.start is = bs
      ∧ (machine d).allGiven s.start (is ++ List.replicate 3 none) = bs := by
  have htx : (SerialTx.reset : SerialTx d).Resting := rfl
  obtain ⟨htaken, -, -⟩ := h.tx htx
  obtain ⟨-, hline, -⟩ := (h.append (sends_idle d 3)).tx htx
  rw [allTaken_eq, allGiven_eq, start_eq]
  refine ⟨htaken, ?_⟩
  rw [hline]
  exact h.waves.serialRx

/-- Nothing is taken where nothing is offered. -/
theorem allTaken_none (s : Loopback d) (n : ℕ) :
    (machine d).allTaken s (List.replicate n none) = [] := by
  induction n generalizing s with
  | zero => rfl
  | succ n ih =>
    have hnone : (machine d).taken s none = [] := by
      show s.tx.sent none = []
      simp [SerialTx.sent]
    rw [List.replicate_succ, StreamMachine.allTaken, hnone, ih]
    rfl

/-- Bytes with idle cycles in front of each. -/
def paced (d : Divisor) (bs : List (ℕ × UInt8)) : List (Option UInt8) :=
  bs.flatMap fun b => List.replicate b.1 none ++ (some b.2 :: List.replicate (10 * d.n) none)

theorem paced_sends (bs : List (ℕ × UInt8)) :
    ∃ line, Sends d (paced d bs) (bs.map Prod.snd) line := by
  induction bs with
  | nil => exact ⟨[], .nil⟩
  | cons b bs ih =>
    obtain ⟨line, ih⟩ := ih
    have hbyte : Sends d (some b.2 :: (List.replicate (10 * d.n) none ++ paced d bs))
        (b.2 :: bs.map Prod.snd) _ := .byte b.2 _ List.length_replicate ih
    rw [paced, List.flatMap_cons, List.append_assoc, List.cons_append]
    exact ⟨_, (sends_idle d b.1).append hbyte⟩

/-- A line with the bytes, each behind its idle cycles, of which there may be none. -/
def pacedLine (d : Divisor) (bs : List (ℕ × UInt8)) : List Bool :=
  bs.flatMap fun b => List.replicate b.1 true ++ wave d b.2

theorem waves_pacedLine (bs : List (ℕ × UInt8)) :
    Waves d (bs.map Prod.snd) (pacedLine d bs) := by
  induction bs with
  | nil => exact .nil
  | cons b bs ih =>
    rw [pacedLine, List.flatMap_cons, List.append_assoc]
    exact (Waves.byte b.2 ih).idles b.1

/-- **Loopback.** From reset on, whatever the transmitter is offered and when: the receiver delivers
the bytes that were taken, each once and in order, the last one at most a wave and three cycles
late. Bytes with any gaps between them are all taken. -/
theorem loopback_delivers (s : Loopback d) (is : List (Option UInt8)) (bs : List (ℕ × UInt8)) :
    (machine d).allGiven s.start (is ++ List.replicate (10 * d.n + 3) none) =
        (machine d).allTaken s.start is
      ∧ (machine d).allGiven s.start is <+: (machine d).allTaken s.start is
      ∧ (machine d).allTaken s.start (paced d bs) = bs.map Prod.snd
      ∧ (machine d).allGiven s.start (paced d bs ++ List.replicate 3 none) = bs.map Prod.snd := by
  have hall : (machine d).allGiven s.start (is ++ List.replicate (10 * d.n + 3) none) =
      (machine d).allTaken s.start is := by
    obtain ⟨sent, line, h⟩ := exists_sends is (Nat.le_refl (10 * d.n))
    obtain ⟨htaken, hgiven⟩ := run_sends s h
    rw [List.replicate_add, ← List.append_assoc, hgiven, ← htaken, StreamMachine.allTaken_append,
      allTaken_none, List.append_nil]
  obtain ⟨line, hsends⟩ := paced_sends (d := d) bs
  obtain ⟨htaken, hgiven⟩ := run_sends s hsends
  refine ⟨hall, ?_, htaken, hgiven⟩
  rw [← hall, StreamMachine.allGiven_append]
  exact List.prefix_append _ _

end Loopback

end ItchOrderbook.Rtl
