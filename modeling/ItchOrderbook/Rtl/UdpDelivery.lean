import ItchOrderbook.Lib.Grouping
import ItchOrderbook.Rtl.MoldDelivery
import ItchOrderbook.Rtl.UdpStripper

/-!
# What the UDP stripper delivers

The stripper skips two words and ten bytes of the third. That is the header when the first two
words are full; the module says that partial beats are legal anywhere. `Strips` is what it is there
for, `strips_iff` says for which beats it does it: a partial beat in the header shifts the cut, and
a header that ends with the third beat leaves the payload behind it without its `out_sop`.
-/

namespace ItchOrderbook.Rtl

open UdpState

/-! ## One word -/

/-- What word number `k` of a datagram comes out as. -/
def stripWord (k : ℕ) (b : Beat) : List (Bool × Beat) :=
  if k < 2 then []
  else if k = 2 then if 10 < b.nbytes.toNat then [(true, repacked b)] else []
  else [(false, b)]

/-- The number of the next word and what has come out. -/
def feedWord (a : ℕ × List (Bool × Beat)) (t : Bool × Beat) : ℕ × List (Bool × Beat) :=
  let k := if t.1 then 0 else a.1
  (min (k + 1) 65535, a.2 ++ stripWord k t.2)

theorem repacked_nbytes {b : Beat} (h : 10 < b.nbytes.toNat) :
    (repacked b).nbytes.toNat = b.nbytes.toNat - 10 := by
  have hlt : hdrSkipRem < b.nbytes := BitVec.lt_def.2 h
  show (if hdrSkipRem < b.nbytes then b.nbytes - hdrSkipRem else 0).toNat = _
  rw [if_pos hlt, BitVec.toNat_sub_of_le (BitVec.le_def.2 (show hdrSkipRem.toNat ≤ _ from h.le))]
  rfl

/-- The repacked word carries the bytes behind the header. -/
theorem repacked_bytes {b : Beat} (hok : b.Ok) (h : 10 < b.nbytes.toNat) :
    (repacked b).bytes = b.bytes.drop 10 := by
  refine List.ext_getElem? fun j => ?_
  have h16 := hok.2
  rw [Beat.bytes, List.getElem?_take, repacked_nbytes h, Beat.bytes, List.getElem?_drop,
    List.getElem?_take]
  rcases Nat.lt_or_ge j (b.nbytes.toNat - 10) with hj | hj
  · rw [if_pos hj, if_pos (by omega)]
    have hshift : hdrSkipRem.toNat = 10 := rfl
    simp [repacked, hshift, show j < 16 by omega, show 10 + j < 16 by omega, Nat.add_comm j 10]
  · rw [if_neg (by omega), if_neg (by omega)]

/-! ## The handshakes -/

/-- The state has counted the words that were taken, and what they come out as was given. -/
structure Stripped (s : UdpState) (as bs : List (Bool × Beat)) : Prop where
  words : s.wordIdx.toNat = (as.foldl feedWord (0, [])).1
  out : bs = (as.foldl feedWord (0, [])).2

variable {s : UdpState} {i : UdpIn}

theorem wordIdxEff_toNat (s : UdpState) (hv : i.inValid = true) :
    (s.wordIdxEff false i).toNat = if i.inSop then 0 else s.wordIdx.toNat := by
  rw [wordIdxEff, hv]
  cases i.inSop with
  | true => rfl
  | false => rfl

/-- The output of a valid word, by its number. -/
theorem out_eq (s : UdpState) (hv : i.inValid = true) :
    (if s.outValid false i then [(s.outSop false i, s.outBeat false i)] else []) =
      stripWord (s.wordIdxEff false i).toNat i.inBeat := by
  have hhdr : s.hdrWord false i = decide ((s.wordIdxEff false i).toNat < 2) := by
    rw [hdrWord, Bool.not_false, Bool.true_and]
    exact decide_eq_decide.2 UInt16.lt_iff_toNat_lt
  have hsplit : s.splitWord false i = decide ((s.wordIdxEff false i).toNat = 2) := by
    rw [splitWord, Bool.not_false, Bool.true_and, Bool.eq_iff_iff, beq_iff_eq, decide_eq_true_iff]
    exact UInt16.toNat_inj.symm
  have hrem : decide (hdrSkipRem < i.inBeat.nbytes) = decide (10 < i.inBeat.nbytes.toNat) :=
    decide_eq_decide.2 BitVec.lt_def
  rw [stripWord, outSop, outBeat, outValid, hhdr, hsplit, hv, hrem]
  rcases lt_trichotomy (s.wordIdxEff false i).toNat 2 with h | h | h
  · simp [h, h.ne]
  · by_cases hlen : 10 < i.inBeat.nbytes.toNat
    · simp [h, hlen]
    · simp [h, hlen]
  · simp [h.ne', Nat.not_lt.2 h.le]

/-- What one cycle does: nothing changes hands, or a word does and comes out as its number says. A
word that is taken while the output is not ready is header. -/
theorem cycle_cases (s : UdpState) (i : UdpIn) :
    ((udpStripper false).taken s i = [] ∧ (udpStripper false).given s i = [] ∧
        s.step false i = s) ∨
      ((udpStripper false).taken s i = [(i.inSop, i.inBeat)] ∧
        (udpStripper false).given s i =
          stripWord (if i.inSop then 0 else s.wordIdx.toNat) i.inBeat ∧
        (s.step false i).wordIdx.toNat =
          min ((if i.inSop then 0 else s.wordIdx.toNat) + 1) 65535) := by
  have htaken : (udpStripper false).taken s i =
      if i.inValid && s.inReady false i.outReady then [(i.inSop, i.inBeat)] else [] := rfl
  have hgiven : (udpStripper false).given s i =
      if s.outValid false i && i.outReady then [(s.outSop false i, s.outBeat false i)] else [] :=
    rfl
  cases hv : i.inValid with
  | false =>
    have hout : s.outValid false i = false := by
      rw [outValid, hv]
      split <;> rfl
    refine .inl ⟨?_, ?_, ?_⟩
    · rw [htaken, hv]
      rfl
    · rw [hgiven, hout]
      rfl
    · rw [UdpState.step, hv]
      rfl
  | true =>
    have heff := wordIdxEff_toNat s hv
    have hout := out_eq s hv
    have hready : s.inReady false i.outReady = (i.outReady || decide (s.wordIdx.toNat < 2)) := by
      rw [inReady, Bool.not_false, Bool.true_and]
      exact congrArg _ (decide_eq_decide.2 UInt16.lt_iff_toNat_lt)
    cases hr : s.inReady false i.outReady with
    | false =>
      obtain ⟨hnot, -⟩ := Bool.or_eq_false_iff.1 (hready ▸ hr)
      refine .inl ⟨?_, ?_, ?_⟩
      · rw [htaken, hr, Bool.and_false]
        rfl
      · rw [hgiven, hnot, Bool.and_false]
        rfl
      · rw [UdpState.step, hr, Bool.and_false]
        rfl
    | true =>
      refine .inr ⟨?_, ?_, ?_⟩
      · rw [htaken, hv, hr]
        rfl
      · rw [hgiven, ← heff, ← hout]
        cases ho : i.outReady with
        | true => rw [Bool.and_true]
        | false =>
          -- the register is below 2, so the word is header
          rw [hready, ho, Bool.false_or, decide_eq_true_iff] at hr
          have hlt : (s.wordIdxEff false i).toNat < 2 := by
            rw [heff]
            split <;> omega
          rw [hout, stripWord, if_pos hlt, Bool.and_false]
          rfl
      · rw [UdpState.step, hv, hr, Bool.and_self, if_pos rfl, ← heff]
        split
        · rename_i hlt
          have hnat := UInt16.lt_iff_toNat_lt.1 hlt
          show (s.wordIdxEff false i + 1).toNat = _
          rw [UInt16.toNat_add]
          simp at hnat ⊢
          omega
        · rename_i hge
          -- the count has reached its largest value, and only inside a datagram
          have hnat : 65535 ≤ (s.wordIdxEff false i).toNat :=
            Nat.le_of_not_lt fun h => hge (UInt16.lt_iff_toNat_lt.2 h)
          have hlt := s.wordIdx.toNat_lt
          rw [heff] at hnat ⊢
          split at hnat
          · omega
          · rename_i hsop
            rw [if_neg hsop]
            omega

/-- One cycle more. -/
theorem Stripped.step {as bs : List (Bool × Beat)} (h : Stripped s as bs) (i : UdpIn) :
    Stripped ((udpStripper false).step s i) (as ++ (udpStripper false).taken s i)
      (bs ++ (udpStripper false).given s i) := by
  rcases cycle_cases s i with ⟨htaken, hgiven, hstep⟩ | ⟨htaken, hgiven, hstep⟩
  · have hstep : (udpStripper false).step s i = s := hstep
    rw [htaken, hgiven, hstep, List.append_nil, List.append_nil]
    exact h
  · rw [htaken, hgiven]
    refine ⟨?_, ?_⟩
    · show (s.step false i).wordIdx.toNat = _
      rw [hstep, List.foldl_append, h.words]
      rfl
    · rw [List.foldl_append, h.out, h.words]
      rfl

/-- Any number of cycles after reset. -/
theorem strip_inv (is : List UdpIn) :
    (udpStripper false).allGiven UdpState.reset is =
      (((udpStripper false).allTaken UdpState.reset is).foldl feedWord (0, [])).2 := by
  have hstep (s : UdpState) (as bs : List (Bool × Beat)) (i : UdpIn)
      (_ : ∀ t ∈ (udpStripper false).taken s i, True) (h : Stripped s as bs) :
      Stripped ((udpStripper false).step s i) (as ++ (udpStripper false).taken s i)
        (bs ++ (udpStripper false).given s i) := h.step i
  have hstart : Stripped UdpState.reset [] [] := ⟨rfl, rfl⟩
  exact (StreamMachine.run_inv hstep hstart is fun _ _ => trivial).out

/-! ## Datagrams -/

/-- What the words of a datagram come out as. -/
def DatagramBeats.stripped (g : DatagramBeats) : List (Bool × Beat) :=
  match g.rest with
  | [] => []
  | [_] => []
  | _ :: b :: bs => stripWord 2 b ++ bs.map fun b => (false, b)

/-- The words of a datagram behind the third. -/
theorem foldl_feedWord_body {k : ℕ} (hk : 3 ≤ k) (out : List (Bool × Beat)) (bs : List Beat) :
    ∃ k', (bs.map fun b => (false, b)).foldl feedWord (k, out) =
      (k', out ++ bs.map fun b => (false, b)) := by
  induction bs generalizing k out with
  | nil => exact ⟨k, by rw [List.map_nil, List.append_nil]; rfl⟩
  | cons b bs ih =>
    have hstrip : stripWord k b = [(false, b)] := by
      rw [stripWord, if_neg (by omega), if_neg (by omega)]
    have hword : feedWord (k, out) (false, b) = (min (k + 1) 65535, out ++ [(false, b)]) := by
      show (min (k + 1) 65535, out ++ stripWord k b) = _
      rw [hstrip]
    obtain ⟨k', hk'⟩ := ih (k := min (k + 1) 65535) (by omega) (out ++ [(false, b)])
    refine ⟨k', ?_⟩
    rw [List.map_cons, List.foldl_cons, hword, hk', List.append_assoc]
    rfl

/-- One datagram, whatever came before it. -/
theorem foldl_feedWord_datagram (a : ℕ × List (Bool × Beat)) (g : DatagramBeats) :
    ∃ k, g.beats.foldl feedWord a = (k, a.2 ++ g.stripped) := by
  obtain ⟨first, rest, -, -⟩ := g
  match rest with
  | [] => exact ⟨1, by simp [DatagramBeats.beats, DatagramBeats.stripped, feedWord, stripWord]⟩
  | [b] => exact ⟨2, by simp [DatagramBeats.beats, DatagramBeats.stripped, feedWord, stripWord]⟩
  | b :: c :: bs =>
    obtain ⟨k, hk⟩ := foldl_feedWord_body (k := 3) le_rfl (a.2 ++ stripWord 2 c) bs
    refine ⟨k, ?_⟩
    have hthree : feedWord (feedWord (feedWord a (true, first)) (false, b)) (false, c) =
        (3, a.2 ++ stripWord 2 c) := by
      simp [feedWord, stripWord]
    show (bs.map fun b => (false, b)).foldl feedWord
      (feedWord (feedWord (feedWord a (true, first)) (false, b)) (false, c)) = _
    rw [hthree, hk, List.append_assoc]
    rfl

theorem foldl_feedWord_datagrams (gs : List DatagramBeats) :
    ((gs.flatMap DatagramBeats.beats).foldl feedWord (0, [])).2 =
      gs.flatMap DatagramBeats.stripped := by
  have hany (a : ℕ × List (Bool × Beat)) :
      ((gs.flatMap DatagramBeats.beats).foldl feedWord a).2 =
        a.2 ++ gs.flatMap DatagramBeats.stripped := by
    induction gs generalizing a with
    | nil => exact (List.append_nil _).symm
    | cons g gs ih =>
      obtain ⟨k, hk⟩ := foldl_feedWord_datagram a g
      rw [List.flatMap_cons, List.foldl_append, hk, ih, List.flatMap_cons, List.append_assoc]
  exact (hany _).trans (List.nil_append _)

/-! ## What it is there for -/

/-- The bytes of some beats. -/
def bytesOf (ts : List (Bool × Beat)) : List UInt8 := ts.flatMap fun t => t.2.bytes

theorem bytesOf_length (ts : List (Bool × Beat)) :
    (bytesOf ts).length = Grouping.weight (fun t => t.2.bytes.length) ts :=
  List.length_flatMap

/-- What is delivered are the bytes of the datagrams from 42 on, in one group of beats for each
datagram, and `out_sop` marks exactly the first beat of each group. -/
def Strips (gs : List DatagramBeats) (given : List (Bool × Beat)) : Prop :=
  ∃ groups : List (List (Bool × Beat)), groups.flatten = given ∧
    groups.map bytesOf = gs.map (fun g => g.payload.drop 42) ∧
    ∀ ts ∈ groups, ∀ k t, ts[k]? = some t → (t.1 = true ↔ k = 0)

/-- The bytes delivered, without the groups. -/
theorem Strips.bytes {gs : List DatagramBeats} {given : List (Bool × Beat)}
    (h : Strips gs given) : bytesOf given = gs.flatMap fun g => g.payload.drop 42 := by
  obtain ⟨groups, rfl, hbytes, -⟩ := h
  have hflat : bytesOf groups.flatten = (groups.map bytesOf).flatten := by
    simp only [bytesOf, List.flatMap_def, List.map_flatten, List.flatten_flatten, List.map_map]
    rfl
  rw [hflat, hbytes, List.flatMap_def]

namespace DatagramBeats

/-- The header takes up two full words and a part of the third, or there is nothing behind it: at
most three words, the third within the header. -/
def HeaderAligned (g : DatagramBeats) : Prop :=
  match g.rest with
  | [] => True
  | [_] => True
  | b :: c :: bs =>
    (g.first.nbytes.toNat = 16 ∧ b.nbytes.toNat = 16 ∧ 10 < c.nbytes.toNat) ∨
      (c.nbytes.toNat ≤ 10 ∧ bs = [])

/-- The third word gives what is behind its first ten bytes. -/
theorem bytesOf_stripWord {c : Beat} (hok : c.Ok) :
    bytesOf (stripWord 2 c) = c.bytes.drop 10 := by
  rw [stripWord, if_neg (lt_irrefl 2), if_pos rfl]
  split
  · rename_i hlen
    rw [bytesOf, List.flatMap_singleton, repacked_bytes hok hlen]
  · rename_i hlen
    rw [List.drop_eq_nil_of_le (by rw [hok.bytes_length]; omega)]
    rfl

theorem bytesOf_body (bs : List Beat) :
    bytesOf (bs.map fun b => (false, b)) = bs.flatMap Beat.bytes := by
  rw [bytesOf, List.flatMap_map]

/-- Every delivered beat carries something. -/
theorem stripped_pos (g : DatagramBeats) : ∀ t ∈ g.stripped, 0 < t.2.bytes.length := by
  obtain ⟨first, rest, -, hrest⟩ := g
  match rest with
  | [] => exact fun t ht => absurd ht List.not_mem_nil
  | [b] => exact fun t ht => absurd ht List.not_mem_nil
  | b :: c :: bs =>
    intro t ht
    rcases List.mem_append.1 ht with ht | ht
    · rw [stripWord, if_neg (lt_irrefl 2), if_pos rfl] at ht
      split at ht
      · rename_i hlen
        have hok : c.Ok := hrest c (by simp)
        rw [List.mem_singleton.1 ht, repacked_bytes hok hlen, List.length_drop, hok.bytes_length]
        omega
      · exact absurd ht List.not_mem_nil
    · obtain ⟨d, hd, rfl⟩ := List.mem_map.1 ht
      have hok : d.Ok := hrest d (by simp [hd])
      rw [hok.bytes_length]
      exact hok.1

/-- No datagram loses a byte of its payload. -/
theorem payload_length_le (g : DatagramBeats) :
    (g.payload.drop 42).length ≤ (bytesOf g.stripped).length := by
  obtain ⟨first, rest, hfirst, hrest⟩ := g
  have h₀ := hfirst.bytes_length
  have h₀' := hfirst.2
  match rest with
  | [] =>
    simp [payload, h₀]
    omega
  | [b] =>
    have hb : b.Ok := hrest b (by simp)
    have h₁ := hb.bytes_length
    have h₁' := hb.2
    simp [payload, h₀, h₁]
    omega
  | b :: c :: bs =>
    have hb : b.Ok := hrest b (by simp)
    have hc : c.Ok := hrest c (by simp)
    have h₁ := hb.bytes_length
    have h₁' := hb.2
    have h₂ := hc.bytes_length
    show _ ≤ (bytesOf (stripWord 2 c ++ bs.map fun b => (false, b))).length
    rw [bytesOf, List.flatMap_append, ← bytesOf, ← bytesOf, bytesOf_stripWord hc, bytesOf_body]
    simp only [payload, List.flatMap_cons, List.length_drop, List.length_append]
    omega

/-- A datagram is stripped as it should be exactly if its header is aligned. -/
theorem stripped_iff (g : DatagramBeats) :
    (bytesOf g.stripped = g.payload.drop 42 ∧
      ∀ k t, g.stripped[k]? = some t → (t.1 = true ↔ k = 0)) ↔ g.HeaderAligned := by
  obtain ⟨first, rest, hfirst, hrest⟩ := g
  have h₀ := hfirst.bytes_length
  have h₀' := hfirst.2
  match rest with
  | [] =>
    refine iff_of_true ⟨?_, fun k t ht => by cases ht⟩ trivial
    rw [List.drop_eq_nil_of_le]
    · rfl
    · simp [payload, h₀]
      omega
  | [b] =>
    have hb : b.Ok := hrest b (by simp)
    have h₁ := hb.bytes_length
    have h₁' := hb.2
    refine iff_of_true ⟨?_, fun k t ht => by cases ht⟩ trivial
    rw [List.drop_eq_nil_of_le]
    · rfl
    · simp [payload, h₀, h₁]
      omega
  | b :: c :: bs =>
    have hb : b.Ok := hrest b (by simp)
    have hc : c.Ok := hrest c (by simp)
    have h₁ := hb.bytes_length
    have h₁' := hb.2
    have h₂ := hc.bytes_length
    show (bytesOf (stripWord 2 c ++ bs.map fun b => (false, b)) =
        (first.bytes ++ (b :: c :: bs).flatMap Beat.bytes).drop 42 ∧
      ∀ k t, (stripWord 2 c ++ bs.map fun b => (false, b))[k]? = some t → (t.1 = true ↔ k = 0)) ↔
      (first.nbytes.toNat = 16 ∧ b.nbytes.toNat = 16 ∧ 10 < c.nbytes.toNat) ∨
        (c.nbytes.toNat ≤ 10 ∧ bs = [])
    have hbytes : bytesOf (stripWord 2 c ++ bs.map fun b => (false, b)) =
        c.bytes.drop 10 ++ bs.flatMap Beat.bytes := by
      rw [bytesOf, List.flatMap_append, ← bytesOf, ← bytesOf, bytesOf_stripWord hc, bytesOf_body]
    rw [hbytes, List.flatMap_cons, List.flatMap_cons]
    rcases Nat.lt_or_ge 10 c.nbytes.toNat with hlen | hlen
    · -- the third word gives the first beat, with its mark
      have hword : stripWord 2 c = [(true, repacked c)] := by
        rw [stripWord, if_neg (lt_irrefl 2), if_pos rfl, if_pos hlen]
      have hmarks : ∀ k t, (stripWord 2 c ++ bs.map fun b => (false, b))[k]? = some t →
          (t.1 = true ↔ k = 0) := by
        intro k t ht
        rw [hword] at ht
        match k with
        | 0 =>
          cases ht
          exact iff_of_true rfl rfl
        | k + 1 =>
          obtain ⟨d, -, rfl⟩ := List.mem_map.1 (List.mem_of_getElem? (show _[k]? = some t from ht))
          exact iff_of_false Bool.false_ne_true (Nat.succ_ne_zero k)
      constructor
      · rintro ⟨heq, -⟩
        have hlength := congrArg List.length heq
        simp only [List.length_append, List.length_drop] at hlength
        exact .inl ⟨by omega, by omega, hlen⟩
      · rintro (⟨hfull, hfull', -⟩ | ⟨hshort, -⟩)
        · refine ⟨?_, hmarks⟩
          have hhdr : (first.bytes ++ b.bytes).length = 32 := by
            rw [List.length_append]
            omega
          rw [← List.append_assoc first.bytes, List.drop_append,
            List.drop_eq_nil_of_le (hhdr.trans_le (by omega)), hhdr, List.nil_append,
            List.drop_append_of_le_length (by omega)]
        · omega
    · -- the third word is header too
      have hword : stripWord 2 c = [] := by
        rw [stripWord, if_neg (lt_irrefl 2), if_pos rfl, if_neg (by omega)]
      rw [hword, List.nil_append]
      cases bs with
      | nil =>
        refine iff_of_true ⟨?_, fun k t ht => by cases ht⟩ (.inr ⟨hlen, rfl⟩)
        rw [List.drop_eq_nil_of_le (by omega), List.drop_eq_nil_of_le]
        · rfl
        · simp only [List.flatMap_nil, List.append_nil, List.length_append]
          omega
      | cons d ds =>
        -- the beat behind it comes first and has no mark
        refine iff_of_false (fun h => ?_) ?_
        · exact Bool.false_ne_true ((h.2 0 (false, d) rfl).2 rfl)
        · rintro (⟨-, -, hlong⟩ | ⟨-, hnil⟩)
          · omega
          · cases hnil

end DatagramBeats

/-- For every sequence of datagrams, every division of them into words of 1 to 16 bytes and every
schedule in which all of them are taken: what is delivered is what the stripper is there for exactly
if the header of every datagram is aligned. -/
theorem strips_iff (gs : List DatagramBeats) (is : List UdpIn)
    (htaken : (udpStripper false).allTaken UdpState.reset is = gs.flatMap DatagramBeats.beats) :
    Strips gs ((udpStripper false).allGiven UdpState.reset is) ↔ ∀ g ∈ gs, g.HeaderAligned := by
  rw [strip_inv, htaken, foldl_feedWord_datagrams, List.flatMap_def]
  constructor
  · rintro ⟨groups, hflat, hbytes, hmarks⟩
    -- no datagram loses bytes, so the groups are what the datagrams come out as
    have hle : List.Forall₂ (fun ts ts' =>
        Grouping.weight (fun t : Bool × Beat => t.2.bytes.length) ts ≤
          Grouping.weight (fun t => t.2.bytes.length) ts') groups (gs.map DatagramBeats.stripped) := by
      have hall : List.Forall₂ (fun ts g => bytesOf ts = g.payload.drop 42) groups gs := by
        rwa [← List.forall₂_eq_eq_eq, List.forall₂_map_left_iff, List.forall₂_map_right_iff]
          at hbytes
      rw [List.forall₂_map_right_iff]
      refine hall.imp fun ts g h => ?_
      rw [← bytesOf_length, ← bytesOf_length, h]
      exact g.payload_length_le
    have hgroups : groups = gs.map DatagramBeats.stripped := by
      refine Grouping.groups_eq_of_le hle hflat fun t ht => ?_
      obtain ⟨ts, hts, ht⟩ := List.mem_flatten.1 ht
      obtain ⟨g, -, rfl⟩ := List.mem_map.1 hts
      exact g.stripped_pos t ht
    subst hgroups
    intro g hg
    rw [List.map_map, List.map_inj_left] at hbytes
    exact g.stripped_iff.1 ⟨hbytes g hg, hmarks _ (List.mem_map_of_mem hg)⟩
  · intro haligned
    refine ⟨gs.map DatagramBeats.stripped, rfl, ?_, ?_⟩
    · rw [List.map_map, List.map_inj_left]
      exact fun g hg => (g.stripped_iff.2 (haligned g hg)).1
    · intro ts hts
      obtain ⟨g, hg, rfl⟩ := List.mem_map.1 hts
      exact (g.stripped_iff.2 (haligned g hg)).2

/-- The first `n` bytes of a word of zeros that ends in `1, 2, 3, 4, 5, 6`. -/
def zeroWord (n : BitVec 5) : Beat := ⟨#v[0, 0, 0, 0, 0, 0, 0, 0, 0, 0, 1, 2, 3, 4, 5, 6], n⟩

/-- A header of 42 bytes and six bytes of payload in three full words. -/
def fullWords : DatagramBeats := ⟨zeroWord 16, [zeroWord 16, zeroWord 16], by decide, by decide⟩

/-- The words offered one a cycle, with the output ready. -/
def offered (g : DatagramBeats) : List UdpIn := g.beats.map fun t => ⟨t.2, true, t.1, true⟩

theorem strips_iff_full_words :
    Strips [fullWords] ((udpStripper false).allGiven UdpState.reset (offered fullWords)) :=
  (strips_iff [fullWords] (offered fullWords) (by decide)).2 fun g hg => by
    rw [List.mem_singleton.1 hg]
    exact .inl ⟨rfl, rfl, by decide⟩

/-- A header of 42 bytes in words of 16, 12 and 14, then six bytes of payload. -/
def shortWord : DatagramBeats :=
  ⟨zeroWord 16, [zeroWord 12, zeroWord 14, ⟨#v[1, 2, 3, 4, 5, 6, 0, 0, 0, 0, 0, 0, 0, 0, 0, 0], 6⟩],
    by decide, by decide⟩

/-- The last four bytes of the header are delivered in front of the payload. -/
theorem short_word_leaks_header :
    ¬∀ (gs : List DatagramBeats) (is : List UdpIn),
      (udpStripper false).allTaken UdpState.reset is = gs.flatMap DatagramBeats.beats →
        Strips gs ((udpStripper false).allGiven UdpState.reset is) := by
  intro h
  have hbytes := (h [shortWord] (offered shortWord) (by decide)).bytes
  revert hbytes
  decide

/-- The same header with its last ten bytes in a word of their own. -/
def headerApart : DatagramBeats :=
  ⟨zeroWord 16, [zeroWord 16, zeroWord 10, ⟨#v[1, 2, 3, 4, 5, 6, 0, 0, 0, 0, 0, 0, 0, 0, 0, 0], 6⟩],
    by decide, by decide⟩

-- the payload comes out as it should, without its mark
example : (udpStripper false).allGiven UdpState.reset (offered headerApart) =
    [(false, ⟨#v[1, 2, 3, 4, 5, 6, 0, 0, 0, 0, 0, 0, 0, 0, 0, 0], 6⟩)] := by decide

end ItchOrderbook.Rtl
