import ItchOrderbook.Lib.BigEndian

/-!
# Length-prefixed framing

A stream of frames, each a body behind its length in two big-endian bytes. `split` takes a byte
string apart again: it yields the bodies that are complete, and `rest` is what it leaves. The
two facts that programs over such streams need are `split_append` (frames come off the front one
by one) and `split_take` (a cut keeps exactly the frames in front of it).
-/

namespace Framing

open BigEndian

/-- A body behind its length. -/
def frame (body : List UInt8) : List UInt8 := toBytes 2 body.length ++ body

@[simp] theorem frame_length (body : List UInt8) : (frame body).length = body.length + 2 := by
  simp [frame, Nat.add_comm]

/-- The length a prefix announces. -/
def announced (bs : List UInt8) : ℕ := ofBytes (bs.take 2)

/-- The bodies of the complete frames of a byte string. -/
def split (bs : List UInt8) : List (List UInt8) :=
  if bs.length < 2 + announced bs then []
  else ((bs.drop 2).take (announced bs)) :: split (bs.drop (2 + announced bs))
termination_by bs.length
decreasing_by simp only [List.length_drop]; omega

/-- What is left behind the last complete frame. -/
def rest (bs : List UInt8) : List UInt8 :=
  if bs.length < 2 + announced bs then bs else rest (bs.drop (2 + announced bs))
termination_by bs.length
decreasing_by simp only [List.length_drop]; omega

/-- Whether the string does not even hold its first frame. -/
def Incomplete (bs : List UInt8) : Prop := bs.length < 2 + announced bs

theorem Incomplete.split_eq {bs : List UInt8} (h : Incomplete bs) : split bs = [] := by
  rw [split]
  exact if_pos h

theorem Incomplete.rest_eq {bs : List UInt8} (h : Incomplete bs) : rest bs = bs := by
  rw [rest]
  exact if_pos h

theorem incomplete_nil : Incomplete [] := by simp [Incomplete]

theorem incomplete_of_length_lt {bs : List UInt8} (h : bs.length < 2) : Incomplete bs :=
  Nat.lt_of_lt_of_le h (Nat.le_add_right 2 _)

/-! ## Frames from the front -/

theorem announced_frame {body : List UInt8} (hb : body.length < 65536) (tail : List UInt8) :
    announced (frame body ++ tail) = body.length := by
  rw [announced, frame, List.append_assoc, List.take_left' (toBytes_length 2 _),
    ofBytes_toBytes_of_lt hb]

theorem announced_append {xs : List UInt8} (h : 2 ≤ xs.length) (ys : List UInt8) :
    announced (xs ++ ys) = announced xs := by
  rw [announced, announced, List.take_append_of_le_length h]

/-- A frame in front is the first body. -/
theorem split_frame {body : List UInt8} (hb : body.length < 65536) (tail : List UInt8) :
    split (frame body ++ tail) = body :: split tail := by
  rw [split, announced_frame hb, if_neg (by simp only [List.length_append, frame_length]; omega)]
  congr 1
  · rw [frame, List.append_assoc, List.drop_left' (toBytes_length 2 _), List.take_left' rfl]
  · rw [List.drop_left' (by rw [frame_length, Nat.add_comm])]

/-- Frames come off the front one by one. -/
theorem split_append {bodies : List (List UInt8)} (hb : ∀ b ∈ bodies, b.length < 65536)
    (tail : List UInt8) : split (bodies.flatMap frame ++ tail) = bodies ++ split tail := by
  induction bodies with
  | nil => rfl
  | cons body bodies ih =>
    rw [List.flatMap_cons, List.append_assoc, split_frame (hb body List.mem_cons_self),
      ih fun b h => hb b (List.mem_cons_of_mem _ h), List.cons_append]

theorem split_flatMap {bodies : List (List UInt8)} (hb : ∀ b ∈ bodies, b.length < 65536) :
    split (bodies.flatMap frame) = bodies := by
  have h := split_append hb []
  rwa [List.append_nil, incomplete_nil.split_eq, List.append_nil] at h

/-- Whole frames leave nothing behind. -/
theorem rest_flatMap {bodies : List (List UInt8)} (hb : ∀ b ∈ bodies, b.length < 65536) :
    rest (bodies.flatMap frame) = [] := by
  induction bodies with
  | nil => exact incomplete_nil.rest_eq
  | cons body bodies ih =>
    have hbody := hb body List.mem_cons_self
    rw [List.flatMap_cons, rest, announced_frame hbody,
      if_neg (by simp only [List.length_append, frame_length]; omega),
      List.drop_left' (by rw [frame_length, Nat.add_comm])]
    exact ih fun b h => hb b (List.mem_cons_of_mem _ h)

/-! ## Cuts -/

/-- A frame that was cut is not complete. -/
theorem incomplete_take {body : List UInt8} (hb : body.length < 65536) {tail : List UInt8} {n : ℕ}
    (hn : n < (frame body).length) : Incomplete ((frame body ++ tail).take n) := by
  rw [frame_length] at hn
  have hlen : ((frame body ++ tail).take n).length ≤ n := List.length_take_le n _
  rcases Nat.lt_or_ge n 2 with h2 | h2
  · exact incomplete_of_length_lt (Nat.lt_of_le_of_lt hlen h2)
  · -- the prefix survived the cut, so the announced length is that of the body
    have hann : announced ((frame body ++ tail).take n) = body.length := by
      rw [← announced_frame hb tail, announced, announced, List.take_take, Nat.min_eq_left h2]
    show _ < 2 + _
    rw [hann]
    omega

/-- A cut keeps exactly the frames that lie in front of it: the first `k`, where the cut falls
behind the `k`-th frame and, unless that is the last, before the end of the next. -/
theorem split_take {bodies : List (List UInt8)} (hb : ∀ b ∈ bodies, b.length < 65536) {n k : ℕ}
    (hk : k ≤ bodies.length) (hle : ((bodies.take k).flatMap frame).length ≤ n)
    (hlt : k < bodies.length → n < ((bodies.take (k + 1)).flatMap frame).length) :
    split ((bodies.flatMap frame).take n) = bodies.take k := by
  induction bodies generalizing n k with
  | nil => simp [incomplete_nil.split_eq]
  | cons body bodies ih =>
    have hbody := hb body List.mem_cons_self
    cases k with
    | zero =>
      have h : n < (frame body).length := by simpa using hlt (Nat.succ_pos _)
      rw [List.flatMap_cons, (incomplete_take hbody h).split_eq, List.take_zero]
    | succ k =>
      rw [List.take_succ_cons, List.flatMap_cons, List.length_append] at hle
      have hn : n = (frame body).length + (n - (frame body).length) := by omega
      rw [List.flatMap_cons, hn, List.take_length_add_append, split_frame hbody, List.take_succ_cons,
        ih (fun b h => hb b (List.mem_cons_of_mem _ h)) (Nat.le_of_succ_le_succ hk) (by omega)]
      intro hk'
      have h := hlt (Nat.succ_lt_succ hk')
      rw [List.take_succ_cons, List.flatMap_cons, List.length_append] at h
      omega

/-- What comes behind does not change the frames in front. -/
theorem split_mono {xs ys : List UInt8} (h : xs <+: ys) : split xs <+: split ys := by
  obtain ⟨tail, rfl⟩ := h
  induction xs using split.induct with
  | case1 xs hshort =>
    rw [Incomplete.split_eq hshort]
    exact List.nil_prefix
  | case2 xs hfull ih =>
    have hann : announced (xs ++ tail) = announced xs := announced_append (by omega) tail
    have hfirst : split xs = _ := split.eq_1 xs
    have hall : split (xs ++ tail) = _ := split.eq_1 (xs ++ tail)
    rw [if_neg hfull] at hfirst
    rw [hann, if_neg (by rw [List.length_append]; omega),
      List.drop_append_of_le_length (by omega), List.drop_append_of_le_length (by omega),
      List.take_append_of_le_length (by rw [List.length_drop]; omega)] at hall
    rw [hfirst, hall]
    exact (List.prefix_cons_inj _).2 ih

/-- Every cut falls behind some number of complete frames. -/
theorem exists_cut (bodies : List (List UInt8)) (n : ℕ) :
    ∃ k ≤ bodies.length, ((bodies.take k).flatMap frame).length ≤ n ∧
      (k < bodies.length → n < ((bodies.take (k + 1)).flatMap frame).length) := by
  induction bodies generalizing n with
  | nil => exact ⟨0, by simp⟩
  | cons body bodies ih =>
    rcases Nat.lt_or_ge n (frame body).length with h | h
    · exact ⟨0, Nat.zero_le _, by simp, fun _ => by simpa using h⟩
    · obtain ⟨k, hk, hle, hlt⟩ := ih (n - (frame body).length)
      refine ⟨k + 1, Nat.succ_le_succ hk, ?_, fun hk' => ?_⟩
      · rw [List.take_succ_cons, List.flatMap_cons, List.length_append]
        omega
      · have := hlt (Nat.lt_of_succ_lt_succ hk')
        rw [List.take_succ_cons, List.flatMap_cons, List.length_append]
        omega

end Framing
