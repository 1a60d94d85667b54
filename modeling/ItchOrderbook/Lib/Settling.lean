import Mathlib.Data.List.Basic

/-!
# Machines that work on one message at a time

`Leads work busy P s`: a machine that does `work` in each cycle is busy from `s` on until it is in a
state with `P`. The rules compose such runs (`Leads.bind`), weaken them (`Leads.mono`) and carry
them from a unit to the machine that waits for it (`Leads.lift`).

A machine serves messages when it takes one only at rest and then leads to rest again, the message
applied. `Serves.settles_step`: each cycle leaves it at rest, or on its way there, with exactly the
messages applied that it has taken. `Serves.exists_run`: every list of messages can be served.
-/

section Leads

variable {S T : Type*}

/-- The machine is busy until it is in a state with `P`. -/
inductive Leads (work : S → S) (busy P : S → Prop) : S → Prop where
  | here {s : S} (h : P s) : Leads work busy P s
  | next {s : S} (hb : busy s) (h : Leads work busy P (work s)) : Leads work busy P s

namespace Leads

variable {work : S → S} {busy P Q : S → Prop} {s : S}

/-- Where one run ends another begins. Induction on the first. -/
theorem bind (h : Leads work busy P s) (hnext : ∀ s', P s' → Leads work busy Q s') :
    Leads work busy Q s := by
  induction h with
  | here h => exact hnext _ h
  | next hb _ ih => exact .next hb ih

theorem mono (h : Leads work busy P s) (hPQ : ∀ s', P s' → Q s') : Leads work busy Q s :=
  h.bind fun s' h' => .here (hPQ s' h')

/-- A machine that waits for a unit is busy as long as the unit is. -/
theorem lift {work' : T → T} {busy' P' : T → Prop} {t : T} (h : Leads work' busy' P' t)
    (g : T → S) (hwork : ∀ t, busy' t → work (g t) = g (work' t))
    (hbusy : ∀ t, busy' t → busy (g t)) :
    Leads work busy (fun s => ∃ t', s = g t' ∧ P' t') (g t) := by
  induction h with
  | here h => exact .here ⟨_, rfl, h⟩
  | @next t hb _ ih =>
    refine .next (hbusy t hb) ?_
    rw [hwork t hb]
    exact ih

end Leads

end Leads

section Serves

variable {S I M K : Type*}

/-- A machine that takes a message only at rest, and then works until it is at rest again with the
message applied. `Good` is what the messages have to meet. -/
structure Serves (step : S → I → S) (accept : S → I → Option M) (Ok : I → Prop) (work : S → S)
    (busy done : S → Prop) (Rest : S → K → Prop) (apply : K → M → K) (Good : K → M → Prop) :
    Prop where
  idle : ∀ {s k i}, Rest s k → Ok i → accept s i = none → Rest (step s i) k ∧ ¬done (step s i)
  serve : ∀ {s k i m}, Rest s k → Ok i → accept s i = some m → Good k m →
    Leads work busy (fun s' => Rest s' (apply k m) ∧ done s') (step s i)
  waits : ∀ {s i}, busy s → Ok i → accept s i = none ∧ step s i = work s ∧ ¬done s

/-- The messages taken over a run. -/
def accepted (step : S → I → S) (accept : S → I → Option M) (s : S) : List I → List M
  | [] => []
  | i :: is => (accept s i).toList ++ accepted step accept (step s i) is

/-- Each message is good for the state the ones before it lead to. -/
def GoodRun (apply : K → M → K) (Good : K → M → Prop) (k : K) : List M → Prop
  | [] => True
  | m :: ms => Good k m ∧ GoodRun apply Good (apply k m) ms

/-- Where every message is good, so is every run. -/
theorem goodRun_true (apply : K → M → K) (k : K) (ms : List M) :
    GoodRun apply (fun _ _ => True) k ms := by
  induction ms generalizing k with
  | nil => trivial
  | cons m ms ih => exact ⟨trivial, ih _⟩

variable {step : S → I → S} {accept : S → I → Option M} {Ok : I → Prop} {work : S → S}
  {busy done : S → Prop} {Rest : S → K → Prop} {apply : K → M → K} {Good : K → M → Prop}

/-- At rest in `k`, or on the way there. -/
def Settles (work : S → S) (busy done : S → Prop) (Rest : S → K → Prop) (s : S) (k : K) : Prop :=
  Rest s k ∨ Leads work busy (fun s' => Rest s' k ∧ done s') s

theorem accepted_append (s : S) (is js : List I) :
    accepted step accept s (is ++ js)
      = accepted step accept s is ++ accepted step accept (is.foldl step s) js := by
  induction is generalizing s with
  | nil => rfl
  | cons i is ih => rw [List.cons_append, accepted, accepted, ih, List.append_assoc, List.foldl_cons]

/-- One cycle: a message taken at rest is applied, anything else leaves the state to settle in. -/
theorem Serves.settles_step (h : Serves step accept Ok work busy done Rest apply Good) {s : S}
    {k : K} {i : I} (hs : Settles work busy done Rest s k) (hok : Ok i)
    (hgood : ∀ m ∈ accept s i, Good k m) :
    Settles work busy done Rest (step s i) ((accept s i).toList.foldl apply k) := by
  have hrest (hr : Rest s k) :
      Settles work busy done Rest (step s i) ((accept s i).toList.foldl apply k) := by
    cases ha : accept s i with
    | none => exact Or.inl (h.idle hr hok ha).1
    | some m => exact Or.inr (h.serve hr hok ha (hgood m ha))
  rcases hs with hr | hl
  · exact hrest hr
  · cases hl with
    | here hr => exact hrest hr.1
    | next hb hl =>
      obtain ⟨ha, hstep, -⟩ := h.waits hb hok
      rw [ha, hstep]
      exact Or.inr hl

/-- A busy machine gets where it leads whatever it is offered on the way, and takes none of it. -/
theorem Serves.run_of_leads (h : Serves step accept Ok work busy done Rest apply Good)
    {P : S → Prop} {s : S} (hl : Leads work busy P s) :
    ∃ n, ∀ is : List I, is.length = n → (∀ i ∈ is, Ok i) →
      P (is.foldl step s) ∧ accepted step accept s is = [] := by
  induction hl with
  | here hp =>
    refine ⟨0, fun is hlen _ => ?_⟩
    rw [List.length_eq_zero_iff] at hlen
    subst hlen
    exact ⟨hp, rfl⟩
  | next hb _ ih =>
    obtain ⟨n, hn⟩ := ih
    refine ⟨n + 1, fun is hlen hok => ?_⟩
    cases is with
    | nil => cases hlen
    | cons i is =>
      obtain ⟨ha, hstep, -⟩ := h.waits hb (hok i List.mem_cons_self)
      have hrest := hn is (Nat.succ.inj hlen) fun j hj => hok j (List.mem_cons_of_mem i hj)
      rw [List.foldl_cons, accepted, ha, hstep]
      exact hrest

/-- Every list of messages can be served: each is offered at rest, and the machine is then left
alone until it is at rest again. Induction on the messages. -/
theorem Serves.exists_run (h : Serves step accept Ok work busy done Rest apply Good)
    (offer : M → I) (hoffer : ∀ s k m, Rest s k → Ok (offer m) ∧ accept s (offer m) = some m)
    (i₀ : I) (hidle : Ok i₀) {s : S} {k : K} (hs : Rest s k) (ms : List M)
    (hgood : GoodRun apply Good k ms) :
    ∃ is : List I, (∀ i ∈ is, Ok i) ∧ accepted step accept s is = ms
      ∧ Rest (is.foldl step s) (ms.foldl apply k) := by
  induction ms generalizing s k with
  | nil => exact ⟨[], fun i hi => (by cases hi), rfl, hs⟩
  | cons m ms ih =>
    obtain ⟨hok, hacc⟩ := hoffer s k m hs
    obtain ⟨n, hn⟩ := h.run_of_leads (h.serve hs hok hacc hgood.1)
    have hquiet : ∀ i ∈ List.replicate n i₀, Ok i := fun i hi => by
      rw [List.eq_of_mem_replicate hi]
      exact hidle
    obtain ⟨⟨hrest, -⟩, hnone⟩ := hn _ List.length_replicate hquiet
    obtain ⟨is, his, htaken, hend⟩ := ih hrest hgood.2
    refine ⟨offer m :: (List.replicate n i₀ ++ is), ?_, ?_, ?_⟩
    · intro i hi
      rcases List.mem_cons.mp hi with rfl | hi
      · exact hok
      · rcases List.mem_append.mp hi with hi | hi
        · exact hquiet i hi
        · exact his i hi
    · rw [accepted, hacc, accepted_append, hnone, htaken]
      rfl
    · rw [List.foldl_cons, List.foldl_append]
      exact hend

/-- A machine that is not busy is at rest. -/
theorem Settles.rest {s : S} {k : K} (hs : Settles work busy done Rest s k) (hb : ¬busy s) :
    Rest s k := by
  rcases hs with hr | hl
  · exact hr
  · cases hl with
    | here hr => exact hr.1
    | next h _ => exact absurd h hb

end Serves
