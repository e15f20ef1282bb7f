import LineSearch.Proofs.Matching.Additions
import LineSearch.Proofs.Matching.Repetition

/-! # Repetition to its end

The steps of a repetition are cut off by the room before the end of the text, whether it has come
to its own end or not.  Here nothing is cut off.  An atom is asked where it goes on from each
place that it has reached, until it fails or stays in place; a loop that has asked a given number
of times and is not at its end has no result (`stepWithin?`), nor has a match with such a loop in
it, at whatever depth of the expression (`Sequence.matchWithin?`).

There is a result all the same, if the atom may be asked once for each character in front and once
more.  Where a run of steps ends by itself is told by `Exhausts`: each place follows from the one
before, and from the last one no step advances.  The repetitions of an atom are a run of this kind
(`Atom.exhausts_repetitions`), a loop goes through this run and asks once more
(`Exhausts.stepWithin?_eq`), and since the places increase, there are no more of them than there
are characters in front.
-/
namespace LineSearch

/-! ### Runs of steps to their end -/

/-- No step from here advances. -/
def Halts (step : Nat → Option Nat) (pos : Nat) : Prop := step pos = none ∨ step pos = some pos

/-- Steps from a place on reach these places, one after the other, and the last one halts. -/
inductive Exhausts (step : Nat → Option Nat) : Nat → List Nat → Prop
  | halts {pos} : Halts step pos → Exhausts step pos []
  | advances {pos next places} : step pos = some next → next ≠ pos →
      Exhausts step next places → Exhausts step pos (next :: places)

/-- Where so many steps lead. -/
def stepTimes (step : Nat → Option Nat) : (times pos : Nat) → Option Nat
  | 0, pos => some pos
  | times + 1, pos => (step pos).bind fun next => stepTimes step times next

theorem stepTimes_succ_of_step {step : Nat → Option Nat} {pos next : Nat}
    (h : step pos = some next) (times : Nat) :
    stepTimes step (times + 1) pos = stepTimes step times next := by
  rw [stepTimes, h, Option.bind_some]

namespace Exhausts
variable {step : Nat → Option Nat} {pos : Nat} {places : List Nat}

/-- So many steps lead to the place that comes so late. -/
theorem stepTimes_eq (h : Exhausts step pos places) :
    ∀ {times : Nat}, times ≤ places.length → stepTimes step times pos = (pos :: places)[times]? := by
  induction h with
  | halts _ =>
    intro times htimes
    obtain rfl : times = 0 := Nat.le_zero.mp htimes
    rfl
  | @advances pos next places hstep _ _ ih =>
    intro times htimes
    cases times with
    | zero => rfl
    | succ times =>
      rw [stepTimes_succ_of_step hstep, ih (Nat.le_of_succ_le_succ htimes)]
      rfl

/-- The run halts at its last place and at none before. -/
theorem halts_iff (h : Exhausts step pos places) :
    ∀ {times : Nat}, times ≤ places.length →
      ((∃ place, stepTimes step times pos = some place ∧ Halts step place) ↔
        times = places.length) := by
  induction h with
  | @halts pos hhalts =>
    intro times htimes
    obtain rfl : times = 0 := Nat.le_zero.mp htimes
    exact iff_of_true ⟨pos, rfl, hhalts⟩ rfl
  | @advances pos next places hstep hne _ ih =>
    intro times htimes
    cases times with
    | zero =>
      -- The first step advances, so it is neither missing nor one that stays.
      refine iff_of_false ?_ (Nat.succ_ne_zero _).symm
      rintro ⟨place, hplace, hhalts⟩
      obtain rfl : pos = place := Option.some.inj hplace
      rcases hhalts with hnone | hstay
      · cases hstep.symm.trans hnone
      · exact hne (Option.some.inj (hstep.symm.trans hstay))
    | succ times =>
      rw [stepTimes_succ_of_step hstep, ih (Nat.le_of_succ_le_succ htimes), List.length_cons,
        Nat.succ_inj]

end Exhausts

/-- In increasing order there are no more places than there is room. -/
theorem length_le_of_increasing {limit : Nat} : ∀ {places : List Nat} {pos : Nat},
    (pos :: places).Pairwise (· < ·) → (∀ place ∈ places, place ≤ limit) →
      places.length ≤ limit - pos
  | [], _, _, _ => Nat.zero_le _
  | next :: places, pos, hincreasing, hlimit => by
      obtain ⟨hpos, hrest⟩ := List.pairwise_cons.mp hincreasing
      have hlt : pos < next := hpos next List.mem_cons_self
      have hle : next ≤ limit := hlimit next List.mem_cons_self
      have hlength : places.length ≤ limit - next :=
        length_le_of_increasing hrest fun place hplace => hlimit place (List.mem_cons_of_mem _ hplace)
      rw [List.length_cons]
      omega

section Repetitions
variable {input : Array Char}

/-- The repetitions of an atom go on until it fails or stays in place. -/
theorem Atom.exhausts_repetitions (atom : Atom) (pos : Nat) :
    Exhausts (atom.matchAt input) pos (atom.repetitions input pos) := by
  rw [repetitions_eq]
  cases hstep : atom.matchAt input pos with
  | none => exact .halts (.inl hstep)
  | some next =>
    by_cases hstay : next = pos
    · subst hstay
      simp only [if_true]
      exact .halts (.inr hstep)
    · have := matchAt_bounds hstep
      simp only [hstay, if_false]
      exact .advances hstep hstay (exhausts_repetitions atom next)
termination_by input.size - pos

/-- The places that an atom reaches lie in front, within the text. -/
theorem Atom.bounds_of_mem_repetitions {atom : Atom} {pos place : Nat}
    (h : place ∈ atom.repetitions input pos) : pos < place ∧ place ≤ input.size := by
  have hrepeats : atom.Repeats input pos place := repeats_of_mem_orbit (fun _ _ => aligns_of_matchAt) h
  have hlt := hrepeats.lt
  have := hrepeats.bounds
  omega

theorem Atom.length_repetitions_le (atom : Atom) (pos : Nat) :
    (atom.repetitions input pos).length ≤ input.size - pos :=
  length_le_of_increasing (atom.repetitions_increasing pos) fun _ h => (bounds_of_mem_repetitions h).2

end Repetitions

/-! ### Loops that have to end -/

/-- Step on and on, until a step fails or stays in place, and give the places reached, in order
behind those in `reached`.  There is no result if the loop is not at its end when it has asked
`calls` times for a step, or if a step has none. -/
def stepWithin? (step : Nat → Option (Option Nat)) :
    (calls pos : Nat) → (reached : List Nat) → Option (List Nat)
  | 0, _, _ => none
  | calls + 1, pos, reached => do
    match ← step pos with
    | none => return reached.reverse
    | some next =>
      if next = pos then return reached.reverse
      else stepWithin? step calls next (next :: reached)

mutual
/-- As `Atom.matchAt`, without a result if one of its loops asks more than `calls` times. -/
def Atom.matchWithin? (input : Array Char) (calls : Nat) : Atom → Nat → Option (Option Nat)
  | .single test, pos => some (if input[pos]?.any test.accepts then some (pos + 1) else none)
  | .group alternatives, pos => firstWithin? input calls alternatives pos
/-- As `firstMatchAt`, without a result if one of the loops asks more than `calls` times. -/
def firstWithin? (input : Array Char) (calls : Nat) :
    List (List Node) → Nat → Option (Option Nat)
  | [], _ => some none
  | alternative :: rest, pos => do
    match ← Sequence.matchWithin? input calls alternative pos with
    | some stop => return some stop
    | none => firstWithin? input calls rest pos
/-- As `Sequence.matchAt`, without a result if one of its loops asks more than `calls` times. -/
def Sequence.matchWithin? (input : Array Char) (calls : Nat) :
    List Node → Nat → Option (Option Nat)
  | [], pos => some (some pos)
  | ⟨atom, .once⟩ :: tail, pos => do
    match ← atom.matchWithin? input calls pos with
    | some next => Sequence.matchWithin? input calls tail next
    | none => return none
  | ⟨atom, .optional⟩ :: tail, pos => do
    let taken ← match ← atom.matchWithin? input calls pos with
      | some next => Sequence.matchWithin? input calls tail next
      | none => pure none
    match taken with
    | some stop => return some stop
    | none => Sequence.matchWithin? input calls tail pos
  | ⟨atom, .repeated⟩ :: tail, pos => do
    let places ← stepWithin? (fun place => atom.matchWithin? input calls place) calls pos []
    places.reverse.findSomeM? fun next => Sequence.matchWithin? input calls tail next
end

/-! ### They end -/

/-- A loop goes through the run of its steps and asks for one more. -/
theorem Exhausts.stepWithin?_eq {step? : Nat → Option (Option Nat)} {step : Nat → Option Nat}
    (hstep? : ∀ place, step? place = some (step place)) {pos : Nat} {places : List Nat}
    (h : Exhausts step pos places) (calls : Nat) (reached : List Nat) :
    stepWithin? step? calls pos reached =
      if places.length < calls then some (reached.reverse ++ places) else none := by
  induction h generalizing calls reached with
  | @halts pos hhalts =>
    cases calls with
    | zero => rfl
    | succ calls =>
      rw [stepWithin?, hstep?, List.append_nil, List.length_nil, if_pos (Nat.succ_pos calls)]
      rcases hhalts with hnone | hstay
      · rw [hnone]
        rfl
      · rw [hstay]
        exact if_pos rfl
  | @advances pos next places hnext hne _ ih =>
    cases calls with
    | zero => rfl
    | succ calls =>
      rw [stepWithin?, hstep?, hnext]
      refine (if_neg hne).trans ?_
      rw [ih, List.reverse_cons, List.append_assoc, List.singleton_append, List.length_cons]
      simp only [Nat.succ_lt_succ_iff]

variable {input : Array Char} {calls : Nat}

/-- A loop over an atom ends within as many calls as there are characters in front, and one. -/
theorem Atom.stepWithin?_eq {atom : Atom} {step? : Nat → Option (Option Nat)}
    (hstep? : ∀ place, step? place = some (atom.matchAt input place)) {pos : Nat}
    (hcalls : input.size - pos < calls) :
    stepWithin? step? calls pos [] = some (atom.repetitions input pos) := by
  have hlength : (atom.repetitions input pos).length ≤ input.size - pos :=
    atom.length_repetitions_le pos
  rw [(atom.exhausts_repetitions pos).stepWithin?_eq hstep?, if_pos (by omega)]
  rfl

theorem hereditary_matchWithin?_eq (hcalls : input.size < calls) : Hereditary
    (fun atom => ∀ pos, atom.matchWithin? input calls pos = some (atom.matchAt input pos))
    (fun s => ∀ pos,
      Sequence.matchWithin? input calls s pos = some (Sequence.matchAt input s pos)) where
  single test pos := by rw [Atom.matchWithin?, Atom.matchAt]
  group alternatives ih pos := by
    rw [Atom.matchWithin?, Atom.matchAt]
    induction alternatives with
    | nil => rw [firstWithin?, firstMatchAt]
    | cons alternative rest ihrest =>
      obtain ⟨hfirst, hrest⟩ := List.forall_mem_cons.mp ih
      rw [firstWithin?, firstMatchAt, hfirst]
      cases Sequence.matchAt input alternative pos with
      | none => exact ihrest hrest
      | some stop => rfl
  nil pos := by rw [Sequence.matchWithin?, Sequence.matchAt]
  cons atom quantifier tail hatom htail pos := by
    cases quantifier with
    | once =>
      rw [Sequence.matchWithin?, Sequence.matchAt, hatom]
      cases atom.matchAt input pos with
      | none => rfl
      | some next => exact htail next
    | optional =>
      rw [Sequence.matchWithin?, Sequence.matchAt, hatom]
      cases atom.matchAt input pos with
      | none => exact htail pos
      | some next =>
        simp only [htail, Option.bind_eq_bind, Option.bind_some]
        cases Sequence.matchAt input tail next with
        | none => rfl
        | some stop => rfl
    | repeated =>
      have hloop := Atom.stepWithin?_eq hatom (Nat.lt_of_le_of_lt (Nat.sub_le _ pos) hcalls)
      rw [Sequence.matchWithin?, Sequence.matchAt_repeated, hloop]
      exact findSomeM?_eq_pure htail _

/-- No loop in an atom asks more often than the text has characters, and once. -/
theorem Atom.matchWithin?_eq (hcalls : input.size < calls) (atom : Atom) (pos : Nat) :
    atom.matchWithin? input calls pos = some (atom.matchAt input pos) :=
  (hereditary_matchWithin?_eq hcalls).atom atom pos

/-- **The repetitions of an atom are the run of its advancing takes.**  They increase, in front of
their beginning and within the text; each is where as many takes lead as there are places up to
it; and the last is the first place from which the atom fails or stays in place.  A loop that goes
on until then ends, and asks for the atom once for each character in front and once more at most;
so do the loops within the atom, none of which asks more often than there are characters, and once. -/
theorem Atom.repetitions_run_to_their_end (input : Array Char) (atom : Atom) (pos : Nat) :
    (atom.repetitions input pos).Pairwise (· < ·) ∧
    (∀ place ∈ atom.repetitions input pos, pos < place ∧ place ≤ input.size) ∧
    (∀ (k : Nat) (hk : k < (atom.repetitions input pos).length),
      stepTimes (atom.matchAt input) (k + 1) pos = some (atom.repetitions input pos)[k]) ∧
    (∀ k ≤ (atom.repetitions input pos).length,
      (∃ place, stepTimes (atom.matchAt input) k pos = some place ∧
        (atom.matchAt input place = none ∨ atom.matchAt input place = some place)) ↔
      k = (atom.repetitions input pos).length) ∧
    ∀ calls > input.size,
      (∀ place, atom.matchWithin? input calls place = some (atom.matchAt input place)) ∧
      stepWithin? (atom.matchWithin? input calls) (input.size - pos + 1) pos [] =
        some (atom.repetitions input pos) := by
  have hrun : Exhausts (atom.matchAt input) pos (atom.repetitions input pos) :=
    atom.exhausts_repetitions pos
  refine ⟨?increasing, ?bounds, ?takes, ?stops, ?ends⟩
  case increasing => exact (List.pairwise_cons.mp (atom.repetitions_increasing pos)).2
  case bounds => exact fun _ => bounds_of_mem_repetitions
  case takes =>
    intro k hk
    rw [hrun.stepTimes_eq hk, List.getElem?_cons_succ, List.getElem?_eq_getElem hk]
  case stops => exact fun _ hk => hrun.halts_iff hk
  case ends =>
    intro calls hcalls
    have hatom := atom.matchWithin?_eq hcalls
    exact ⟨hatom, stepWithin?_eq hatom (Nat.lt_succ_self _)⟩

/-- The takes of `((a+b)|)` from the beginning of `aababx` lead behind `aab` and `ab`, where the atom
stays in place. -/
theorem Atom.repetitions_run_to_their_end_where_it_stays :
    let word : Sequence := [⟨.single (.literal 'a'), .repeated⟩, ⟨.single (.literal 'b'), .once⟩]
    let atom : Atom := .group [[⟨.group [word], .once⟩], []]
    let input := #['a', 'a', 'b', 'a', 'b', 'x']
    atom.repetitions input 0 = [3, 5] ∧ (5 ∈ [3, 5] ∧ 0 < 5 ∧ 5 ≤ 6) ∧
      (1 < 2 ∧ stepTimes (atom.matchAt input) 2 0 = some 5) ∧
      (2 ≤ 2 ∧ ∃ place, stepTimes (atom.matchAt input) 2 0 = some place ∧
        (atom.matchAt input place = none ∨ atom.matchAt input place = some place)) ∧
      (7 > 6 ∧ stepWithin? (atom.matchWithin? input 7) 7 0 [] = some [3, 5]) := by
  intro word atom input
  have hplaces : atom.repetitions input 0 = [3, 5] := by decide
  have hrun := repetitions_run_to_their_end input atom 0
  rw [hplaces] at hrun
  obtain ⟨-, hbounds, htakes, hstops, hends⟩ := hrun
  exact ⟨hplaces, ⟨by decide, hbounds 5 (by decide)⟩, ⟨by decide, htakes 1 (by decide)⟩,
    ⟨Nat.le_refl 2, (hstops 2 (Nat.le_refl 2)).mpr rfl⟩, by decide, (hends 7 (by decide)).2⟩

end LineSearch
