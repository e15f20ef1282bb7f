import LineSearch.Proofs.Matching.Repetition

/-! # The order in which alignments are tried

`Sequence.matchAt` stops at the first alignment it finds.  Here all the ends it would
try are listed, the preferred one first (`Sequence.candidates`), and what is found is
the first of the list.

* A node whose atom is taken once goes on from the first candidate of the atom.
* An optional node lists first what follows when the atom is taken, then what follows
  when it is skipped.
* A repeated node that can be taken once more lists first what follows when it is, then
  what follows when it stops here.
* An atom has one candidate at most: a group keeps to the first candidate of its
  alternatives in order and forgets the others.

The list is a plain recursion (`Enumerates`); nothing is collected, turned round or cut
short in it.  Only that the recursion on a repeated node ends has to be seen: each take
advances, and not beyond the end of the text, so the room that is left bounds it.  For
the same reason the rules determine the list (`Enumerates.unique`).
-/
namespace LineSearch

/-- The ends listed by a node whose atom is taken again and again, `room` times at most: those
behind one more take in front of those that follow this one. -/
def repeatedCandidates (first : Nat → Option Nat) (behind : Nat → List Nat) :
    (room pos : Nat) → List Nat
  | 0, _ => []
  | room + 1, pos =>
    match first pos with
    | none => []
    | some next =>
      if next = pos then [] else repeatedCandidates first behind room next ++ behind next

mutual
/-- Where the atom, taken once, ends in the first place. -/
def Atom.firstCandidate (input : Array Char) : Atom → Nat → Option Nat
  | .single test, pos => if input[pos]?.any test.accepts then some (pos + 1) else none
  | .group alternatives, pos => (alternativesCandidates input alternatives pos).head?
/-- The ends of the alternatives, those of the first in front. -/
def alternativesCandidates (input : Array Char) : List (List Node) → Nat → List Nat
  | [], _ => []
  | alternative :: rest, pos =>
    Sequence.candidates input alternative pos ++ alternativesCandidates input rest pos
/-- The ends of the sequence in the order in which they are tried. -/
def Sequence.candidates (input : Array Char) : List Node → Nat → List Nat
  | [], pos => [pos]
  | ⟨atom, .once⟩ :: tail, pos =>
    (atom.firstCandidate input pos).elim [] fun next => Sequence.candidates input tail next
  | ⟨atom, .optional⟩ :: tail, pos =>
    ((atom.firstCandidate input pos).elim [] fun next => Sequence.candidates input tail next) ++
      Sequence.candidates input tail pos
  | ⟨atom, .repeated⟩ :: tail, pos =>
    repeatedCandidates (fun place => atom.firstCandidate input place)
      (fun place => Sequence.candidates input tail place) (input.size - pos) pos
end

/-- The rules by which `candidates` lists the ends of sequences, `first` being the first candidate of
an atom. -/
structure Enumerates (input : Array Char) (first : Atom → Nat → Option Nat)
    (candidates : Sequence → Nat → List Nat) : Prop where
  /-- A test ends behind a character that it accepts. -/
  single : ∀ test pos,
    first (.single test) pos = if input[pos]?.any test.accepts then some (pos + 1) else none
  /-- A group keeps to the first candidate of its alternatives in order. -/
  group : ∀ alternatives pos, first (.group alternatives) pos =
    (alternatives.flatMap fun alternative => candidates alternative pos).head?
  nil : ∀ pos, candidates [] pos = [pos]
  once : ∀ atom tail pos, candidates (⟨atom, .once⟩ :: tail) pos =
    (first atom pos).elim [] fun next => candidates tail next
  /-- Taken first, then skipped. -/
  optional : ∀ atom tail pos, candidates (⟨atom, .optional⟩ :: tail) pos =
    ((first atom pos).elim [] fun next => candidates tail next) ++ candidates tail pos
  /-- Taken once more first, then no more; a take that stays in place does not count. -/
  repeated : ∀ atom tail pos, candidates (⟨atom, .repeated⟩ :: tail) pos =
    (first atom pos).elim [] fun next =>
      if next = pos then []
      else candidates (⟨atom, .repeated⟩ :: tail) next ++ candidates tail next

/-! ### The first candidate is found -/

/-- The places of an orbit, the furthest first, each with what is listed behind it. -/
theorem repeatedCandidates_eq_flatMap (first : Nat → Option Nat) (behind : Nat → List Nat)
    (room pos : Nat) :
    repeatedCandidates first behind room pos = (orbit first room pos).reverse.flatMap behind := by
  induction room generalizing pos with
  | zero => rfl
  | succ room ih =>
    rw [repeatedCandidates, orbit_succ]
    cases first pos with
    | none => rfl
    | some next =>
      by_cases hstay : next = pos
      · simp only [hstay, if_true, List.reverse_nil, List.flatMap_nil]
      · simp only [hstay, if_false, ih, List.reverse_cons, List.flatMap_append,
          List.flatMap_singleton]

theorem alternativesCandidates_eq_flatMap (input : Array Char) (pos : Nat) :
    ∀ alternatives : List Sequence, alternativesCandidates input alternatives pos =
      alternatives.flatMap fun alternative => Sequence.candidates input alternative pos
  | [] => rfl
  | alternative :: rest => by
      rw [alternativesCandidates, List.flatMap_cons,
        alternativesCandidates_eq_flatMap input pos rest]

variable {input : Array Char}

/-- What an atom or a sequence finds is the first of its candidates. -/
theorem hereditary_matchAt_eq_first : Hereditary
    (fun atom => ∀ pos, atom.matchAt input pos = atom.firstCandidate input pos)
    (fun s => ∀ pos, Sequence.matchAt input s pos = (Sequence.candidates input s pos).head?) where
  single test pos := by
    rw [Atom.matchAt, Atom.firstCandidate]
  group alternatives ih pos := by
    rw [Atom.matchAt, Atom.firstCandidate, firstMatchAt_eq_findSome?,
      alternativesCandidates_eq_flatMap, List.head?_flatMap]
    induction alternatives with
    | nil => rfl
    | cons alternative rest ihrest =>
      obtain ⟨hfirst, hrest⟩ := List.forall_mem_cons.mp ih
      rw [List.findSome?_cons, List.findSome?_cons, hfirst, ihrest hrest]
  nil pos := by
    rw [Sequence.matchAt, Sequence.candidates, List.head?_cons]
  cons atom quantifier tail hatom htail pos := by
    have hbind : ∀ pos, ((atom.matchAt input pos).bind fun next => Sequence.matchAt input tail next) =
        ((atom.firstCandidate input pos).elim [] fun next =>
          Sequence.candidates input tail next).head? := by
      intro pos
      rw [hatom]
      cases atom.firstCandidate input pos with
      | none => rfl
      | some next => exact htail next
    cases quantifier with
    | once => rw [Sequence.matchAt, Sequence.candidates, hbind]
    | optional =>
      rw [Sequence.matchAt, Sequence.candidates, hbind, htail, List.head?_append]
      cases ((atom.firstCandidate input pos).elim [] fun next =>
          Sequence.candidates input tail next).head? with
      | none => rfl
      | some next => rfl
    | repeated =>
      rw [Sequence.matchAt_repeated, Sequence.candidates, repeatedCandidates_eq_flatMap,
        List.head?_flatMap, Atom.repetitions, ← funext hatom, ← funext htail]

theorem Atom.matchAt_eq_firstCandidate (atom : Atom) (pos : Nat) :
    atom.matchAt input pos = atom.firstCandidate input pos :=
  hereditary_matchAt_eq_first.atom atom pos

theorem Sequence.matchAt_eq_head?_candidates (s : Sequence) (pos : Nat) :
    Sequence.matchAt input s pos = (Sequence.candidates input s pos).head? :=
  hereditary_matchAt_eq_first.sequence s pos

/-! ### The rules -/

theorem Sequence.candidates_repeated (atom : Atom) (tail : Sequence) (pos : Nat) :
    Sequence.candidates input (⟨atom, .repeated⟩ :: tail) pos =
      (atom.repetitions input pos).reverse.flatMap (Sequence.candidates input tail) := by
  rw [candidates, repeatedCandidates_eq_flatMap, Atom.repetitions,
    funext (Atom.matchAt_eq_firstCandidate atom)]

/-- The room suffices, so the rules hold without it. -/
theorem enumerates_candidates :
    Enumerates input (Atom.firstCandidate input) (Sequence.candidates input) where
  single test pos := by rw [Atom.firstCandidate]
  group alternatives pos := by
    rw [Atom.firstCandidate, alternativesCandidates_eq_flatMap]
  nil pos := by rw [Sequence.candidates]
  once atom tail pos := by rw [Sequence.candidates]
  optional atom tail pos := by rw [Sequence.candidates]
  repeated atom tail pos := by
    rw [Sequence.candidates_repeated, Atom.repetitions_eq, ← Atom.matchAt_eq_firstCandidate]
    cases atom.matchAt input pos with
    | none => rfl
    | some next =>
      by_cases hstay : next = pos
      · simp only [hstay, if_true, Option.elim_some, List.reverse_nil, List.flatMap_nil]
      · simp only [hstay, if_false, Option.elim_some, List.reverse_cons, List.flatMap_append,
          List.flatMap_singleton, Sequence.candidates_repeated]

/-- The rules leave no freedom: whatever is listed by them is what `candidates` lists. -/
theorem Enumerates.unique {first : Atom → Nat → Option Nat} {candidates : Sequence → Nat → List Nat}
    (h : Enumerates input first candidates) :
    (∀ atom, first atom = atom.firstCandidate input) ∧
      ∀ s, candidates s = Sequence.candidates input s := by
  have hsame : Hereditary (fun atom => first atom = atom.firstCandidate input)
      (fun s => candidates s = Sequence.candidates input s) := by
    constructor
    case single =>
      intro test
      funext pos
      rw [h.single, enumerates_candidates.single]
    case group =>
      intro alternatives ih
      funext pos
      have hlists : (alternatives.map fun alternative => candidates alternative pos) =
          alternatives.map fun alternative => Sequence.candidates input alternative pos :=
        List.map_congr_left fun alternative hmem => congrFun (ih alternative hmem) pos
      rw [h.group, enumerates_candidates.group, List.flatMap_def, List.flatMap_def, hlists]
    case nil =>
      funext pos
      rw [h.nil, enumerates_candidates.nil]
    case cons =>
      intro atom quantifier tail hatom htail
      funext pos
      cases quantifier with
      | once => rw [h.once, enumerates_candidates.once, hatom, htail]
      | optional => rw [h.optional, enumerates_candidates.optional, hatom, htail]
      | repeated =>
        -- a take that counts leaves less room
        induction hroom : input.size - pos using Nat.strongRecOn generalizing pos with
        | ind room ih =>
          rw [h.repeated, enumerates_candidates.repeated, hatom, htail]
          cases hnext : atom.firstCandidate input pos with
          | none => rfl
          | some next =>
            by_cases hstay : next = pos
            · simp only [hstay, if_true, Option.elim_some]
            · have := Atom.matchAt_bounds ((atom.matchAt_eq_firstCandidate pos).trans hnext)
              have hrest := ih (input.size - next) (by omega) next rfl
              simp only [hstay, if_false, Option.elim_some, hrest]
  exact ⟨hsame.atom, hsame.sequence⟩

/-- **What is found is the first candidate.**  The candidates of a sequence are listed by plain
recursion, and the end that is found, from a position within the text or past its end, is the first
of them, or there is none at all; a group ends at the first candidate of its alternatives in order. -/
theorem Sequence.matchAt_is_first_candidate (input : Array Char) :
    Enumerates input (Atom.firstCandidate input) (Sequence.candidates input) ∧
      (∀ s pos, Sequence.matchAt input s pos = (Sequence.candidates input s pos).head?) ∧
        ∀ alternatives pos, (Atom.group alternatives).matchAt input pos =
          (alternatives.flatMap fun alternative =>
            Sequence.candidates input alternative pos).head? := by
  refine ⟨enumerates_candidates, matchAt_eq_head?_candidates, fun alternatives pos => ?_⟩
  rw [Atom.matchAt_eq_firstCandidate, enumerates_candidates.group]

/-- In `(a|ab)?b?` on `ab` three ends are listed.  The group keeps to `a`. -/
example : Sequence.candidates #['a', 'b']
    [⟨.group [[⟨.single (.literal 'a'), .once⟩],
      [⟨.single (.literal 'a'), .once⟩, ⟨.single (.literal 'b'), .once⟩]], .optional⟩,
      ⟨.single (.literal 'b'), .optional⟩] 0 = [2, 1, 0] := by decide

end LineSearch
