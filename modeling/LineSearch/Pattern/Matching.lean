import LineSearch.Pattern.Expression

/-! # Matching at a place of a text

`Sequence.matchAt` aligns a sequence with a text from a position on and gives the
position behind what was consumed.  Positions count characters and may lie past
the end of the text, where only what consumes nothing matches.

Of several alignments the first in this order counts: an optional node is rather
taken than skipped, and a repeated node is taken as often as possible, then once
less, and so on down to once.  Whenever the nodes behind it do not match, the next
choice is tried.  A group is different: it commits to its first alternative that
matches, and no later one is tried when the nodes behind the group fail.

A repeated atom is taken again only where it advances.  The places it reaches are
its `orbit`; each is further on than the one before and none is past the end of
the text, so the number of steps is bounded by the room that is left.
-/
namespace LineSearch

/-! ### Repeated steps -/

/-- The places reached from `pos` by at most `room` steps that each advance, the furthest first,
in front of the places in `reached`. -/
def stepsOnto (step : Nat → Option Nat) : (room pos : Nat) → (reached : List Nat) → List Nat
  | 0, _, reached => reached
  | room + 1, pos, reached =>
    match step pos with
    | none => reached
    | some next => if next = pos then reached else stepsOnto step room next (next :: reached)

/-- The places reached from `pos` by stepping on and on, the nearest first.  It ends where a step
fails or stays in place, and after `room` steps at the latest. -/
def orbit (step : Nat → Option Nat) (room pos : Nat) : List Nat :=
  (stepsOnto step room pos []).reverse

theorem stepsOnto_eq (step : Nat → Option Nat) : ∀ (room pos : Nat) (reached : List Nat),
    stepsOnto step room pos reached = stepsOnto step room pos [] ++ reached
  | 0, _, _ => rfl
  | room + 1, pos, reached => by
      unfold stepsOnto
      split
      · rfl
      · next next _ =>
        split
        · rfl
        · rw [stepsOnto_eq step room next (next :: reached),
            stepsOnto_eq step room next [next], List.append_assoc]
          rfl

@[simp] theorem orbit_zero (step : Nat → Option Nat) (pos : Nat) : orbit step 0 pos = [] := rfl

theorem orbit_succ (step : Nat → Option Nat) (room pos : Nat) :
    orbit step (room + 1) pos =
      match step pos with
      | none => []
      | some next => if next = pos then [] else next :: orbit step room next := by
  unfold orbit
  rw [stepsOnto]
  split
  · rfl
  · split
    · rfl
    · rw [stepsOnto_eq, List.reverse_append]; rfl

theorem reverse_orbit (step : Nat → Option Nat) (room pos : Nat) :
    (orbit step room pos).reverse = stepsOnto step room pos [] := List.reverse_reverse _

/-! ### Atoms, groups and sequences -/

mutual
/-- Where the text consumed by the atom from `pos` on ends.  A test needs a character. -/
def Atom.matchAt (input : Array Char) : Atom → Nat → Option Nat
  | .single test, pos => if input[pos]?.any test.accepts then some (pos + 1) else none
  | .group alternatives, pos => firstMatchAt input alternatives pos
/-- Where the first of the alternatives that matches ends. -/
def firstMatchAt (input : Array Char) : List (List Node) → Nat → Option Nat
  | [], _ => none
  | alternative :: rest, pos =>
    match Sequence.matchAt input alternative pos with
    | some stop => some stop
    | none => firstMatchAt input rest pos
/-- Where the text consumed by the sequence from `pos` on ends, in the first alignment. -/
def Sequence.matchAt (input : Array Char) : List Node → Nat → Option Nat
  | [], pos => some pos
  | ⟨atom, .once⟩ :: tail, pos =>
    (atom.matchAt input pos).bind fun next => Sequence.matchAt input tail next
  | ⟨atom, .optional⟩ :: tail, pos =>
    match (atom.matchAt input pos).bind fun next => Sequence.matchAt input tail next with
    | some stop => some stop
    | none => Sequence.matchAt input tail pos
  | ⟨atom, .repeated⟩ :: tail, pos =>
    (stepsOnto (fun place => atom.matchAt input place) (input.size - pos) pos []).findSome?
      fun next => Sequence.matchAt input tail next
end

/-- The places reached from `pos` by taking the atom again and again, the nearest first. -/
def Atom.repetitions (input : Array Char) (atom : Atom) (pos : Nat) : List Nat :=
  orbit (atom.matchAt input) (input.size - pos) pos

/-- A repeated node tries the places its atom reaches from the furthest to the nearest. -/
theorem Sequence.matchAt_repeated (input : Array Char) (atom : Atom) (tail : Sequence)
    (pos : Nat) :
    Sequence.matchAt input (⟨atom, .repeated⟩ :: tail) pos =
      (atom.repetitions input pos).reverse.findSome? (Sequence.matchAt input tail) := by
  rw [Atom.repetitions, reverse_orbit, Sequence.matchAt]

/-- A group tries its alternatives in order. -/
theorem firstMatchAt_eq_findSome? (input : Array Char) (pos : Nat) :
    ∀ alternatives : List (List Node), firstMatchAt input alternatives pos =
      alternatives.findSome? fun alternative => Sequence.matchAt input alternative pos
  | [] => rfl
  | alternative :: rest => by
      rw [firstMatchAt, List.findSome?_cons, firstMatchAt_eq_findSome? input pos rest]
      cases Sequence.matchAt input alternative pos <;> rfl

/-! ### Small matches -/

/-- A repetition that consumes nothing does not count. -/
example : Sequence.matchAt #['a'] [⟨.group [[], [⟨.single (.literal 'a'), .once⟩]], .repeated⟩] 0 =
    none := by decide

/-- A group keeps to its first alternative that matches. -/
example : Sequence.matchAt #['a', 'b']
    [⟨.group [[], [⟨.single (.literal 'a'), .once⟩]], .once⟩, ⟨.single (.literal 'b'), .once⟩] 0 =
    none := by decide

/-- Past the end of the text only what consumes nothing matches. -/
example : Sequence.matchAt #['a'] [⟨.single .any, .optional⟩] 7 = some 7 := by decide

end LineSearch
