import LineSearch.Pattern.Matching

/-! # Where positions are added to

Matching computes with positions in one place only: behind a character that a test looks at
comes the next position.  Every other position is passed on as it is.  In words of a fixed
size that one addition could overflow, since a position may lie anywhere, far past the end
of the text too.

Here the addition is an effect of an arbitrary monad, which may fail, wrap round or keep a
record.  It is carried out before the test is asked, but only if there is a character to be
tested.  `Sequence.matchM_eq_pure` says that matching with such an addition is matching
without any effect, provided that the addition behaves at the positions within the text: at
no other position is it ever carried out.
-/
namespace LineSearch
variable {m : Type → Type} [Monad m]

/-! ### Matching with an addition of one's own -/

/-- As `stepsOnto`, for steps that have effects. -/
def stepsOntoM (step : Nat → m (Option Nat)) :
    (room pos : Nat) → (reached : List Nat) → m (List Nat)
  | 0, _, reached => pure reached
  | room + 1, pos, reached => do
    match ← step pos with
    | none => return reached
    | some next =>
      if next = pos then return reached else stepsOntoM step room next (next :: reached)

mutual
/-- As `Atom.matchAt`, where `behind` adds one to the position of a character. -/
def Atom.matchM (input : Array Char) (behind : Nat → m Nat) : Atom → Nat → m (Option Nat)
  | .single test, pos =>
    match input[pos]? with
    | none => pure none
    | some c => do
      let next ← behind pos
      return if test.accepts c then some next else none
  | .group alternatives, pos => firstMatchM input behind alternatives pos
/-- As `firstMatchAt`, where `behind` adds one to the position of a character. -/
def firstMatchM (input : Array Char) (behind : Nat → m Nat) :
    List (List Node) → Nat → m (Option Nat)
  | [], _ => pure none
  | alternative :: rest, pos => do
    match ← Sequence.matchM input behind alternative pos with
    | some stop => return some stop
    | none => firstMatchM input behind rest pos
/-- As `Sequence.matchAt`, where `behind` adds one to the position of a character. -/
def Sequence.matchM (input : Array Char) (behind : Nat → m Nat) :
    List Node → Nat → m (Option Nat)
  | [], pos => pure (some pos)
  | ⟨atom, .once⟩ :: tail, pos => do
    match ← atom.matchM input behind pos with
    | some next => Sequence.matchM input behind tail next
    | none => return none
  | ⟨atom, .optional⟩ :: tail, pos => do
    let taken ← match ← atom.matchM input behind pos with
      | some next => Sequence.matchM input behind tail next
      | none => pure none
    match taken with
    | some stop => return some stop
    | none => Sequence.matchM input behind tail pos
  | ⟨atom, .repeated⟩ :: tail, pos => do
    let places ← stepsOntoM (fun place => atom.matchM input behind place) (input.size - pos) pos []
    places.findSomeM? fun next => Sequence.matchM input behind tail next
end

/-! ### The effects that take place -/

variable [LawfulMonad m]

theorem stepsOntoM_eq_pure {stepM : Nat → m (Option Nat)} {step : Nat → Option Nat}
    (hstep : ∀ place, stepM place = pure (step place)) (room pos : Nat) (reached : List Nat) :
    stepsOntoM stepM room pos reached = pure (stepsOnto step room pos reached) := by
  induction room generalizing pos reached with
  | zero => rfl
  | succ room ih =>
    rw [stepsOntoM, stepsOnto, hstep, pure_bind]
    cases step pos with
    | none => rfl
    | some next =>
      by_cases hstay : next = pos
      · simp only [hstay, if_true]
      · simp only [hstay, if_false, ih]

theorem findSomeM?_eq_pure {findM : Nat → m (Option Nat)} {find : Nat → Option Nat}
    (hfind : ∀ place, findM place = pure (find place)) (places : List Nat) :
    places.findSomeM? findM = pure (places.findSome? find) := by
  induction places with
  | nil => rfl
  | cons place places ih =>
    rw [List.findSomeM?_cons, List.findSome?_cons, hfind, pure_bind]
    cases find place with
    | none => exact ih
    | some stop => rfl

variable {input : Array Char} {behind : Nat → m Nat}

/-- No effect of an addition is left if there is none within the text. -/
theorem hereditary_matchM_eq_pure (hbehind : ∀ place < input.size, behind place = pure (place + 1)) :
    Hereditary
      (fun atom => ∀ pos, atom.matchM input behind pos = pure (atom.matchAt input pos))
      (fun s => ∀ pos, Sequence.matchM input behind s pos = pure (Sequence.matchAt input s pos)) where
  single test pos := by
    rw [Atom.matchM, Atom.matchAt]
    by_cases hpos : pos < input.size
    · rw [Array.getElem?_eq_getElem hpos, hbehind pos hpos]
      simp only [pure_bind, Option.any_some]
    · rw [Array.getElem?_eq_none (Nat.le_of_not_lt hpos)]
      rfl
  group alternatives ih pos := by
    rw [Atom.matchM, Atom.matchAt]
    induction alternatives with
    | nil => rw [firstMatchM, firstMatchAt]
    | cons alternative rest ihrest =>
      obtain ⟨hfirst, hrest⟩ := List.forall_mem_cons.mp ih
      rw [firstMatchM, firstMatchAt, hfirst, pure_bind]
      cases Sequence.matchAt input alternative pos with
      | none => exact ihrest hrest
      | some stop => rfl
  nil pos := by rw [Sequence.matchM, Sequence.matchAt]
  cons atom quantifier tail hatom htail pos := by
    cases quantifier with
    | once =>
      rw [Sequence.matchM, Sequence.matchAt, hatom, pure_bind]
      cases atom.matchAt input pos with
      | none => rfl
      | some next => exact htail next
    | optional =>
      rw [Sequence.matchM, Sequence.matchAt, hatom, pure_bind]
      cases atom.matchAt input pos with
      | none =>
        simp only [pure_bind, Option.bind_none]
        exact htail pos
      | some next =>
        simp only [htail, pure_bind, Option.bind_some]
        cases Sequence.matchAt input tail next with
        | none => rfl
        | some stop => rfl
    | repeated =>
      rw [Sequence.matchM, Sequence.matchAt, stepsOntoM_eq_pure hatom, pure_bind,
        findSomeM?_eq_pure htail]

/-- Within the text alone one is added to a position. -/
theorem Sequence.matchM_eq_pure (hbehind : ∀ place < input.size, behind place = pure (place + 1))
    (s : Sequence) (pos : Nat) :
    Sequence.matchM input behind s pos = pure (Sequence.matchAt input s pos) :=
  (hereditary_matchM_eq_pure hbehind).sequence s pos

end LineSearch
