import LineSearch.Proofs.Matching.Longest

/-! # Where commitment is harmless

A group commits to its first alternative that matches.  This is the only reason why
`Sequence.matchAt` can miss an alignment: if no group that occurs in the sequence, at
whatever depth, could have ended elsewhere, then a sequence that is aligned is found to
match (`Sequence.LeavesNoChoice.finds`).

The two other choices are made again when the nodes behind fail.  An optional node is
skipped after all, and a repeated node falls back from place to place.  A repetition of
an atom that ends in one place only is a single path, and the places on it are the
orbit that `Atom.repetitions` lists; where the atom stays in place, no repetition goes
on from there either.

So an atom reports where it can end (`Atom.Reports`) as soon as it can end in one place
only and the sequences in it find a match where they have one (`Sequence.Finds`), and
the two properties are carried up the expression together.
-/
namespace LineSearch

/-- One atom occurs in another: it is that atom, or it occurs in an alternative of it. -/
inductive Atom.OccursIn (part : Atom) : Atom → Prop
  | self : OccursIn part part
  | within {alternatives alternative node} : alternative ∈ alternatives → node ∈ alternative →
      OccursIn part node.atom → OccursIn part (.group alternatives)

@[simp] theorem Atom.occursIn_single_iff {part : Atom} {test : CharTest} :
    part.OccursIn (.single test) ↔ part = .single test := by
  constructor
  · rintro ⟨⟩
    rfl
  · rintro rfl
    exact .self

@[simp] theorem Atom.occursIn_group_iff {part : Atom} {alternatives : List Sequence} :
    part.OccursIn (.group alternatives) ↔ part = .group alternatives ∨
      ∃ alternative ∈ alternatives, ∃ node ∈ alternative, part.OccursIn node.atom := by
  constructor
  · rintro (_ | ⟨halternative, hnode, h⟩)
    · exact .inl rfl
    · exact .inr ⟨_, halternative, _, hnode, h⟩
  · rintro (rfl | ⟨_, halternative, _, hnode, h⟩)
    · exact .self
    · exact .within halternative hnode h

/-! ### Groups that leave no choice -/

/-- From each position of the text the atom can end in one place at most. -/
def Atom.EndsUniquely (input : Array Char) (atom : Atom) : Prop :=
  ∀ pos ≤ input.size, ∀ e f, atom.Aligns input pos e → atom.Aligns input pos f → e = f

/-- Every group that occurs in the atom ends uniquely. -/
def Atom.LeavesNoChoice (input : Array Char) (atom : Atom) : Prop :=
  ∀ alternatives, (Atom.group alternatives).OccursIn atom →
    (Atom.group alternatives).EndsUniquely input

/-- Every group that occurs in the sequence, at whatever depth, ends uniquely. -/
def Sequence.LeavesNoChoice (input : Array Char) (s : Sequence) : Prop :=
  ∀ node ∈ s, node.atom.LeavesNoChoice input

variable {input : Array Char}

/-- Behind the end of the text nothing is consumed, so there the end is unique in any case. -/
theorem Atom.EndsUniquely.eq {atom : Atom} (h : atom.EndsUniquely input) {pos e f : Nat}
    (he : atom.Aligns input pos e) (hf : atom.Aligns input pos f) : e = f := by
  by_cases hpos : pos ≤ input.size
  · exact h pos hpos e f he hf
  · have := he.bounds
    have := hf.bounds
    omega

/-- A group that ends uniquely reports where it ends, although another of its alternatives may be
the one that is aligned. -/
theorem Atom.EndsUniquely.reports {alternatives : List Sequence}
    (h : (Atom.group alternatives).EndsUniquely input)
    (hfinds : ∀ alternative ∈ alternatives, Sequence.Finds input alternative) :
    (Atom.group alternatives).Reports input := by
  intro pos stop halign
  obtain ⟨alternative, hmem, halternative⟩ := Atom.aligns_group_iff.mp halign
  obtain ⟨found, hfound⟩ := hfinds alternative hmem halternative
  cases hfirst : (Atom.group alternatives).matchAt input pos with
  | none =>
    rw [matchAt, firstMatchAt_eq_findSome?] at hfirst
    have hnone := List.findSome?_eq_none_iff.mp hfirst alternative hmem
    rw [hfound] at hnone
    cases hnone
  | some first => rw [h.eq (aligns_of_matchAt hfirst) halign]

/-- A sequence finds a match if its first node's atom reports where it ends and the nodes behind
find one. -/
theorem Sequence.finds_cons {atom : Atom} {quantifier : Quantifier} {tail : Sequence}
    (hatom : atom.Reports input) (htail : Sequence.Finds input tail) :
    Sequence.Finds input (⟨atom, quantifier⟩ :: tail) := by
  intro pos stop h
  obtain ⟨next, hnode, hrest⟩ := aligns_cons_iff.mp h
  obtain ⟨found, hfound⟩ := htail hrest
  cases hnode with
  | once halign =>
    refine ⟨found, ?_⟩
    rw [matchAt, hatom halign]
    exact hfound
  | taken halign =>
    refine ⟨found, ?_⟩
    rw [matchAt, hatom halign, Option.bind_some, hfound]
  | skipped =>
    rw [matchAt]
    cases (atom.matchAt input pos).bind fun next => Sequence.matchAt input tail next with
    | none => exact ⟨found, hfound⟩
    | some first => exact ⟨first, rfl⟩
  | repeated hrepeats =>
    obtain ⟨_, first, _, _, hfirst⟩ :=
      matchAt_repeated_of_mem (hatom.mem_repetitions hrepeats) hfound
    exact ⟨first, hfirst⟩

theorem Sequence.finds_of_reports {s : Sequence} (hs : ∀ node ∈ s, node.atom.Reports input) :
    s.Finds input := by
  induction s with
  | nil =>
    intro pos stop h
    obtain rfl := aligns_nil_iff.mp h
    exact ⟨stop, rfl⟩
  | cons node tail ih =>
    obtain ⟨hatom, hrest⟩ := List.forall_mem_cons.mp hs
    obtain ⟨atom, quantifier⟩ := node
    exact finds_cons hatom (ih hrest)

/-- Where no choice is left, atoms report and sequences find. -/
theorem hereditary_reports_of_leavesNoChoice : Hereditary
    (fun atom => atom.LeavesNoChoice input → atom.Reports input)
    (fun s => s.LeavesNoChoice input → s.Finds input) where
  single test _ := Atom.single_reports test
  group alternatives ih h := by
    apply Atom.EndsUniquely.reports (h alternatives .self)
    intro alternative hmem
    apply ih alternative hmem
    intro node hnode inner hinner
    exact h inner (.within hmem hnode hinner)
  nil _ pos stop h := by
    obtain rfl := Sequence.aligns_nil_iff.mp h
    exact ⟨stop, rfl⟩
  cons atom quantifier tail hatom htail h := by
    obtain ⟨hhead, hrest⟩ := List.forall_mem_cons.mp h
    exact Sequence.finds_cons (hatom hhead) (htail hrest)

theorem Atom.LeavesNoChoice.reports {atom : Atom} (h : atom.LeavesNoChoice input) :
    atom.Reports input := hereditary_reports_of_leavesNoChoice.atom atom h

section LeavesNoChoice
variable {s : Sequence}

theorem Sequence.LeavesNoChoice.finds (hs : s.LeavesNoChoice input) : s.Finds input :=
  hereditary_reports_of_leavesNoChoice.sequence s hs

theorem Sequence.LeavesNoChoice.matchesLine_iff {line : List Char}
    (hs : s.LeavesNoChoice line.toArray) {atStart : Bool} :
    s.matchesLine ⟨atStart, false⟩ line = true ↔
      ∃ start ≤ line.length, (atStart = true → start = 0) ∧
        ∃ stop, Sequence.Aligns line.toArray s start stop := by
  rw [Sequence.matchesLine_iff]
  constructor
  · rintro ⟨start, stop, hold, h⟩
    exact ⟨start, Nat.le_trans hold.start_le_stop hold.stop_le_length, hold.at_start, stop,
      aligns_of_matchAt h⟩
  · rintro ⟨start, hle, hstart, stop, h⟩
    obtain ⟨found, hfound⟩ := hs.finds h
    have hbounds := (aligns_of_matchAt hfound).bounds
    rw [List.size_toArray] at hbounds
    exact ⟨start, found, ⟨hbounds.1, by omega, hstart, fun hend => by cases hend⟩, hfound⟩

end LeavesNoChoice

/-- **Commitment is the only reason to miss a match.**  If every group that occurs in a sequence
ends uniquely in the text, then the sequence matches exactly where it is aligned; and if it does so
in a line, then the line, unless it is held at the end, matches exactly if the sequence is aligned
from an admissible start. -/
theorem Sequence.matchAt_misses_only_by_commitment (s : Sequence) :
    (∀ input : Array Char, s.LeavesNoChoice input → ∀ pos,
      Sequence.matchAt input s pos = none ↔ ∀ stop, ¬ Sequence.Aligns input s pos stop) ∧
    ∀ line : List Char, s.LeavesNoChoice line.toArray → ∀ atStart,
      s.matchesLine ⟨atStart, false⟩ line = true ↔
        ∃ start ≤ line.length, (atStart = true → start = 0) ∧
          ∃ stop, Sequence.Aligns line.toArray s start stop :=
  ⟨fun _ hs _ => hs.finds.matchAt_eq_none_iff, fun _ hs _ => hs.matchesLine_iff⟩

/-- In `((a)?b|c)+d` no text leaves a group a choice: `ab`, `b` and `c` begin differently.  Nothing is
missed in `abcx`, although the repetition falls back from `abc` to `ab`. -/
theorem Sequence.matchAt_misses_only_by_commitment_nested :
    let first : Sequence := [⟨.group [[⟨.single (.literal 'a'), .once⟩]], .optional⟩,
      ⟨.single (.literal 'b'), .once⟩]
    let s : Sequence := [⟨.group [first, [⟨.single (.literal 'c'), .once⟩]], .repeated⟩,
      ⟨.single (.literal 'd'), .once⟩]
    (∀ input, s.LeavesNoChoice input) ∧
      (Sequence.matchAt #['a', 'b', 'c', 'x'] s 0 = none ∧
        ∀ stop, ¬ Sequence.Aligns #['a', 'b', 'c', 'x'] s 0 stop) ∧
      s.matchesLine ⟨false, false⟩ ['x', 'a', 'b', 'c', 'd'] = true ∧
        ∃ start ≤ 5, (false = true → start = 0) ∧
          ∃ stop, Sequence.Aligns #['x', 'a', 'b', 'c', 'd'] s start stop := by
  intro first s
  have hs : ∀ input, s.LeavesNoChoice input := by
    intro input node hnode alternatives hoccurs pos _ e f he hf
    rcases List.mem_cons.mp hnode with rfl | hnode
    · simp [first] at hoccurs
      rcases hoccurs with rfl | rfl
      · simp [CharTest.PassesAt, CharTest.Admits] at he hf
        grind
      · simp at he hf
        omega
    · rcases List.mem_singleton.mp hnode with rfl
      simp at hoccurs
  have hnone : Sequence.matchAt #['a', 'b', 'c', 'x'] s 0 = none := by decide
  have hline : s.matchesLine ⟨false, false⟩ ['x', 'a', 'b', 'c', 'd'] = true := by decide
  exact ⟨hs, ⟨hnone, ((matchAt_misses_only_by_commitment s).1 _ (hs _) 0).mp hnone⟩, hline,
    ((matchAt_misses_only_by_commitment s).2 _ (hs _) false).mp hline⟩

end LineSearch
