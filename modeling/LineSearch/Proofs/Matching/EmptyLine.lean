import LineSearch.Proofs.Matching.Alignment

/-! # What matches the empty line

A sequence is **skippable** if it can be gone through without consuming anything: its nodes
are optional, or groups, taken once, of which some alternative is skippable.  A repeated
node never is, because a repetition that stays in place does not count.

Where no character is left, only what is skippable matches, and it ends where it begins
(`Sequence.Skippable.matchAt_of_size_le`, `Sequence.skippable_of_matchAt`).  So the empty
line tells the skippable sequences from the others.

On a text a skippable sequence may consume something after all, and the nodes behind begin
further on; a group may keep to an alternative in front of the skippable one.  But nothing
of this makes it fail, since what is left is skippable wherever it begins
(`Sequence.Skippable.exists_matchAt`).  Hence a pattern that accepts the empty line accepts
every line, unless it has to cover the line: at the beginning, and at the end, there is
always a match.
-/
namespace LineSearch

/-- The sequence can be gone through without consuming anything. -/
inductive Sequence.Skippable : Sequence → Prop
  | nil : Skippable []
  | optional {atom tail} : Skippable tail → Skippable (⟨atom, .optional⟩ :: tail)
  | group {alternatives alternative tail} : alternative ∈ alternatives → Skippable alternative →
      Skippable tail → Skippable (⟨.group alternatives, .once⟩ :: tail)

/-- A repeated node is not skippable, whatever its atom is. -/
theorem Sequence.not_skippable_repeated (atom : Atom) (tail : Sequence) :
    ¬ Sequence.Skippable (⟨atom, .repeated⟩ :: tail) := by
  rintro ⟨⟩

variable {input : Array Char}

/-! ### Nothing makes a skippable sequence fail -/

/-- A group matches where one of its alternatives does. -/
theorem Atom.exists_matchAt_group {alternatives : List Sequence} {alternative : Sequence}
    {pos stop : Nat} (hmem : alternative ∈ alternatives)
    (h : Sequence.matchAt input alternative pos = some stop) :
    ∃ first, (Atom.group alternatives).matchAt input pos = some first := by
  rw [matchAt, firstMatchAt_eq_findSome?, ← Option.isSome_iff_exists, List.findSome?_isSome_iff]
  exact ⟨alternative, hmem, Option.isSome_iff_exists.mpr ⟨stop, h⟩⟩

theorem Sequence.Skippable.exists_matchAt {s : Sequence} (hs : s.Skippable) (input : Array Char)
    (pos : Nat) : ∃ stop, Sequence.matchAt input s pos = some stop := by
  induction hs generalizing pos with
  | nil => exact ⟨pos, by rw [matchAt]⟩
  | optional _ ih =>
    -- whatever comes of taking the atom, it can still be skipped
    rw [matchAt]
    split
    · next stop _ => exact ⟨stop, rfl⟩
    · exact ih pos
  | group hmem _ _ ihalternative ihtail =>
    obtain ⟨found, hfound⟩ := ihalternative pos
    obtain ⟨next, hnext⟩ := Atom.exists_matchAt_group hmem hfound
    rw [matchAt, hnext]
    exact ihtail next

/-! ### Where no character is left -/

/-- What is aligned where no character is left is skippable. -/
theorem hereditary_skippable_of_aligns : Hereditary
    (fun atom => ∀ pos stop, input.size ≤ pos → atom.Aligns input pos stop →
      ∃ alternatives alternative, atom = .group alternatives ∧ alternative ∈ alternatives ∧
        Sequence.Skippable alternative)
    (fun s => ∀ pos stop, input.size ≤ pos → Sequence.Aligns input s pos stop →
      s.Skippable) where
  single test pos stop hpos h := by
    obtain ⟨hat, -⟩ := h
    have := (Array.getElem?_eq_some_iff.mp hat).1
    omega
  group alternatives ih pos stop hpos h := by
    obtain ⟨alternative, hmem, halign⟩ := Atom.aligns_group_iff.mp h
    exact ⟨alternatives, alternative, rfl, hmem, ih alternative hmem pos stop hpos halign⟩
  nil _ _ _ _ := .nil
  cons atom quantifier tail hatom htail pos stop hpos h := by
    obtain ⟨next, hnode, hrest⟩ := Sequence.aligns_cons_iff.mp h
    have hnext := hnode.bounds
    have hskip := htail next stop (by omega) hrest
    cases hnode with
    | once halign =>
      obtain ⟨alternatives, alternative, rfl, hmem, halternative⟩ := hatom pos next hpos halign
      exact .group hmem halternative hskip
    | taken | skipped => exact .optional hskip
    | repeated hrepeats =>
      -- it would have to advance
      have := hrepeats.lt
      omega

theorem Sequence.skippable_of_matchAt {s : Sequence} {pos stop : Nat} (hpos : input.size ≤ pos)
    (h : Sequence.matchAt input s pos = some stop) : s.Skippable :=
  hereditary_skippable_of_aligns.sequence s pos stop hpos (aligns_of_matchAt h)

theorem Sequence.Skippable.matchAt_of_size_le {s : Sequence} (hs : s.Skippable) {pos : Nat}
    (hpos : input.size ≤ pos) : Sequence.matchAt input s pos = some pos := by
  obtain ⟨stop, hstop⟩ := hs.exists_matchAt input pos
  have := (aligns_of_matchAt hstop).bounds
  obtain rfl : stop = pos := by omega
  exact hstop

theorem Sequence.matchAt_eq_none_of_size_le {s : Sequence} (hs : ¬ s.Skippable) {pos : Nat}
    (hpos : input.size ≤ pos) : Sequence.matchAt input s pos = none := by
  apply Option.eq_none_iff_forall_ne_some.mpr
  intro stop hstop
  exact hs (skippable_of_matchAt hpos hstop)

/-! ### Lines -/

section Lines
variable {s : Sequence} {anchors : Anchors}

theorem Sequence.matchesLine_nil_iff : s.matchesLine anchors [] = true ↔ s.Skippable := by
  rw [matchesLine_iff_exists_start]
  constructor
  · rintro ⟨start, -, -, stop, h, -⟩
    exact skippable_of_matchAt (Nat.zero_le start) h
  · intro hs
    exact ⟨0, Nat.le_refl 0, fun _ => rfl, 0, hs.matchAt_of_size_le (Nat.le_refl 0), fun _ => rfl⟩

theorem Sequence.Skippable.matchesLine (hs : s.Skippable)
    (hanchors : ¬ (anchors.atStart = true ∧ anchors.atEnd = true)) (line : List Char) :
    s.matchesLine anchors line = true := by
  rw [matchesLine_iff_exists_start]
  by_cases hstart : anchors.atStart = true
  · -- some match begins at the beginning, and it may end anywhere
    obtain ⟨stop, hstop⟩ := hs.exists_matchAt line.toArray 0
    refine ⟨0, Nat.zero_le _, fun _ => rfl, stop, hstop, ?_⟩
    intro hend
    exact absurd ⟨hstart, hend⟩ hanchors
  · -- the empty match at the end
    refine ⟨line.length, Nat.le_refl _, ?_, line.length, ?_, fun _ => rfl⟩
    · intro h
      exact absurd h hstart
    · exact hs.matchAt_of_size_le (Nat.le_of_eq List.size_toArray)

end Lines

/-- Behind a skippable alternative no other is tried. -/
theorem Sequence.Skippable.matchAt_group {s : Sequence} (hs : s.Skippable)
    (before behind : List Sequence) (pos : Nat) :
    (Atom.group (before ++ s :: behind)).matchAt input pos =
      (Atom.group (before ++ [s])).matchAt input pos := by
  obtain ⟨stop, hstop⟩ := hs.exists_matchAt input pos
  rw [Atom.matchAt, Atom.matchAt, firstMatchAt_eq_findSome?, firstMatchAt_eq_findSome?,
    List.findSome?_append, List.findSome?_append, List.findSome?_cons, List.findSome?_singleton,
    hstop]

/-- **What accepts the empty line accepts every line**, unless it is held at both ends.  The
sequences that match the empty line are the skippable ones, under whatever anchors; where no
character is left, these match and no others do; they match everywhere, and no alternative of a group
counts that comes behind a skippable one. -/
theorem Sequence.skippable_matches_everywhere (s : Sequence) :
    (s.Skippable → ∀ (input : Array Char) (pos : Nat),
      ∃ stop, Sequence.matchAt input s pos = some stop) ∧
    (∀ (input : Array Char) (pos : Nat), input.size ≤ pos →
      (s.Skippable → Sequence.matchAt input s pos = some pos) ∧
      (¬ s.Skippable → Sequence.matchAt input s pos = none)) ∧
    (∀ anchors : Anchors, (s.matchesLine anchors [] = true ↔ s.Skippable) ∧
      (¬ (anchors.atStart = true ∧ anchors.atEnd = true) → s.matchesLine anchors [] = true →
        ∀ line, s.matchesLine anchors line = true)) ∧
    (s.Skippable → ∀ (input : Array Char) (before behind : List Sequence) (pos : Nat),
      (Atom.group (before ++ s :: behind)).matchAt input pos =
        (Atom.group (before ++ [s])).matchAt input pos) :=
  ⟨fun hs => hs.exists_matchAt,
    fun _ _ hpos => ⟨fun hs => hs.matchAt_of_size_le hpos,
      fun hs => matchAt_eq_none_of_size_le hs hpos⟩,
    fun _ => ⟨matchesLine_nil_iff,
      fun hanchors hnil => (matchesLine_nil_iff.mp hnil).matchesLine hanchors⟩,
    fun hs _ => hs.matchAt_group⟩

/-- `(b|c?)a?` is skippable, although its group prefers `b`: it matches in `bac` and past the end of it,
and it matches every line when it is held at the end; in the group `((b|c?)a?|d)` the `d` does not count.
`(b|c?)+` is not skippable, and does not match where no character is left. -/
theorem Sequence.skippable_matches_everywhere_behind_group :
    let group : Atom := .group [[⟨.single (.literal 'b'), .once⟩],
      [⟨.single (.literal 'c'), .optional⟩]]
    let s : Sequence := [⟨group, .once⟩, ⟨.single (.literal 'a'), .optional⟩]
    let d : Sequence := [⟨.single (.literal 'd'), .once⟩]
    s.Skippable ∧ (∃ stop, Sequence.matchAt #['b', 'a', 'c'] s 0 = some stop) ∧
      Sequence.matchAt #['b', 'a', 'c'] s 7 = some 7 ∧
      (¬ Sequence.Skippable [⟨group, .repeated⟩] ∧
        Sequence.matchAt #['b', 'a', 'c'] [⟨group, .repeated⟩] 3 = none) ∧
      (s.matchesLine ⟨false, true⟩ [] = true ∧
        ∀ line, s.matchesLine ⟨false, true⟩ line = true) ∧
      (Atom.group [s, d]).matchAt #['d'] 0 = (Atom.group [s]).matchAt #['d'] 0 := by
  intro group s d
  have hs : s.Skippable := by
    refine .group (List.mem_cons_of_mem _ List.mem_cons_self) ?_ (.optional .nil)
    exact .optional .nil
  have hrepeated := not_skippable_repeated group []
  obtain ⟨hmatches, hbeyond, hlines, hgroup⟩ := skippable_matches_everywhere s
  have hempty : s.matchesLine ⟨false, true⟩ [] = true := (hlines _).1.mpr hs
  exact ⟨hs, hmatches hs _ 0, (hbeyond _ 7 (by decide)).1 hs,
    ⟨hrepeated, ((skippable_matches_everywhere _).2.1 _ 3 (by decide)).2 hrepeated⟩,
    ⟨hempty, (hlines _).2 (by decide) hempty⟩, hgroup hs _ [] [d] 0⟩

end LineSearch
