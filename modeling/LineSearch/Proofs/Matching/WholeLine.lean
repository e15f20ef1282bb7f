import LineSearch.Proofs.Matching.Preference

/-! # Lines that match as a whole

Held at both ends, a line matches if the alignment that is found from its beginning ends
where the line does.  That the line has such an alignment is not enough, not even if
every group has a single alternative and that is a word: in `a?(ab)?` the letter of
`a?` is taken before `(ab)?` is looked at, so on the line `ab` what is found ends behind
`a`, and another alignment is not asked for (`Sequence.matchesLine_misses_whole_line`).

With words as groups no group leaves a choice, so what is found has the greatest numbers
(`Sequence.matchesLine_whole_iff_greediest`).  The line matches if that alignment covers
it.  Every alignment of the whole line will do if the words of two letters and more that
are optional or repeated come first (`Sequence.LongWordsLead`): only such a word can be
lost by a later start.
-/
namespace LineSearch

/-- The sequence that a word is: its letters, each taken once. -/
def Sequence.word (letters : List Char) : Sequence :=
  letters.map fun c => ⟨.single (.literal c), .once⟩

/-- Every group of the sequence has a single alternative, and that is a word. -/
def Sequence.HasWordGroups (s : Sequence) : Prop :=
  ∀ node ∈ s, ∀ alternatives, node.atom = .group alternatives →
    ∃ letters, alternatives = [Sequence.word letters]

/-- The atom is a test, or its alternatives have one node at most. -/
def Atom.IsShort : Atom → Prop
  | .single _ => True
  | .group alternatives => ∀ alternative ∈ alternatives, alternative.length ≤ 1

/-- No node that is optional or repeated takes a longer word behind another such node. -/
def Sequence.LongWordsLead (s : Sequence) : Prop :=
  s.Pairwise fun first later =>
    first.quantifier ≠ .once → later.quantifier ≠ .once → later.atom.IsShort

variable {input : Array Char}

/-! ### Words -/

theorem cons_prefix_drop_iff {c : Char} {letters text : List Char} {pos : Nat} :
    c :: letters <+: text.drop pos ↔ text[pos]? = some c ∧ letters <+: text.drop (pos + 1) := by
  by_cases hin : pos < text.length
  · rw [List.drop_eq_getElem_cons hin, List.cons_prefix_cons, List.getElem?_eq_getElem hin,
      Option.some.injEq, eq_comm]
  · rw [List.drop_eq_nil_of_le (Nat.not_lt.mp hin), List.getElem?_eq_none (Nat.not_lt.mp hin)]
    simp only [List.prefix_nil, reduceCtorEq, false_and]

/-- A word is aligned with what reads like it. -/
theorem Sequence.aligns_word_iff {letters : List Char} {pos stop : Nat} :
    Sequence.Aligns input (Sequence.word letters) pos stop ↔
      letters <+: input.toList.drop pos ∧ stop = pos + letters.length := by
  induction letters generalizing pos with
  | nil =>
    rw [word, List.map_nil, aligns_nil_iff]
    exact (and_iff_right List.nil_prefix).symm
  | cons c letters ih =>
    rw [word, List.map_cons, ← word, aligns_cons_iff, cons_prefix_drop_iff, List.length_cons]
    simp only [Node.aligns_once_iff, Atom.aligns_single_iff, CharTest.PassesAt, CharTest.Admits,
      Array.getElem?_toList, ih, exists_eq_right]
    constructor
    · rintro ⟨_, ⟨hat, rfl⟩, hrest, rfl⟩
      exact ⟨⟨hat, hrest⟩, by omega⟩
    · rintro ⟨⟨hat, hrest⟩, rfl⟩
      exact ⟨pos + 1, ⟨hat, rfl⟩, hrest, by omega⟩

/-! ### Atoms of one width -/

/-- Taken once, the atom consumes `width` characters. -/
def Atom.HasWidth (input : Array Char) (atom : Atom) (width : Nat) : Prop :=
  ∀ ⦃pos stop⦄, atom.Aligns input pos stop → stop = pos + width

section Width
variable {atom : Atom} {width : Nat} (h : atom.HasWidth input width)
include h

theorem Atom.HasWidth.endsUniquely : atom.EndsUniquely input := by
  intro pos _ e f he hf
  rw [h he, h hf]

theorem Atom.HasWidth.isNarrow (hwidth : width ≤ 1) : atom.IsNarrow input := by
  intro pos stop halign
  have := h halign
  omega

/-- Two alignments of such an atom do not pass each other. -/
theorem Atom.HasWidth.exchanges_once : Node.Exchanges input ⟨atom, .once⟩ := by
  intro p q e f hp hq hpq hfe
  have hwidth := h (Node.aligns_once_iff.mp hp)
  have hwidth' := h (Node.aligns_once_iff.mp hq)
  obtain rfl : p = q := by omega
  exact hp

end Width

theorem Atom.hasWidth_word (letters : List Char) :
    (Atom.group [Sequence.word letters]).HasWidth input letters.length := by
  intro pos stop h
  obtain ⟨alternative, hmem, halign⟩ := aligns_group_iff.mp h
  obtain rfl := List.mem_singleton.mp hmem
  exact (Sequence.aligns_word_iff.mp halign).2

section WordGroups
variable {s : Sequence} (hs : s.HasWordGroups)
include hs

theorem Sequence.HasWordGroups.exists_width {node : Node} (hmem : node ∈ s) :
    ∃ width, node.atom.HasWidth input width ∧ (node.atom.IsShort → width ≤ 1) := by
  obtain ⟨atom, quantifier⟩ := node
  cases atom with
  | single test => exact ⟨1, fun _ _ h => (Atom.aligns_single_iff.mp h).2, fun _ => Nat.le_refl 1⟩
  | group alternatives =>
    obtain ⟨letters, rfl⟩ := hs _ hmem alternatives rfl
    refine ⟨letters.length, Atom.hasWidth_word letters, ?_⟩
    intro hshort
    have hword := hshort _ (List.mem_singleton.mpr rfl)
    rwa [word, List.length_map] at hword

theorem Sequence.HasWordGroups.leavesNoChoice : s.LeavesNoChoice input := by
  intro node hmem alternatives hoccurs
  obtain ⟨atom, quantifier⟩ := node
  cases atom with
  | single test => cases Atom.occursIn_single_iff.mp hoccurs
  | group outer =>
    obtain ⟨letters, rfl⟩ := hs _ hmem outer rfl
    rcases Atom.occursIn_group_iff.mp hoccurs with hself | ⟨alternative, hin, letter, hletter, hdeep⟩
    · rw [hself]
      exact (Atom.hasWidth_word letters).endsUniquely
    · -- the nodes of a word are tests, and no group occurs in a test
      obtain rfl := List.mem_singleton.mp hin
      obtain ⟨c, -, rfl⟩ := List.mem_map.mp hletter
      cases Atom.occursIn_single_iff.mp hdeep

theorem Sequence.HasWordGroups.firstIsLongest (hlead : s.LongWordsLead) :
    s.FirstIsLongest input := by
  apply Sequence.firstIsLongest
  · intro node hmem
    exact (hs.leavesNoChoice node hmem).reports
  · refine List.Pairwise.imp_of_mem ?_ hlead
    intro first later _ hmem hshort hfirst
    obtain ⟨width, hwidth, hle⟩ := hs.exists_width hmem
    obtain ⟨atom, quantifier⟩ := later
    by_cases honce : quantifier = .once
    · subst honce
      exact hwidth.exchanges_once
    · exact (hwidth.isNarrow (hle (hshort hfirst honce))).exchanges quantifier

end WordGroups

/-! ### Held at both ends -/

/-- Held at both ends, a match covers the line. -/
theorem Anchors.exists_hold_iff {length : Nat} {P : Nat → Nat → Prop} :
    (∃ start stop, Anchors.Hold ⟨true, true⟩ length start stop ∧ P start stop) ↔ P 0 length := by
  constructor
  · rintro ⟨start, stop, hold, h⟩
    obtain rfl := hold.at_start rfl
    obtain rfl := hold.at_end rfl
    exact h
  · intro h
    exact ⟨0, length, ⟨Nat.zero_le _, Nat.le_refl _, fun _ => rfl, fun _ => rfl⟩, h⟩

/-- In `a?(ab)?` the `a` of the line `ab` is taken, and then `(ab)?` can only be skipped; the line
does not match as a whole, although `(ab)?` alone would cover it. -/
theorem Sequence.matchesLine_misses_whole_line :
    let s : Sequence := [⟨.single (.literal 'a'), .optional⟩,
      ⟨.group [Sequence.word ['a', 'b']], .optional⟩]
    s.HasWordGroups ∧ ¬ (s.matchesLine ⟨true, true⟩ ['a', 'b'] = true ↔
      Sequence.Aligns #['a', 'b'] s 0 2) := by
  intro s
  have hs : s.HasWordGroups := by
    simp only [s, HasWordGroups, List.forall_mem_cons, reduceCtorEq, Atom.group.injEq]
    exact ⟨fun _ h => h.elim, fun _ h => ⟨_, h.symm⟩, fun _ h => absurd h List.not_mem_nil⟩
  have hword : Sequence.Aligns #['a', 'b'] (Sequence.word ['a', 'b']) 0 2 :=
    .cons (.once (.single rfl rfl)) (.cons (.once (.single rfl rfl)) .nil)
  have hwhole : Sequence.Aligns #['a', 'b'] s 0 2 :=
    .cons .skipped (.cons (.taken (.group (List.mem_singleton.mpr rfl) hword)) .nil)
  exact ⟨hs, fun hiff => absurd (hiff.mpr hwhole) (by decide)⟩

/-- **With words as groups, a line matches as a whole iff the alignment with the greatest numbers
covers it.**  So does any alignment of the whole line, if longer words come first. -/
theorem Sequence.matchesLine_whole_iff_greediest (s : Sequence) (hs : s.HasWordGroups)
    (line : List Char) :
    (s.matchesLine ⟨true, true⟩ line = true ↔ ∃ counts,
      s.Takes line.toArray counts 0 line.length ∧ s.Greediest line.toArray 0 counts) ∧
    (s.LongWordsLead → (s.matchesLine ⟨true, true⟩ line = true ↔
      Sequence.Aligns line.toArray s 0 line.length)) := by
  constructor
  · rw [matchesLine_iff, Anchors.exists_hold_iff]
    exact hs.leavesNoChoice.matchAt_eq_some_iff
  · intro hlead
    rw [(hs.firstIsLongest hlead).matchesLine_iff]
    exact Anchors.exists_hold_iff

/-- In `(ab)+a?` the longer word comes first; it is taken twice in `ababa`, and then the `a`. -/
theorem Sequence.matchesLine_whole_of_leading_word :
    let s : Sequence := [⟨.group [Sequence.word ['a', 'b']], .repeated⟩,
      ⟨.single (.literal 'a'), .optional⟩]
    s.HasWordGroups ∧ s.LongWordsLead ∧
      s.matchesLine ⟨true, true⟩ ['a', 'b', 'a', 'b', 'a'] = true ∧
      (∃ counts, s.Takes #['a', 'b', 'a', 'b', 'a'] counts 0 5 ∧
        s.Greediest #['a', 'b', 'a', 'b', 'a'] 0 counts) ∧
      Sequence.Aligns #['a', 'b', 'a', 'b', 'a'] s 0 5 := by
  intro s
  have hs : s.HasWordGroups := by
    simp only [s, HasWordGroups, List.forall_mem_cons, reduceCtorEq, Atom.group.injEq]
    exact ⟨fun _ h => ⟨_, h.symm⟩, fun _ h => h.elim, fun _ h => absurd h List.not_mem_nil⟩
  have hlead : s.LongWordsLead := List.pairwise_pair.mpr fun _ _ => trivial
  have hline : s.matchesLine ⟨true, true⟩ ['a', 'b', 'a', 'b', 'a'] = true := by decide
  obtain ⟨hgreediest, hwhole⟩ := matchesLine_whole_iff_greediest s hs ['a', 'b', 'a', 'b', 'a']
  exact ⟨hs, hlead, hline, hgreediest.mp hline, (hwhole hlead).mp hline⟩

end LineSearch
