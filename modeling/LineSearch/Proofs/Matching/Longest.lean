import LineSearch.Proofs.Matching.Repetition

/-! # Without groups the first alignment is the longest

A group commits to an alternative, so what a sequence with groups matches may end
short of where another alignment would.  Without groups this cannot happen: the
first alignment in the order of `Sequence.matchAt` ends furthest
(`Sequence.GroupFree.matchAt_eq_some_iff`), although only an optional and a repeated
node are greedy, each by itself.  Anchored at the end, a line then matches exactly if some
stretch of it up to the end is aligned.

The reason is that a later start is no disadvantage.  Of two alignments of the same
sequence let one begin behind the other.  If it does not end behind the other, the
two pass each other at some node, and from there on the one can follow the other
(`Sequence.Aligns.exchange`): the node they meet in is either at the same place in
both, or repeats over a stretch that contains the place of the other.  So from the
place that greed leads to, every end can be reached that can be reached from the
places in front of it.

Groups as such do no harm to this.  It is enough that every atom reports where it ends,
and that a later start is no disadvantage for the nodes behind a node with a mark
(`Sequence.firstIsLongest`).
-/
namespace LineSearch

/-- No node of the sequence is a group. -/
def Sequence.GroupFree (s : Sequence) : Prop := ∀ node ∈ s, ∃ test, node.atom = .single test

variable {input : Array Char}

/-! ### Alignments of a test -/

/-- The text has at `pos` a character that passes the test. -/
def CharTest.PassesAt (input : Array Char) (test : CharTest) (pos : Nat) : Prop :=
  ∃ c, input[pos]? = some c ∧ test.Admits c

@[simp] theorem Atom.aligns_single_iff {test : CharTest} {pos stop : Nat} :
    Atom.Aligns input (.single test) pos stop ↔ test.PassesAt input pos ∧ stop = pos + 1 := by
  constructor
  · rintro (⟨hat, hadmits⟩ | _)
    exact ⟨⟨_, hat, hadmits⟩, rfl⟩
  · rintro ⟨⟨c, hat, hadmits⟩, rfl⟩
    exact .single hat hadmits

theorem Atom.single_reports (test : CharTest) : (Atom.single test).Reports input := by
  intro pos stop h
  obtain ⟨⟨c, hat, hadmits⟩, rfl⟩ := aligns_single_iff.mp h
  rw [matchAt, hat]
  exact if_pos ((test.accepts_iff_admits c).mpr hadmits)

/-! ### Atoms that take one character at a time -/

/-- Taken once, the atom consumes no more than one character. -/
def Atom.IsNarrow (input : Array Char) (atom : Atom) : Prop :=
  ∀ ⦃pos stop⦄, atom.Aligns input pos stop → stop ≤ pos + 1

theorem Atom.single_isNarrow (test : CharTest) : (Atom.single test).IsNarrow input := by
  intro pos stop h
  exact Nat.le_of_eq (aligns_single_iff.mp h).2

/-- Such an atom consumes by repetition a stretch of characters at each of which it can be taken. -/
theorem Atom.Repeats.stretch {atom : Atom} (hnarrow : atom.IsNarrow input) :
    ∀ {pos stop : Nat}, atom.Repeats input pos stop →
      pos < stop ∧ ∀ place, pos ≤ place → place < stop → atom.Aligns input place (place + 1)
  | pos, _, .last h hlt => by
      obtain rfl := Nat.le_antisymm (hnarrow h) hlt
      refine ⟨hlt, fun place hle hplace => ?_⟩
      obtain rfl : place = pos := by omega
      exact h
  | pos, _, .more h hlt hrest => by
      obtain ⟨hlt', hall⟩ := hrest.stretch hnarrow
      obtain rfl := Nat.le_antisymm (hnarrow h) hlt
      refine ⟨Nat.lt_trans hlt hlt', fun place hle hplace => ?_⟩
      rcases Nat.eq_or_lt_of_le hle with rfl | hgt
      · exact h
      · exact hall place hgt hplace

theorem Atom.repeats_of_stretch {atom : Atom} {pos : Nat} : ∀ {length : Nat},
    (∀ place, pos ≤ place → place < pos + (length + 1) → atom.Aligns input place (place + 1)) →
      atom.Repeats input pos (pos + (length + 1))
  | 0, hall => .last (hall pos (Nat.le_refl _) (by omega)) (Nat.lt_succ_self _)
  | length + 1, hall => by
      have hrest : atom.Repeats input (pos + 1) (pos + 1 + (length + 1)) :=
        repeats_of_stretch fun place hle hlt => hall place (by omega) (by omega)
      rw [show pos + 1 + (length + 1) = pos + (length + 1 + 1) by omega] at hrest
      exact .more (hall pos (Nat.le_refl _) (by omega)) (Nat.lt_succ_self _) hrest

theorem Node.aligns_repeated_iff {atom : Atom} (hnarrow : atom.IsNarrow input) {pos stop : Nat} :
    Node.Aligns input ⟨atom, .repeated⟩ pos stop ↔
      pos < stop ∧ ∀ place, pos ≤ place → place < stop → atom.Aligns input place (place + 1) := by
  constructor
  · rintro (_ | _ | _ | hrepeats)
    exact hrepeats.stretch hnarrow
  · rintro ⟨hlt, hall⟩
    obtain ⟨length, rfl⟩ := Nat.exists_eq_add_of_lt hlt
    exact .repeated (Atom.repeats_of_stretch hall)

/-! ### A later start is no disadvantage -/

/-- Of two alignments of the node let the one begin behind the other and not end behind it.  Then
from where the one begins the node can end where the other ends. -/
def Node.Exchanges (input : Array Char) (node : Node) : Prop :=
  ∀ ⦃p q e f⦄, node.Aligns input p e → node.Aligns input q f → p ≤ q → f ≤ e →
    node.Aligns input q e

/-- This holds of every node that takes one character at a time. -/
theorem Atom.IsNarrow.exchanges {atom : Atom} (hnarrow : atom.IsNarrow input)
    (quantifier : Quantifier) : Node.Exchanges input ⟨atom, quantifier⟩ := by
  intro p q e f h h' hpq hfe
  have hf := h'.bounds.1
  cases quantifier with
  | once =>
    have hp := hnarrow (Node.aligns_once_iff.mp h)
    rcases Nat.eq_or_lt_of_le hpq with rfl | hlt
    · exact h
    · obtain rfl : f = e := by omega
      exact h'
  | optional =>
    cases h with
    | skipped =>
      obtain rfl : p = q := by omega
      exact .skipped
    | taken halign =>
      have hp := hnarrow halign
      rcases Nat.eq_or_lt_of_le hpq with rfl | hlt
      · exact .taken halign
      · obtain rfl : q = e := by omega
        exact .skipped
  | repeated =>
    obtain ⟨_, hall⟩ := (Node.aligns_repeated_iff hnarrow).mp h
    obtain ⟨hlt, _⟩ := (Node.aligns_repeated_iff hnarrow).mp h'
    refine (Node.aligns_repeated_iff hnarrow).mpr ⟨by omega, fun place hle hplace => ?_⟩
    exact hall place (by omega) hplace

/-- Of two alignments of a sequence of such nodes let the one begin behind the other and not end
behind it.  Then there is one that begins with the one and ends with the other. -/
theorem Sequence.Aligns.exchange : ∀ {s : Sequence}, (∀ node ∈ s, node.Exchanges input) →
    ∀ {p q e f : Nat}, Sequence.Aligns input s p e → Sequence.Aligns input s q f → p ≤ q → f ≤ e →
      Sequence.Aligns input s q e
  | [], _, p, q, _, _, .nil, .nil, hpq, hfe => by
      obtain rfl : p = q := Nat.le_antisymm hpq hfe
      exact .nil
  | node :: tail, hs, p, q, e, f, h, h', hpq, hfe => by
      obtain ⟨hexchanges, hrest⟩ := List.forall_mem_cons.mp hs
      obtain ⟨c, hnode, htail⟩ := aligns_cons_iff.mp h
      obtain ⟨d, hnode', htail'⟩ := aligns_cons_iff.mp h'
      rcases Nat.le_total c d with hcd | hdc
      · -- still behind after the first node: the two pass each other further on
        exact .cons hnode' (Aligns.exchange hrest htail htail' hcd hfe)
      · -- they pass each other within the first node
        exact .cons (hexchanges hnode hnode' hpq hdc) htail

/-! ### The first alignment is the longest -/

/-- Wherever the sequence is aligned it is found to match, and to end no nearer than any alignment
does. -/
def Sequence.FirstIsLongest (input : Array Char) (s : Sequence) : Prop :=
  ∀ ⦃pos other⦄, Sequence.Aligns input s pos other →
    ∃ stop, Sequence.matchAt input s pos = some stop ∧ other ≤ stop

/-- Then the end that is found is behind every alignment that begins in front of it, if nothing is
lost by a later start. -/
theorem Sequence.FirstIsLongest.le_of_later_start {s : Sequence} (h : s.FirstIsLongest input)
    (hs : ∀ node ∈ s, node.Exchanges input) {p q other stop : Nat} (hpq : p ≤ q)
    (hp : Sequence.Aligns input s p other) (hq : Sequence.matchAt input s q = some stop) :
    other ≤ stop := by
  rcases Nat.le_total other stop with hle | hge
  · exact hle
  · obtain ⟨found, hfound, hle⟩ := h (hp.exchange hs (aligns_of_matchAt hq) hpq hge)
    obtain rfl : stop = found := Option.some.inj (hq.symm.trans hfound)
    exact hle

/-- It is enough that every atom reports where it can end, and that behind a node that can be taken
in several ways nothing is lost by a later start. -/
theorem Sequence.firstIsLongest : ∀ {s : Sequence}, (∀ node ∈ s, node.atom.Reports input) →
    s.Pairwise (fun first later => first.quantifier ≠ .once → later.Exchanges input) →
      s.FirstIsLongest input
  | [], _, _, pos, _, .nil => ⟨pos, by rw [matchAt], Nat.le_refl _⟩
  | ⟨atom, quantifier⟩ :: tail, hreports, hlater, pos, other, h => by
      obtain ⟨hatom, hrest⟩ := List.forall_mem_cons.mp hreports
      obtain ⟨hbehind, hlater⟩ := List.pairwise_cons.mp hlater
      obtain ⟨next, hnode, htail⟩ := aligns_cons_iff.mp h
      have hlongest : FirstIsLongest input tail := firstIsLongest hrest hlater
      obtain ⟨stop, hstop, hle⟩ := hlongest htail
      cases hnode with
      | once halign =>
        refine ⟨stop, ?_, hle⟩
        rw [matchAt, hatom halign]
        exact hstop
      | taken halign =>
        refine ⟨stop, ?_, hle⟩
        rw [matchAt, hatom halign, Option.bind_some, hstop]
      | skipped =>
        -- the atom may be taken all the same; then the nodes behind it begin later
        rw [matchAt]
        cases htaken : (atom.matchAt input pos).bind fun next =>
            Sequence.matchAt input tail next with
        | none => exact ⟨stop, hstop, hle⟩
        | some found =>
          obtain ⟨further, hfurther, hfound⟩ := Option.bind_eq_some_iff.mp htaken
          have hexchanges := fun node hmem => hbehind node hmem Quantifier.noConfusion
          exact ⟨found, rfl, hlongest.le_of_later_start hexchanges (Atom.matchAt_bounds hfurther).1
            htail hfound⟩
      | repeated hrepeats =>
        -- the repetition goes on at least as far, and the nodes behind it begin there
        have hmem := hatom.mem_repetitions hrepeats
        obtain ⟨further, found, hfurther, hfound, hmatch⟩ := matchAt_repeated_of_mem hmem hstop
        have hexchanges := fun node hmem => hbehind node hmem Quantifier.noConfusion
        exact ⟨found, hmatch, hlongest.le_of_later_start hexchanges hfurther htail hfound⟩

theorem Sequence.FirstIsLongest.matchesLine_iff {s : Sequence} {anchors : Anchors}
    {line : List Char} (hs : s.FirstIsLongest line.toArray) :
    s.matchesLine anchors line = true ↔ ∃ start stop, anchors.Hold line.length start stop ∧
      Sequence.Aligns line.toArray s start stop := by
  refine ⟨exists_aligns_of_matchesLine, ?_⟩
  rintro ⟨start, stop, hold, h⟩
  -- the end that is found is no nearer, and so the end of the line if the match has to end there
  obtain ⟨found, hfound, hle⟩ := hs h
  have hbounds := (aligns_of_matchAt hfound).bounds
  have hstop := hold.stop_le_length
  have hstart := hold.start_le_stop
  rw [List.size_toArray] at hbounds
  refine Sequence.matchesLine_iff.mpr
    ⟨start, found, ⟨hbounds.1, by omega, hold.at_start, ?_⟩, hfound⟩
  intro hend
  have := hold.at_end hend
  omega

section GroupFree
variable {s : Sequence} (hs : s.GroupFree)
include hs

theorem Sequence.GroupFree.firstIsLongest : s.FirstIsLongest input := by
  apply Sequence.firstIsLongest
  · intro node hmem
    obtain ⟨test, hatom⟩ := hs node hmem
    exact hatom ▸ Atom.single_reports test
  · apply List.pairwise_of_forall_mem_list
    intro _ _ later hmem _
    obtain ⟨test, hatom⟩ := hs later hmem
    obtain ⟨atom, quantifier⟩ := later
    subst hatom
    exact (Atom.single_isNarrow test).exchanges quantifier

theorem Sequence.GroupFree.matchAt_eq_none_iff {pos : Nat} :
    Sequence.matchAt input s pos = none ↔ ∀ stop, ¬ Sequence.Aligns input s pos stop := by
  apply Finds.matchAt_eq_none_iff
  intro pos stop h
  obtain ⟨found, hfound, _⟩ := hs.firstIsLongest h
  exact ⟨found, hfound⟩

theorem Sequence.GroupFree.matchAt_eq_some_iff {pos stop : Nat} :
    Sequence.matchAt input s pos = some stop ↔ Sequence.Aligns input s pos stop ∧
      ∀ other, Sequence.Aligns input s pos other → other ≤ stop := by
  constructor
  · intro h
    refine ⟨aligns_of_matchAt h, ?_⟩
    intro other hother
    obtain ⟨found, hfound, hle⟩ := hs.firstIsLongest hother
    obtain rfl : stop = found := Option.some.inj (h.symm.trans hfound)
    exact hle
  · rintro ⟨h, hmax⟩
    obtain ⟨found, hfound, hle⟩ := hs.firstIsLongest h
    obtain rfl : found = stop := Nat.le_antisymm (hmax found (aligns_of_matchAt hfound)) hle
    exact hfound

theorem Sequence.GroupFree.matchesLine_iff_aligns {anchors : Anchors} {line : List Char} :
    s.matchesLine anchors line = true ↔ ∃ start stop, anchors.Hold line.length start stop ∧
      Sequence.Aligns line.toArray s start stop := hs.firstIsLongest.matchesLine_iff

end GroupFree

/-- **Without groups the first alignment is the longest.**  A sequence matches exactly where it is
aligned, and the end that is found is the furthest that any alignment has.  So a line matches
exactly if some stretch of it that the anchors allow is aligned. -/
theorem Sequence.matchAt_longest (s : Sequence) (hs : s.GroupFree) :
    (∀ (input : Array Char) (pos : Nat),
      (Sequence.matchAt input s pos = none ↔ ∀ stop, ¬ Sequence.Aligns input s pos stop) ∧
      ∀ stop, Sequence.matchAt input s pos = some stop ↔
        Sequence.Aligns input s pos stop ∧
          ∀ other, Sequence.Aligns input s pos other → other ≤ stop) ∧
    ∀ (anchors : Anchors) (line : List Char), s.matchesLine anchors line = true ↔
      ∃ start stop, anchors.Hold line.length start stop ∧
        Sequence.Aligns line.toArray s start stop :=
  ⟨fun _ _ => ⟨hs.matchAt_eq_none_iff, fun _ => hs.matchAt_eq_some_iff⟩,
    fun _ _ => hs.matchesLine_iff_aligns⟩

/-- In `a+b?a`, at the beginning of `aab`, the repetition gives one `a` back and the optional `b` is
skipped; nothing ends behind it. -/
theorem Sequence.matchAt_longest_giving_back :
    let s : Sequence := [⟨.single (.literal 'a'), .repeated⟩, ⟨.single (.literal 'b'), .optional⟩,
      ⟨.single (.literal 'a'), .once⟩]
    s.GroupFree ∧ Sequence.matchAt #['a', 'a', 'b'] s 0 = some 2 ∧
      (Sequence.Aligns #['a', 'a', 'b'] s 0 2 ∧
        ∀ other, Sequence.Aligns #['a', 'a', 'b'] s 0 other → other ≤ 2) ∧
      ¬ ∃ start stop, Anchors.Hold ⟨false, true⟩ 3 start stop ∧
        Sequence.Aligns #['a', 'a', 'b'] s start stop := by
  intro s
  have hs : s.GroupFree := by
    simp only [s, GroupFree, List.forall_mem_cons]
    exact ⟨⟨_, rfl⟩, ⟨_, rfl⟩, ⟨_, rfl⟩, fun _ h => absurd h List.not_mem_nil⟩
  have hmatch : Sequence.matchAt #['a', 'a', 'b'] s 0 = some 2 := by decide
  have hline : ¬ s.matchesLine ⟨false, true⟩ ['a', 'a', 'b'] = true := by decide
  exact ⟨hs, hmatch, (((matchAt_longest s hs).1 _ 0).2 2).mp hmatch,
    fun h => hline (((matchAt_longest s hs).2 ⟨false, true⟩ ['a', 'a', 'b']).mpr h)⟩

end LineSearch
