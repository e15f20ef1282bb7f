import Mathlib
import LineSearch.Proofs.Matching.Additions
import LineSearch.Proofs.Matching.Alignment

/-! # The width of what is consumed

How many characters a sequence consumes lies between two bounds that are read off the
expression alone.  The least width is a sum over the nodes, where an optional node counts
nothing, a repeated node at least one, because every take advances, and a group as much as
its narrowest alternative.  The greatest width is a sum too, in which a group counts as much
as its widest alternative, and it is infinite as soon as a node is repeated at any depth
(`Sequence.maxWidth_eq_top_iff`).  A group without alternatives does not match; its least
width is infinite.

Alignments keep within the two bounds (`Sequence.Aligns.spans`), one case for each rule.  So
does what is found, from whatever position, and beyond these bounds only the text limits
it.
-/
namespace LineSearch

/-! ### Least and greatest width -/

/-- The fewest characters that a node takes, its atom taking `width` at least. -/
def Quantifier.minWidth (width : WithTop ℕ) : Quantifier → WithTop ℕ
  | .once => width
  | .optional => 0
  | .repeated => max 1 width

/-- The most characters that a node takes, its atom taking `width` at most. -/
def Quantifier.maxWidth (width : WithTop ℕ) : Quantifier → WithTop ℕ
  | .once | .optional => width
  | .repeated => ⊤

mutual
/-- The fewest characters that the atom, taken once, consumes. -/
def Atom.minWidth : Atom → WithTop ℕ
  | .single _ => 1
  | .group alternatives => leastWidth alternatives
/-- The least width of the narrowest alternative. -/
def leastWidth : List Sequence → WithTop ℕ
  | [] => ⊤
  | alternative :: rest => min (Sequence.minWidth alternative) (leastWidth rest)
/-- The fewest characters that the sequence consumes. -/
def Sequence.minWidth : Sequence → WithTop ℕ
  | [] => 0
  | ⟨atom, quantifier⟩ :: tail => quantifier.minWidth atom.minWidth + Sequence.minWidth tail
end

mutual
/-- The most characters that the atom, taken once, consumes. -/
def Atom.maxWidth : Atom → WithTop ℕ
  | .single _ => 1
  | .group alternatives => greatestWidth alternatives
/-- The greatest width of the widest alternative. -/
def greatestWidth : List Sequence → WithTop ℕ
  | [] => 0
  | alternative :: rest => max (Sequence.maxWidth alternative) (greatestWidth rest)
/-- The most characters that the sequence consumes. -/
def Sequence.maxWidth : Sequence → WithTop ℕ
  | [] => 0
  | ⟨atom, quantifier⟩ :: tail => quantifier.maxWidth atom.maxWidth + Sequence.maxWidth tail
end

/-- The fewest characters that the node consumes. -/
def Node.minWidth (node : Node) : WithTop ℕ := node.quantifier.minWidth node.atom.minWidth

/-- The most characters that the node consumes. -/
def Node.maxWidth (node : Node) : WithTop ℕ := node.quantifier.maxWidth node.atom.maxWidth

@[simp] theorem Sequence.minWidth_nil : Sequence.minWidth [] = 0 := by rw [minWidth]

@[simp] theorem Sequence.maxWidth_nil : Sequence.maxWidth [] = 0 := by rw [maxWidth]

@[simp] theorem Sequence.minWidth_cons (node : Node) (tail : Sequence) :
    Sequence.minWidth (node :: tail) = node.minWidth + tail.minWidth := by
  obtain ⟨atom, quantifier⟩ := node
  rw [minWidth, Node.minWidth]

@[simp] theorem Sequence.maxWidth_cons (node : Node) (tail : Sequence) :
    Sequence.maxWidth (node :: tail) = node.maxWidth + tail.maxWidth := by
  obtain ⟨atom, quantifier⟩ := node
  rw [maxWidth, Node.maxWidth]

theorem leastWidth_le {alternative : Sequence} : ∀ {alternatives : List Sequence},
    alternative ∈ alternatives → leastWidth alternatives ≤ alternative.minWidth
  | first :: rest, hmem => by
      rw [leastWidth]
      rcases List.mem_cons.mp hmem with rfl | hmem
      · exact min_le_left _ _
      · exact (min_le_right _ _).trans (leastWidth_le hmem)

theorem le_greatestWidth {alternative : Sequence} : ∀ {alternatives : List Sequence},
    alternative ∈ alternatives → alternative.maxWidth ≤ greatestWidth alternatives
  | first :: rest, hmem => by
      rw [greatestWidth]
      rcases List.mem_cons.mp hmem with rfl | hmem
      · exact le_max_left _ _
      · exact (le_greatestWidth hmem).trans (le_max_right _ _)

/-! ### Alignments keep within the widths -/

/-- From `pos` to `stop` there are `least` characters at least and `most` at most. -/
structure Spans (least most : WithTop ℕ) (pos stop : Nat) : Prop where
  least_le : pos + least ≤ stop
  le_most : stop ≤ pos + most

namespace Spans
variable {least most least' most' : WithTop ℕ} {pos middle stop : Nat}

theorem refl (pos : Nat) : Spans 0 0 pos pos := by
  constructor
  · rw [add_zero]
  · rw [add_zero]

theorem mono (h : Spans least most pos stop) (hleast : least' ≤ least) (hmost : most ≤ most') :
    Spans least' most' pos stop where
  least_le := (add_le_add_right hleast _).trans h.least_le
  le_most := h.le_most.trans (add_le_add_right hmost _)

theorem trans (h : Spans least most pos middle) (h' : Spans least' most' middle stop) :
    Spans (least + least') (most + most') pos stop where
  least_le := calc
    (pos : WithTop ℕ) + (least + least') = pos + least + least' := (add_assoc _ _ _).symm
    _ ≤ middle + least' := add_le_add_left h.least_le _
    _ ≤ stop := h'.least_le
  le_most := calc
    (stop : WithTop ℕ) ≤ middle + most' := h'.le_most
    _ ≤ pos + most + most' := add_le_add_left h.le_most _
    _ = pos + (most + most') := add_assoc _ _ _

/-- What advances takes a character at least. -/
theorem advances (h : Spans least most pos middle) (hlt : pos < middle) (hle : middle ≤ stop) :
    Spans (max 1 least) ⊤ pos stop where
  least_le := by
    have hone : (pos + 1 : WithTop ℕ) ≤ stop := by exact_mod_cast Nat.lt_of_lt_of_le hlt hle
    have hleast : (pos + least : WithTop ℕ) ≤ stop := h.least_le.trans (by exact_mod_cast hle)
    rcases le_total 1 least with hmax | hmax
    · rwa [max_eq_right hmax]
    · rwa [max_eq_left hmax]
  le_most := by
    rw [add_top]
    exact le_top

end Spans

variable {input : Array Char}

mutual
theorem Atom.Aligns.spans : ∀ {atom : Atom} {pos stop : Nat}, atom.Aligns input pos stop →
    Spans atom.minWidth atom.maxWidth pos stop
  | _, pos, _, .single _ _ => by
      rw [Atom.minWidth, Atom.maxWidth]
      exact ⟨le_of_eq (Nat.cast_succ pos).symm, le_of_eq (Nat.cast_succ pos)⟩
  | _, _, _, .group hmem h => by
      rw [Atom.minWidth, Atom.maxWidth]
      exact h.spans.mono (leastWidth_le hmem) (le_greatestWidth hmem)
theorem Atom.Repeats.spans : ∀ {atom : Atom} {pos stop : Nat}, atom.Repeats input pos stop →
    Spans (max 1 atom.minWidth) ⊤ pos stop
  | _, _, _, .last h hlt => h.spans.advances hlt (Nat.le_refl _)
  | _, _, _, .more h hlt hrest => h.spans.advances hlt hrest.bounds.1
theorem Node.Aligns.spans : ∀ {node : Node} {pos stop : Nat}, node.Aligns input pos stop →
    Spans node.minWidth node.maxWidth pos stop
  | _, _, _, .once h => h.spans
  | _, _, _, .taken h => h.spans.mono zero_le (le_refl _)
  | _, pos, _, .skipped => (Spans.refl pos).mono (le_refl _) zero_le
  | _, _, _, .repeated h => h.spans
theorem Sequence.Aligns.spans : ∀ {s : Sequence} {pos stop : Nat},
    Sequence.Aligns input s pos stop → Spans s.minWidth s.maxWidth pos stop
  | _, pos, _, .nil => by
      rw [Sequence.minWidth_nil, Sequence.maxWidth_nil]
      exact .refl pos
  | _, _, _, .cons hnode htail => by
      rw [Sequence.minWidth_cons, Sequence.maxWidth_cons]
      exact hnode.spans.trans htail.spans
end

/-! ### Where the greatest width is finite -/

/-- Some node is repeated, in the sequence or, at whatever depth, in a group of it. -/
inductive Sequence.HasRepeated : Sequence → Prop
  | here {atom tail} : HasRepeated (⟨atom, .repeated⟩ :: tail)
  | inside {alternatives alternative quantifier tail} : alternative ∈ alternatives →
      HasRepeated alternative → HasRepeated (⟨.group alternatives, quantifier⟩ :: tail)
  | behind {node tail} : HasRepeated tail → HasRepeated (node :: tail)

theorem Quantifier.maxWidth_eq_top_iff {quantifier : Quantifier} {width : WithTop ℕ} :
    quantifier.maxWidth width = ⊤ ↔ quantifier = .repeated ∨ width = ⊤ := by
  cases quantifier <;> simp [maxWidth]

theorem greatestWidth_eq_top_iff {alternatives : List Sequence} :
    greatestWidth alternatives = ⊤ ↔ ∃ alternative ∈ alternatives, alternative.maxWidth = ⊤ := by
  induction alternatives with
  | nil => simp [greatestWidth]
  | cons first rest ih => simp [greatestWidth, max_eq_top, ih]

theorem hereditary_maxWidth_eq_top_iff : Hereditary
    (fun atom => atom.maxWidth = ⊤ ↔ ∃ alternatives, atom = .group alternatives ∧
      ∃ alternative ∈ alternatives, Sequence.HasRepeated alternative)
    (fun s => s.maxWidth = ⊤ ↔ s.HasRepeated) where
  single test := by simp [Atom.maxWidth]
  group alternatives ih := by
    rw [Atom.maxWidth, greatestWidth_eq_top_iff]
    constructor
    · rintro ⟨alternative, hmem, h⟩
      exact ⟨alternatives, rfl, alternative, hmem, (ih alternative hmem).mp h⟩
    · rintro ⟨_, ⟨⟩, alternative, hmem, h⟩
      exact ⟨alternative, hmem, (ih alternative hmem).mpr h⟩
  nil := by
    rw [Sequence.maxWidth_nil]
    exact iff_of_false WithTop.zero_ne_top nofun
  cons atom quantifier tail hatom htail := by
    rw [Sequence.maxWidth_cons, WithTop.add_eq_top, Node.maxWidth, Quantifier.maxWidth_eq_top_iff, hatom, htail]
    constructor
    · rintro ((rfl | ⟨alternatives, rfl, alternative, hmem, h⟩) | h)
      · exact .here
      · exact .inside hmem h
      · exact .behind h
    · rintro (_ | ⟨hmem, h⟩ | h)
      · exact .inl (.inl rfl)
      · exact .inl (.inr ⟨_, rfl, _, hmem, h⟩)
      · exact .inr h

theorem Sequence.maxWidth_eq_top_iff {s : Sequence} : s.maxWidth = ⊤ ↔ s.HasRepeated :=
  hereditary_maxWidth_eq_top_iff.sequence s

/-- **What is found keeps within the widths of the sequence and within the text**, from whatever
position.  It ends behind its beginning by the least width or more, and by the greatest width or less,
which is finite unless a node is repeated; and it does not end behind the text unless it begins there.
One is added to a position within the text only, so no sum is greater than the size of the text. -/
theorem Sequence.matchAt_within_widths (input : Array Char) (s : Sequence) :
    (∀ pos stop, Sequence.matchAt input s pos = some stop →
      (pos + s.minWidth ≤ stop ∧ stop ≤ max pos input.size) ∧ stop ≤ pos + s.maxWidth) ∧
    (s.maxWidth = ⊤ ↔ s.HasRepeated) ∧
    ∀ (m : Type → Type) [Monad m] [LawfulMonad m] (behind : Nat → m Nat),
      (∀ place < input.size, behind place = pure (place + 1)) → ∀ pos,
        Sequence.matchM input behind s pos = pure (Sequence.matchAt input s pos) := by
  refine ⟨?_, maxWidth_eq_top_iff, fun m _ _ behind hbehind => matchM_eq_pure hbehind s⟩
  intro pos stop h
  have halign := aligns_of_matchAt h
  exact ⟨⟨halign.spans.least_le, halign.bounds.2⟩, halign.spans.le_most⟩

/-- `(a|bc)d?` takes one character at least and three at most; in `xbcd`, from behind the `x`, it takes
three.  In words of 64 bits no addition overflows, not even from the greatest word as a position. -/
theorem Sequence.matchAt_within_widths_of_words :
    let input := #['x', 'b', 'c', 'd']
    let s : Sequence := [⟨.group [[⟨.single (.literal 'a'), .once⟩],
      [⟨.single (.literal 'b'), .once⟩, ⟨.single (.literal 'c'), .once⟩]], .once⟩,
      ⟨.single (.literal 'd'), .optional⟩]
    let behind : Nat → Except String Nat := fun place =>
      if place < 2 ^ 64 - 1 then .ok (place + 1) else .error "overflow"
    s.minWidth = 1 ∧ s.maxWidth = 3 ∧ Sequence.matchAt input s 1 = some 4 ∧
      (((1 : Nat) + s.minWidth ≤ (4 : Nat) ∧ 4 ≤ max 1 input.size) ∧
        ((4 : Nat) : WithTop ℕ) ≤ (1 : Nat) + s.maxWidth) ∧
      (∀ place < input.size, behind place = .ok (place + 1)) ∧
      Sequence.matchM input behind s (2 ^ 64 - 1) =
        .ok (Sequence.matchAt input s (2 ^ 64 - 1)) := by
  intro input s behind
  have hmatch : Sequence.matchAt input s 1 = some 4 := by decide
  have hbehind : ∀ place < input.size, behind place = .ok (place + 1) := by
    intro place hplace
    exact if_pos (Nat.lt_of_lt_of_le hplace (by decide))
  obtain ⟨hwidths, -, hadditions⟩ := matchAt_within_widths input s
  exact ⟨by decide, by decide, hmatch, hwidths 1 4 hmatch, hbehind,
    hadditions (Except String) behind hbehind _⟩

end LineSearch
