import LineSearch.Pattern

/-! # Alignments

An **alignment** of a sequence with a text, from one position to another, is a
choice of alternatives and of numbers of repetitions under which the nodes, in
order, consume exactly the text between the two positions.  A repeated node takes
its atom once or more, and every take advances; no other choice is restricted.  In
particular a group may take any of its alternatives.

`Sequence.matchAt` looks at some alignments only, and in a fixed order.  This module
proves that what it reports is an alignment (`Sequence.aligns_of_matchAt`), whatever
is tried and given up on the way: the position an optional node falls back to, the
places a repeated node reaches, and the end of a repetition that stays in place.
-/
namespace LineSearch

/-- The characters that pass a test.  Letters and digits are the ASCII ones. -/
def CharTest.Admits : CharTest → Char → Prop
  | .literal d, c => c = d
  | .any, _ => True
  | .digit, c => '0' ≤ c ∧ c ≤ '9'
  | .word, c => ('a' ≤ c ∧ c ≤ 'z') ∨ ('A' ≤ c ∧ c ≤ 'Z') ∨ ('0' ≤ c ∧ c ≤ '9') ∨ c = '_'
  | .oneOf set, c => c ∈ set
  | .noneOf set, c => c ∉ set

theorem CharTest.accepts_iff_admits (test : CharTest) (c : Char) :
    test.accepts c = true ↔ test.Admits c := by
  have hdigit : c.isDigit = true ↔ '0' ≤ c ∧ c ≤ '9' :=
    Bool.and_eq_true_iff.trans (and_congr decide_eq_true_iff decide_eq_true_iff)
  cases test with
  | literal d => exact beq_iff_eq.trans eq_comm
  | any => exact iff_of_true rfl trivial
  | digit => exact hdigit
  | word =>
    have hlower : c.isLower = true ↔ 'a' ≤ c ∧ c ≤ 'z' :=
      Bool.and_eq_true_iff.trans (and_congr decide_eq_true_iff decide_eq_true_iff)
    have hupper : c.isUpper = true ↔ 'A' ≤ c ∧ c ≤ 'Z' := decide_eq_true_iff
    show (((c.isUpper || c.isLower) || c.isDigit) || c == '_') = true ↔ _
    rw [Bool.or_eq_true, Bool.or_eq_true, Bool.or_eq_true, hupper, hlower, hdigit, beq_iff_eq,
      or_comm (a := 'A' ≤ c ∧ c ≤ 'Z'), or_assoc, or_assoc]
    rfl
  | oneOf set => exact CharSet.contains_iff
  | noneOf set =>
    rw [accepts, Bool.not_eq_true', ← Bool.not_eq_true, CharSet.contains_iff]
    rfl

/-! ### Alignments of atoms, nodes and sequences -/

mutual
/-- The atom, taken once, consumes the text from one position to another. -/
inductive Atom.Aligns (input : Array Char) : Atom → Nat → Nat → Prop
  /-- A test consumes one character that passes it. -/
  | single {test pos c} : input[pos]? = some c → test.Admits c →
      Atom.Aligns input (.single test) pos (pos + 1)
  /-- A group consumes what any of its alternatives does. -/
  | group {alternatives alternative pos stop} : alternative ∈ alternatives →
      Sequence.Aligns input alternative pos stop →
      Atom.Aligns input (.group alternatives) pos stop
/-- The atom, taken once or more, consumes the text from one position to another.  Every take
advances. -/
inductive Atom.Repeats (input : Array Char) : Atom → Nat → Nat → Prop
  | last {atom pos stop} : Atom.Aligns input atom pos stop → pos < stop →
      Atom.Repeats input atom pos stop
  | more {atom pos next stop} : Atom.Aligns input atom pos next → pos < next →
      Atom.Repeats input atom next stop → Atom.Repeats input atom pos stop
/-- The node, its atom taken as often as its quantifier allows, consumes the text from one
position to another. -/
inductive Node.Aligns (input : Array Char) : Node → Nat → Nat → Prop
  | once {atom pos stop} : Atom.Aligns input atom pos stop →
      Node.Aligns input ⟨atom, .once⟩ pos stop
  | taken {atom pos stop} : Atom.Aligns input atom pos stop →
      Node.Aligns input ⟨atom, .optional⟩ pos stop
  | skipped {atom pos} : Node.Aligns input ⟨atom, .optional⟩ pos pos
  | repeated {atom pos stop} : Atom.Repeats input atom pos stop →
      Node.Aligns input ⟨atom, .repeated⟩ pos stop
/-- The nodes of the sequence, in order, consume the text from one position to another. -/
inductive Sequence.Aligns (input : Array Char) : List Node → Nat → Nat → Prop
  | nil {pos} : Sequence.Aligns input [] pos pos
  | cons {node tail pos next stop} : Node.Aligns input node pos next →
      Sequence.Aligns input tail next stop → Sequence.Aligns input (node :: tail) pos stop
end

variable {input : Array Char}

@[simp] theorem Sequence.aligns_cons_iff {node : Node} {tail : Sequence} {pos stop : Nat} :
    Sequence.Aligns input (node :: tail) pos stop ↔
      ∃ next, node.Aligns input pos next ∧ Sequence.Aligns input tail next stop := by
  constructor
  · rintro (_ | ⟨hnode, htail⟩)
    exact ⟨_, hnode, htail⟩
  · rintro ⟨next, hnode, htail⟩
    exact .cons hnode htail

@[simp] theorem Sequence.aligns_nil_iff {pos stop : Nat} :
    Sequence.Aligns input [] pos stop ↔ stop = pos := by
  constructor
  · rintro ⟨⟩
    rfl
  · rintro rfl
    exact .nil

@[simp] theorem Node.aligns_once_iff {atom : Atom} {pos stop : Nat} :
    Node.Aligns input ⟨atom, .once⟩ pos stop ↔ atom.Aligns input pos stop := by
  constructor
  · rintro ⟨h⟩
    exact h
  · exact .once

@[simp] theorem Node.aligns_optional_iff {atom : Atom} {pos stop : Nat} :
    Node.Aligns input ⟨atom, .optional⟩ pos stop ↔ atom.Aligns input pos stop ∨ stop = pos := by
  constructor
  · rintro (_ | h | _)
    · exact .inl h
    · exact .inr rfl
  · rintro (h | rfl)
    · exact .taken h
    · exact .skipped

@[simp] theorem Atom.aligns_group_iff {alternatives : List Sequence} {pos stop : Nat} :
    Atom.Aligns input (.group alternatives) pos stop ↔
      ∃ alternative ∈ alternatives, Sequence.Aligns input alternative pos stop := by
  constructor
  · rintro (_ | ⟨hmem, h⟩)
    exact ⟨_, hmem, h⟩
  · rintro ⟨alternative, hmem, h⟩
    exact .group hmem h

/-! ### Alignments do not go back, nor beyond the text

A position past the end of the text stays where it is, which is why the bound is
not the size of the text alone.
-/

mutual
theorem Atom.Aligns.bounds : ∀ {atom : Atom} {pos stop : Nat}, atom.Aligns input pos stop →
    pos ≤ stop ∧ stop ≤ max pos input.size
  | _, _, _, .single h _ => by
      have := (Array.getElem?_eq_some_iff.mp h).1
      omega
  | _, _, _, .group _ h => h.bounds
theorem Atom.Repeats.bounds : ∀ {atom : Atom} {pos stop : Nat}, atom.Repeats input pos stop →
    pos ≤ stop ∧ stop ≤ max pos input.size
  | _, _, _, .last h _ => h.bounds
  | _, _, _, .more h _ hrest => by
      have := h.bounds
      have := hrest.bounds
      omega
theorem Node.Aligns.bounds : ∀ {node : Node} {pos stop : Nat}, node.Aligns input pos stop →
    pos ≤ stop ∧ stop ≤ max pos input.size
  | _, _, _, .once h => h.bounds
  | _, _, _, .taken h => h.bounds
  | _, _, _, .skipped => by omega
  | _, _, _, .repeated h => h.bounds
theorem Sequence.Aligns.bounds : ∀ {s : Sequence} {pos stop : Nat},
    Sequence.Aligns input s pos stop → pos ≤ stop ∧ stop ≤ max pos input.size
  | _, _, _, .nil => by omega
  | _, _, _, .cons hnode htail => by
      have := hnode.bounds
      have := htail.bounds
      omega
end

/-- A repetition advances, since its first take does. -/
theorem Atom.Repeats.lt {atom : Atom} {pos stop : Nat} (h : atom.Repeats input pos stop) :
    pos < stop := by
  cases h with
  | last _ hlt => exact hlt
  | more _ hlt hrest => exact Nat.lt_of_lt_of_le hlt hrest.bounds.1

/-! ### What is reported is an alignment -/

/-- The places that an orbit reaches are ends of repetitions, if what the atom itself reports are
alignments. -/
theorem Atom.repeats_of_mem_orbit {atom : Atom}
    (hatom : ∀ pos stop, atom.matchAt input pos = some stop → atom.Aligns input pos stop) :
    ∀ {room pos stop : Nat}, stop ∈ orbit (atom.matchAt input) room pos →
      atom.Repeats input pos stop
  | 0, _, _, h => absurd h List.not_mem_nil
  | room + 1, pos, stop, h => by
      rw [orbit_succ] at h
      split at h
      · exact absurd h List.not_mem_nil
      · next next hstep =>
        have halign := hatom pos next hstep
        split at h
        · exact absurd h List.not_mem_nil
        · next hne =>
          have hlt : pos < next := Nat.lt_of_le_of_ne halign.bounds.1 (Ne.symm hne)
          rcases List.mem_cons.mp h with rfl | h
          · exact .last halign hlt
          · exact .more halign hlt (repeats_of_mem_orbit hatom h)

/-- Matching passes alignments on from the parts to the whole. -/
theorem hereditary_aligns_of_matchAt : Hereditary
    (fun atom => ∀ pos stop, atom.matchAt input pos = some stop → atom.Aligns input pos stop)
    (fun s => ∀ pos stop, Sequence.matchAt input s pos = some stop →
      Sequence.Aligns input s pos stop) where
  single test pos stop h := by
    rw [Atom.matchAt] at h
    split at h
    · next hc =>
      obtain ⟨c, hat, haccepts⟩ := (Option.any_eq_true _ _).mp hc
      obtain rfl : pos + 1 = stop := Option.some.inj h
      exact .single hat ((test.accepts_iff_admits c).mp haccepts)
    · cases h
  group alternatives halternatives pos stop h := by
    rw [Atom.matchAt, firstMatchAt_eq_findSome?] at h
    obtain ⟨alternative, hmem, hmatch⟩ := List.exists_of_findSome?_eq_some h
    exact .group hmem (halternatives alternative hmem pos stop hmatch)
  nil pos stop h := by
    obtain rfl : pos = stop := Option.some.inj h
    exact .nil
  cons atom quantifier tail hatom htail pos stop h := by
    cases quantifier with
    | once =>
      rw [Sequence.matchAt] at h
      obtain ⟨next, hhead, hrest⟩ := Option.bind_eq_some_iff.mp h
      exact .cons (.once (hatom pos next hhead)) (htail next stop hrest)
    | optional =>
      rw [Sequence.matchAt] at h
      split at h
      · next found htaken =>
        obtain rfl : found = stop := Option.some.inj h
        obtain ⟨next, hhead, hrest⟩ := Option.bind_eq_some_iff.mp htaken
        exact .cons (.taken (hatom pos next hhead)) (htail next found hrest)
      · exact .cons .skipped (htail pos stop h)
    | repeated =>
      rw [Sequence.matchAt_repeated] at h
      obtain ⟨next, hmem, hrest⟩ := List.exists_of_findSome?_eq_some h
      exact .cons (.repeated (Atom.repeats_of_mem_orbit hatom (List.mem_reverse.mp hmem)))
        (htail next stop hrest)

theorem Atom.aligns_of_matchAt {atom : Atom} {pos stop : Nat}
    (h : atom.matchAt input pos = some stop) : atom.Aligns input pos stop :=
  hereditary_aligns_of_matchAt.atom atom pos stop h

theorem Sequence.aligns_of_matchAt {s : Sequence} {pos stop : Nat}
    (h : Sequence.matchAt input s pos = some stop) : Sequence.Aligns input s pos stop :=
  hereditary_aligns_of_matchAt.sequence s pos stop h

/-! ### Lines -/

/-- Where in a line of `length` characters the anchors let a match begin and end. -/
structure Anchors.Hold (anchors : Anchors) (length start stop : Nat) : Prop where
  start_le_stop : start ≤ stop
  stop_le_length : stop ≤ length
  /-- Anchored there, the match begins at the beginning of the line. -/
  at_start : anchors.atStart = true → start = 0
  /-- Anchored there, the match ends at the end of the line. -/
  at_end : anchors.atEnd = true → stop = length

/-- A line matches iff the first alignment from some place lies where the anchors hold it. -/
theorem Sequence.matchesLine_iff {s : Sequence} {anchors : Anchors} {line : List Char} :
    s.matchesLine anchors line = true ↔
      ∃ start stop, anchors.Hold line.length start stop ∧
        Sequence.matchAt line.toArray s start = some stop := by
  have hstart : ∀ start, start ∈ (if anchors.atStart then [0] else List.range (line.length + 1)) ↔
      start ≤ line.length ∧ (anchors.atStart = true → start = 0) := by
    intro start
    cases anchors.atStart with
    | true =>
      rw [if_pos rfl, List.mem_singleton]
      exact ⟨fun h => ⟨by omega, fun _ => h⟩, fun h => h.2 rfl⟩
    | false =>
      rw [if_neg Bool.false_ne_true, List.mem_range]
      exact ⟨fun h => ⟨by omega, fun h => absurd h Bool.false_ne_true⟩, fun h => by omega⟩
  simp only [matchesLine, List.any_eq_true, List.size_toArray, hstart]
  constructor
  · rintro ⟨start, ⟨hle, hzero⟩, hmatch⟩
    split at hmatch
    · next stop hstop =>
      have hbounds := (aligns_of_matchAt hstop).bounds
      rw [List.size_toArray] at hbounds
      refine ⟨start, stop, ⟨hbounds.1, by omega, hzero, fun hend => ?_⟩, hstop⟩
      simpa [hend] using hmatch
    · cases hmatch
  · rintro ⟨start, stop, hold, hstop⟩
    refine ⟨start, ⟨Nat.le_trans hold.start_le_stop hold.stop_le_length, hold.at_start⟩, ?_⟩
    rw [hstop]
    cases hend : anchors.atEnd with
    | true => simp [hold.at_end hend]
    | false => rfl

/-- The same without the bounds that hold of every match in a line. -/
theorem Sequence.matchesLine_iff_exists_start {s : Sequence} {anchors : Anchors}
    {line : List Char} :
    s.matchesLine anchors line = true ↔
      ∃ start ≤ line.length, (anchors.atStart = true → start = 0) ∧
        ∃ stop, Sequence.matchAt line.toArray s start = some stop ∧
          (anchors.atEnd = true → stop = line.length) := by
  rw [matchesLine_iff]
  constructor
  · rintro ⟨start, stop, hold, h⟩
    exact ⟨start, Nat.le_trans hold.start_le_stop hold.stop_le_length, hold.at_start, stop, h,
      hold.at_end⟩
  · rintro ⟨start, hle, hstart, stop, h, hend⟩
    have hbounds := (aligns_of_matchAt h).bounds
    rw [List.size_toArray] at hbounds
    exact ⟨start, stop, ⟨hbounds.1, by omega, hstart, hend⟩, h⟩

theorem Sequence.exists_aligns_of_matchesLine {s : Sequence} {anchors : Anchors}
    {line : List Char} (h : s.matchesLine anchors line = true) :
    ∃ start stop, anchors.Hold line.length start stop ∧
      Sequence.Aligns line.toArray s start stop := by
  obtain ⟨start, stop, hold, hstop⟩ := matchesLine_iff.mp h
  exact ⟨start, stop, hold, aligns_of_matchAt hstop⟩

/-- **Every match that is reported is a real match**: the place where a sequence is found to end
is the end of an alignment, and a line that is found to match has an alignment where its anchors
hold it. -/
theorem Sequence.reports_only_alignments :
    (∀ (input : Array Char) (s : Sequence) (pos stop : Nat),
      Sequence.matchAt input s pos = some stop → Sequence.Aligns input s pos stop) ∧
    ∀ (s : Sequence) (anchors : Anchors) (line : List Char), s.matchesLine anchors line = true →
      ∃ start stop, anchors.Hold line.length start stop ∧
        Sequence.Aligns line.toArray s start stop :=
  ⟨fun _ _ _ _ => aligns_of_matchAt, fun _ _ _ => exists_aligns_of_matchesLine⟩

/-- The repetition of `((a|)b?)+` in `(x|((a|)b?)+)c?` ends where it stays in place, behind `ab`
and `b`, and the optional `c` is skipped. -/
theorem Sequence.reports_only_alignments_nested :
    let inner : Sequence := [⟨.group [[⟨.single (.literal 'a'), .once⟩], []], .once⟩,
      ⟨.single (.literal 'b'), .optional⟩]
    let s : Sequence := [⟨.group [[⟨.single (.literal 'x'), .once⟩], [⟨.group [inner], .repeated⟩]],
      .once⟩, ⟨.single (.literal 'c'), .optional⟩]
    (Sequence.matchAt #['d', 'a', 'b', 'b'] s 1 = some 4 ∧
      Sequence.Aligns #['d', 'a', 'b', 'b'] s 1 4) ∧
    s.matchesLine ⟨false, true⟩ ['d', 'a', 'b', 'b'] = true ∧
      ∃ start stop, Anchors.Hold ⟨false, true⟩ 4 start stop ∧
        Sequence.Aligns #['d', 'a', 'b', 'b'] s start stop :=
  ⟨⟨by decide, reports_only_alignments.1 _ _ 1 4 (by decide)⟩, by decide,
    reports_only_alignments.2 _ ⟨false, true⟩ ['d', 'a', 'b', 'b'] (by decide)⟩

end LineSearch
