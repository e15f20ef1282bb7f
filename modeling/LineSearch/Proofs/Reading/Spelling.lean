import LineSearch.Pattern.Reading

/-! # How expressions are written

A text **spells** a sequence if it consists of the spellings of its nodes, one behind
the other.  A node is spelled like its atom, with the mark of its quantifier behind
it.  Which characters spell themselves depends on the place: inside a group `|` and
`)` do not.

Nothing in a text says where a spelling ends, so one thing has to be kept apart:
behind a node without mark a literal `?` or `+` would be read as that node's mark,
and may not follow it (`Node.MayPrecede`).  Any two spellings that keep this rule
where they meet can be joined, and every spelling of a joined sequence comes about in
this way (`Sequence.spelled_append_iff`).
-/
namespace LineSearch

/-- What is written behind an atom to quantify it. -/
def Quantifier.mark : Quantifier → List Char
  | .once => []
  | .optional => ['?']
  | .repeated => ['+']

/-- Behind a node without mark no literal follows that would be read as its mark. -/
def Node.MayPrecede (node next : Node) : Prop :=
  node.quantifier = .once →
    next.atom ≠ .single (.literal '?') ∧ next.atom ≠ .single (.literal '+')

theorem Node.mayPrecede_of_not_literal {node next : Node}
    (h : ∀ c, next.atom ≠ .single (.literal c)) : node.MayPrecede next := fun _ => ⟨h '?', h '+'⟩

mutual
/-- The atom is spelled by a text, inside a group or outside of all groups. -/
inductive Atom.Spelled : (inside : Bool) → Atom → List Char → Prop
  | literal {inside c} : c ∉ ['(', '[', '\\', '.'] → (inside = true → c ∉ [')', '|']) →
      Atom.Spelled inside (.single (.literal c)) [c]
  | any {inside} : Atom.Spelled inside (.single .any) ['.']
  | digit {inside} : Atom.Spelled inside (.single .digit) ['\\', 'd']
  | word {inside} : Atom.Spelled inside (.single .word) ['\\', 'w']
  | oneOf {inside body} : ']' ∉ body → body.head? ≠ some '^' →
      Atom.Spelled inside (.single (.oneOf (.ofList body))) ('[' :: (body ++ [']']))
  | noneOf {inside body} : ']' ∉ body →
      Atom.Spelled inside (.single (.noneOf (.ofList body))) ('[' :: '^' :: (body ++ [']']))
  | group {inside alternatives text} : AlternativesSpelled alternatives text →
      Atom.Spelled inside (.group alternatives) ('(' :: (text ++ [')']))
/-- The alternatives of a group, at least one, are spelled with bars between them. -/
inductive AlternativesSpelled : List Sequence → List Char → Prop
  | last {alternative text} : Sequence.Spelled true alternative text →
      AlternativesSpelled [alternative] text
  | more {alternative text alternatives rest} : Sequence.Spelled true alternative text →
      AlternativesSpelled alternatives rest →
      AlternativesSpelled (alternative :: alternatives) (text ++ '|' :: rest)
/-- The node is spelled by a text. -/
inductive Node.Spelled : (inside : Bool) → Node → List Char → Prop
  | mk {inside atom quantifier text} : Atom.Spelled inside atom text →
      Node.Spelled inside ⟨atom, quantifier⟩ (text ++ quantifier.mark)
/-- The sequence is spelled by a text. -/
inductive Sequence.Spelled : (inside : Bool) → Sequence → List Char → Prop
  | nil {inside} : Sequence.Spelled inside [] []
  | cons {inside node tail text rest} : Node.Spelled inside node text →
      Sequence.Spelled inside tail rest → (∀ next ∈ tail.head?, node.MayPrecede next) →
      Sequence.Spelled inside (node :: tail) (text ++ rest)
end

variable {inside : Bool}

/-- A single character spells any character if it is a dot, and else itself. -/
theorem Atom.Spelled.of_char {atom : Atom} {c : Char} (h : atom.Spelled inside [c]) :
    (atom = .single .any ∧ c = '.') ∨
      (atom = .single (.literal c) ∧ c ∉ ['(', '[', '\\', '.'] ∧
        (inside = true → c ∉ [')', '|'])) := by
  generalize htext : [c] = text at h
  cases h with
  | literal hc hinside =>
    obtain rfl : c = _ := (List.cons.inj htext).1
    exact .inr ⟨rfl, hc, hinside⟩
  | any => exact .inl ⟨rfl, (List.cons.inj htext).1⟩
  | digit | word | oneOf _ _ | noneOf _ | group _ => simp at htext

theorem Sequence.spelled_nil_iff {text : List Char} :
    Sequence.Spelled inside [] text ↔ text = [] := by
  constructor
  · rintro ⟨⟩
    rfl
  · rintro rfl
    exact .nil

theorem Sequence.spelled_cons_iff {node : Node} {tail : Sequence} {text : List Char} :
    Sequence.Spelled inside (node :: tail) text ↔ ∃ u v, text = u ++ v ∧
      node.Spelled inside u ∧ Sequence.Spelled inside tail v ∧
        ∀ next ∈ tail.head?, node.MayPrecede next := by
  constructor
  · rintro (_ | ⟨hnode, htail, hsep⟩)
    exact ⟨_, _, rfl, hnode, htail, hsep⟩
  · rintro ⟨u, v, rfl, hnode, htail, hsep⟩
    exact .cons hnode htail hsep

theorem Sequence.spelled_singleton_iff {node : Node} {text : List Char} :
    Sequence.Spelled inside [node] text ↔ node.Spelled inside text := by
  rw [spelled_cons_iff]
  constructor
  · rintro ⟨u, v, rfl, hnode, htail, -⟩
    rw [spelled_nil_iff.mp htail, List.append_nil]
    exact hnode
  · intro h
    exact ⟨text, [], (List.append_nil text).symm, h, .nil, by simp⟩

/-- Two sequences may stand one behind the other. -/
def Sequence.MayPrecede (s t : Sequence) : Prop :=
  ∀ last ∈ s.getLast?, ∀ next ∈ t.head?, last.MayPrecede next

theorem Sequence.mayPrecede_cons {node next : Node} {tail t : Sequence} :
    Sequence.MayPrecede (node :: next :: tail) t ↔ Sequence.MayPrecede (next :: tail) t := by
  rw [MayPrecede, MayPrecede, List.getLast?_cons_cons]

/-- **Spellings are joined and taken apart where two nodes meet.** -/
theorem Sequence.spelled_append_iff : ∀ {s t : Sequence} {text : List Char},
    Sequence.Spelled inside (s ++ t) text ↔ ∃ u v, text = u ++ v ∧
      s.Spelled inside u ∧ t.Spelled inside v ∧ s.MayPrecede t
  | [], t, text => by
      constructor
      · intro h
        exact ⟨[], text, rfl, .nil, h, by simp [MayPrecede]⟩
      · rintro ⟨u, v, rfl, hs, ht, -⟩
        rw [spelled_nil_iff.mp hs]
        exact ht
  | [node], t, text => by
      rw [List.singleton_append, spelled_cons_iff]
      simp only [spelled_singleton_iff, MayPrecede, List.getLast?_singleton, Option.mem_some_iff,
        forall_eq']
  | node :: next :: tail, t, text => by
      rw [List.cons_append, spelled_cons_iff]
      constructor
      · rintro ⟨u, v, rfl, hnode, hrest, hsep⟩
        obtain ⟨w, x, rfl, hs, ht, hmeet⟩ := spelled_append_iff.mp hrest
        exact ⟨u ++ w, x, (List.append_assoc u w x).symm, .cons hnode hs hsep, ht,
          mayPrecede_cons.mpr hmeet⟩
      · rintro ⟨u, v, rfl, hs, ht, hmeet⟩
        obtain ⟨w, x, rfl, hnode, hrest, hsep⟩ := spelled_cons_iff.mp hs
        exact ⟨w, x ++ v, List.append_assoc w x v, hnode,
          spelled_append_iff.mpr ⟨x, v, rfl, hrest, ht, mayPrecede_cons.mp hmeet⟩, hsep⟩

end LineSearch
