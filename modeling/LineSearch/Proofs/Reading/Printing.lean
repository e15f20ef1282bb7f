import LineSearch.Proofs.Reading.Spelling

/-! # Expressions that can be written

Every text spells one sequence at most, but not every sequence is spelled by a text.  A
group without alternatives has no spelling, nor has a literal that means something else
where it stands, nor a set that `]` belongs to; and a `^` that is the only member of a
set would negate it.

What remains (`Sequence.Printable`) can be printed, each node by one of its spellings
(`Sequence.Printable.spelled_print`).  So the sequences that have a spelling are just
the printable ones (`Sequence.printable_iff_exists_spelled`).
-/
namespace LineSearch

/-! ### Printable expressions -/

/-- The test has a spelling, inside a group or outside of all groups. -/
def CharTest.Printable (inside : Bool) : CharTest → Prop
  | .literal c => c ∉ ['(', '[', '\\', '.'] ∧ (inside = true → c ∉ [')', '|'])
  | .any => True
  | .digit => True
  | .word => True
  | .oneOf set => ']' ∉ set ∧ set.members ≠ ['^']
  | .noneOf set => ']' ∉ set

mutual
/-- The atom has a spelling. -/
def Atom.Printable (inside : Bool) : Atom → Prop
  | .single test => test.Printable inside
  | .group alternatives => alternatives ≠ [] ∧ AlternativesPrintable alternatives
/-- Each of the alternatives has a spelling. -/
def AlternativesPrintable : List Sequence → Prop
  | [] => True
  | alternative :: rest => Sequence.Printable true alternative ∧ AlternativesPrintable rest
/-- The sequence has a spelling: its atoms have, and no literal would be read as the mark of the
node before it. -/
def Sequence.Printable (inside : Bool) : Sequence → Prop
  | [] => True
  | ⟨atom, quantifier⟩ :: tail => atom.Printable inside ∧
      (∀ next ∈ tail.head?, Node.MayPrecede ⟨atom, quantifier⟩ next) ∧
      Sequence.Printable inside tail
end

instance (set : CharSet) (c : Char) : Decidable (c ∈ set) :=
  decidable_of_iff (set.contains c = true) CharSet.contains_iff

instance (inside : Bool) : (test : CharTest) → Decidable (test.Printable inside)
  | .literal c =>
    inferInstanceAs (Decidable (c ∉ ['(', '[', '\\', '.'] ∧ (inside = true → c ∉ [')', '|'])))
  | .any => .isTrue trivial
  | .digit => .isTrue trivial
  | .word => .isTrue trivial
  | .oneOf set => inferInstanceAs (Decidable (']' ∉ set ∧ set.members ≠ ['^']))
  | .noneOf set => inferInstanceAs (Decidable (']' ∉ set))

instance (node next : Node) : Decidable (node.MayPrecede next) :=
  inferInstanceAs (Decidable (_ → _))

mutual
/-- Whether an atom has a spelling is decidable. -/
def Atom.decPrintable (inside : Bool) : (atom : Atom) → Decidable (atom.Printable inside)
  | .single test => inferInstanceAs (Decidable (test.Printable inside))
  | .group alternatives =>
    letI := decAlternativesPrintable alternatives
    inferInstanceAs (Decidable (alternatives ≠ [] ∧ AlternativesPrintable alternatives))
/-- Whether all of the alternatives have a spelling is decidable. -/
def decAlternativesPrintable : (alternatives : List Sequence) →
    Decidable (AlternativesPrintable alternatives)
  | [] => .isTrue trivial
  | alternative :: rest =>
    letI := Sequence.decPrintable true alternative
    letI := decAlternativesPrintable rest
    inferInstanceAs (Decidable (Sequence.Printable true alternative ∧ AlternativesPrintable rest))
/-- Whether a sequence has a spelling is decidable. -/
def Sequence.decPrintable (inside : Bool) : (s : Sequence) → Decidable (s.Printable inside)
  | [] => .isTrue trivial
  | ⟨atom, quantifier⟩ :: tail =>
    letI := atom.decPrintable inside
    letI := Sequence.decPrintable inside tail
    inferInstanceAs (Decidable (atom.Printable inside ∧
      (∀ next ∈ tail.head?, Node.MayPrecede ⟨atom, quantifier⟩ next) ∧
      Sequence.Printable inside tail))
end

instance (inside : Bool) (s : Sequence) : Decidable (s.Printable inside) := s.decPrintable inside

/-! ### Printing -/

/-- The members of the set in an order in which `^` is not the first, if there is another. -/
def CharSet.listing (set : CharSet) : List Char :=
  match set.members with
  | '^' :: rest => rest ++ ['^']
  | members => members

/-- A spelling of the test. -/
def CharTest.print : CharTest → List Char
  | .literal c => [c]
  | .any => ['.']
  | .digit => ['\\', 'd']
  | .word => ['\\', 'w']
  | .oneOf set => '[' :: (set.listing ++ [']'])
  | .noneOf set => '[' :: '^' :: (set.members ++ [']'])

mutual
/-- A spelling of the atom. -/
def Atom.print : Atom → List Char
  | .single test => test.print
  | .group alternatives => '(' :: (printAlternatives alternatives ++ [')'])
/-- Spellings of the alternatives, with bars between them. -/
def printAlternatives : List Sequence → List Char
  | [] => []
  | [alternative] => Sequence.print alternative
  | alternative :: next :: rest =>
    Sequence.print alternative ++ '|' :: printAlternatives (next :: rest)
/-- A spelling of the sequence. -/
def Sequence.print : Sequence → List Char
  | [] => []
  | ⟨atom, quantifier⟩ :: tail => atom.print ++ quantifier.mark ++ Sequence.print tail
end

/-! ### What is printed is a spelling -/

theorem CharSet.listing_perm (set : CharSet) : set.listing.Perm set.members := by
  rw [listing]
  split
  · next rest h =>
    rw [h]
    exact List.perm_append_singleton '^' rest
  · exact .refl _

theorem CharSet.mem_listing {set : CharSet} {c : Char} : c ∈ set.listing ↔ c ∈ set :=
  set.listing_perm.mem_iff

theorem CharSet.ofList_listing (set : CharSet) : CharSet.ofList set.listing = set :=
  ext_mem fun _ => mem_ofList.trans mem_listing

theorem CharSet.ofList_members (set : CharSet) : CharSet.ofList set.members = set :=
  ext_mem fun _ => mem_ofList

theorem CharSet.listing_head?_ne {set : CharSet} (h : set.members ≠ ['^']) :
    set.listing.head? ≠ some '^' := by
  intro hhead
  rw [listing] at hhead
  split at hhead
  · next rest hmembers =>
    cases rest with
    | nil => exact h hmembers
    | cons c rest =>
      -- the member behind `^` is greater
      have hincreasing := set.increasing
      rw [hmembers] at hincreasing
      have hlt := (List.pairwise_cons.mp hincreasing).1 c List.mem_cons_self
      obtain rfl : c = '^' := Option.some.inj hhead
      exact Char.lt_irrefl _ hlt
  · next hmembers =>
    obtain ⟨rest, hrest⟩ := List.head?_eq_some_iff.mp hhead
    exact hmembers rest hrest

theorem CharTest.Printable.spelled_print {inside : Bool} {test : CharTest}
    (h : test.Printable inside) : (Atom.single test).Spelled inside test.print := by
  cases test with
  | literal c => exact .literal h.1 h.2
  | any => exact .any
  | digit => exact .digit
  | word => exact .word
  | oneOf set =>
    have hspelled : (Atom.single (.oneOf (.ofList set.listing))).Spelled inside
        ('[' :: (set.listing ++ [']'])) :=
      .oneOf (fun hmem => h.1 (CharSet.mem_listing.mp hmem)) (CharSet.listing_head?_ne h.2)
    rwa [CharSet.ofList_listing] at hspelled
  | noneOf set =>
    have hspelled : (Atom.single (.noneOf (.ofList set.members))).Spelled inside
        ('[' :: '^' :: (set.members ++ [']'])) := .noneOf h
    rwa [CharSet.ofList_members] at hspelled

mutual
theorem Atom.Printable.spelled_print : ∀ {inside : Bool} {atom : Atom}, atom.Printable inside →
    atom.Spelled inside atom.print
  | _, .single _, h => CharTest.Printable.spelled_print h
  | _, .group _, h => .group (AlternativesPrintable.spelled_print h.1 h.2)
theorem AlternativesPrintable.spelled_print : ∀ {alternatives : List Sequence},
    alternatives ≠ [] → AlternativesPrintable alternatives →
      AlternativesSpelled alternatives (printAlternatives alternatives)
  | [], hne, _ => absurd rfl hne
  | [_], _, h => .last (Sequence.Printable.spelled_print h.1)
  | _ :: next :: rest, _, h =>
    .more (Sequence.Printable.spelled_print h.1)
      (AlternativesPrintable.spelled_print (List.cons_ne_nil next rest) h.2)
/-- **What is printed spells what was printed.** -/
theorem Sequence.Printable.spelled_print : ∀ {inside : Bool} {s : Sequence}, s.Printable inside →
    s.Spelled inside s.print
  | _, [], _ => .nil
  | _, ⟨_, _⟩ :: _, h =>
    .cons (.mk (Atom.Printable.spelled_print h.1)) (Sequence.Printable.spelled_print h.2.2) h.2.1
end

/-! ### What is spelled is printable -/

/-- A set that is read without a `^` in front has another member than `^`, or none. -/
theorem CharSet.ofList_members_ne {body : List Char} (h : body.head? ≠ some '^') :
    (CharSet.ofList body).members ≠ ['^'] := by
  intro hmembers
  have hmem : ∀ c, c ∈ body ↔ c = '^' := by
    intro c
    rw [← CharSet.mem_ofList, ← List.mem_singleton, ← hmembers]
    rfl
  cases body with
  | nil => exact absurd ((hmem '^').mpr rfl) List.not_mem_nil
  | cons c rest =>
    rw [(hmem c).mp List.mem_cons_self] at h
    exact h rfl

mutual
theorem Atom.Spelled.printable : ∀ {inside : Bool} {atom : Atom} {text : List Char},
    atom.Spelled inside text → atom.Printable inside
  | _, _, _, .literal hc hinside => ⟨hc, hinside⟩
  | _, _, _, .any => trivial
  | _, _, _, .digit => trivial
  | _, _, _, .word => trivial
  | _, _, _, .oneOf hbody hhead =>
    ⟨fun hmem => hbody (CharSet.mem_ofList.mp hmem), CharSet.ofList_members_ne hhead⟩
  | _, _, _, .noneOf hbody => fun hmem => hbody (CharSet.mem_ofList.mp hmem)
  | _, _, _, .group h => h.printable
theorem AlternativesSpelled.printable : ∀ {alternatives : List Sequence} {text : List Char},
    AlternativesSpelled alternatives text →
      alternatives ≠ [] ∧ AlternativesPrintable alternatives
  | _, _, .last h => ⟨List.cons_ne_nil _ _, h.printable, trivial⟩
  | _, _, .more h hrest => ⟨List.cons_ne_nil _ _, h.printable, hrest.printable.2⟩
theorem Node.Spelled.printable : ∀ {inside : Bool} {node : Node} {text : List Char},
    node.Spelled inside text → node.atom.Printable inside
  | _, _, _, .mk hatom => hatom.printable
theorem Sequence.Spelled.printable : ∀ {inside : Bool} {s : Sequence} {text : List Char},
    s.Spelled inside text → s.Printable inside
  | _, _, _, .nil => trivial
  | _, ⟨_, _⟩ :: _, _, .cons hnode htail hmeet => ⟨hnode.printable, hmeet, htail.printable⟩
end

theorem Sequence.printable_iff_exists_spelled {inside : Bool} {s : Sequence} :
    s.Printable inside ↔ ∃ text, s.Spelled inside text :=
  ⟨fun h => ⟨s.print, h.spelled_print⟩, fun ⟨_, h⟩ => h.printable⟩

end LineSearch
