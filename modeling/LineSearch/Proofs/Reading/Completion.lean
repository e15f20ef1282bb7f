import LineSearch.Proofs.Reading.Steps

/-! # What is missing at the end of a text

A reading fails before the end of a text only at an escape that names no class, and then what
stands behind the escape is not looked at.  Every other text that is malformed only ends too
early: it lacks the letter of an escape or the `]` of a set, and a `)` for every group that
is open.

How a text ends can be told in one pass over it that keeps nothing but this (`TextEnd.of`).
The reader knows it as well, since each of its steps changes what is open just as the pass
does (`Reader.textEnd_step`).  With what is missing no group is left open
(`Reader.through_missing`), so the text becomes an expression.
-/
namespace LineSearch

/-! ### How a text ends -/

/-- The construct that a text breaks off in. -/
inductive BreaksOff
  /-- None: a node may follow. -/
  | nowhere
  /-- An escape, of which there is only the backslash. -/
  | escape
  /-- A set, which has no `]`. -/
  | set
deriving DecidableEq

/-- How a text ends. -/
structure TextEnd where
  /-- The construct that it breaks off in. -/
  within : BreaksOff := .nowhere
  /-- The number of groups that are open. -/
  depth : Nat := 0
deriving DecidableEq

namespace TextEnd

/-- How a text ends with one more character. -/
def next (e : TextEnd) (c : Char) : TextEnd :=
  match e.within with
  | .nowhere =>
    match c with
    | '(' => { e with depth := e.depth + 1 }
    | ')' => { e with depth := e.depth - 1 }
    | '[' => { e with within := .set }
    | '\\' => { e with within := .escape }
    | _ => e
  | .escape => { e with within := .nowhere }
  | .set => if c = ']' then { e with within := .nowhere } else e

/-- How the text ends. -/
def of (text : List Char) : TextEnd := text.foldl next {}

/-- What closes a construct that breaks off. -/
def closing : BreaksOff → List Char
  | .nowhere => []
  | .escape => ['d']
  | .set => [']']

/-- What is missing behind a text that ends in this way. -/
def missing (e : TextEnd) : List Char := closing e.within ++ List.replicate e.depth ')'

/-- What is read of a text that ends in this way. -/
def Explains (e : TextEnd) : Except PatternError Sequence → Prop
  | .ok _ => e.within = .nowhere ∧ e.depth = 0
  | .error (.unclosedGroup _) => e.within = .nowhere ∧ 0 < e.depth
  | .error (.unclosedSet _) => e.within = .set
  | .error (.danglingEscape _) => e.within = .escape
  | .error (.unsupportedEscape _ _) => False

theorem next_nowhere_of_not_mem {depth : Nat} {c : Char} (hc : c ∉ ['(', '[', '\\'])
    (hclose : c = ')' → depth = 0) : next ⟨.nowhere, depth⟩ c = ⟨.nowhere, depth⟩ := by
  simp only [List.mem_cons, List.not_mem_nil, or_false, not_or] at hc
  obtain ⟨hgroup, hset, hescape⟩ := hc
  by_cases hc : c = ')'
  · subst hc
    rw [hclose rfl]
    rfl
  · simp only [next]

end TextEnd

/-! ### What the reader knows of it -/

namespace Reader

/-- How the text ends that a reader has taken. -/
def textEnd (r : Reader) : TextEnd where
  within :=
    match r.expecting with
    | .node => .nowhere
    | .escape _ => .escape
    | .set _ _ => .set
  depth := r.groups.length

/-- **A step changes what is open as the next character says.** -/
theorem textEnd_step {r next : Reader} {c : Char} (h : r.step c = .ok next) :
    next.textEnd = r.textEnd.next c := by
  obtain ⟨offset, nodes, groups, expecting⟩ := r
  cases expecting with
  | node =>
    obtain ⟨other, hother, hnode⟩ := step_node offset nodes groups c
    obtain rfl : other = next := Except.ok.inj (hother.symm.trans h)
    cases hnode with
    | atom hspelled _ =>
      refine (TextEnd.next_nowhere_of_not_mem ?_ ?_).symm
      · rcases hspelled.of_char with ⟨-, rfl⟩ | ⟨-, hc, -⟩
        · decide
        · simp_all
      · rintro rfl
        rcases hspelled.of_char with ⟨-, hdot⟩ | ⟨-, -, hinside⟩
        · exact absurd hdot (by decide)
        · cases groups with
          | nil => rfl
          | cons g outer => exact absurd List.mem_cons_self (hinside rfl)
    | @quantify _ atom before quantifier _ hnodes hmark =>
      cases quantifier with
      | once => cases hmark
      | optional | repeated =>
        cases hmark
        rfl
    | openGroup | nextAlternative | closeGroup | openSet | openEscape => rfl
  | escape start =>
    simp only [step] at h
    split at h
    · obtain rfl := Except.ok.inj h
      rfl
    · obtain rfl := Except.ok.inj h
      rfl
    · cases h
  | set start body =>
    by_cases hc : c = ']'
    · subst hc
      obtain rfl := Except.ok.inj h
      rfl
    · obtain rfl := Except.ok.inj ((step_set_of_ne hc).symm.trans h)
      exact (if_neg hc).symm

theorem textEnd_through {text : List Char} {r next : Reader} (h : r.through text = .ok next) :
    next.textEnd = text.foldl TextEnd.next r.textEnd := by
  induction text generalizing r with
  | nil =>
    obtain rfl : r = next := Except.ok.inj h
    rfl
  | cons c rest ih =>
    cases hstep : r.step c with
    | error reading =>
      rw [through, List.foldlM_cons, hstep] at h
      cases h
    | ok middle =>
      rw [through_cons_of_step hstep] at h
      rw [ih h, textEnd_step hstep, List.foldl_cons]

/-- How the text ends explains the reading of a text that ends here. -/
theorem textEnd_explains (r : Reader) : r.textEnd.Explains r.finish.result := by
  obtain ⟨offset, nodes, groups, expecting⟩ := r
  cases expecting with
  | node =>
    cases groups with
    | nil => exact ⟨rfl, rfl⟩
    | cons g outer => exact ⟨rfl, Nat.succ_pos _⟩
  | escape start => rfl
  | set start body => rfl

/-! ### Completing a text -/

/-- The parentheses that are missing close all groups. -/
theorem through_parentheses (offset : Nat) (nodes : List Node) (groups : List OpenGroup) :
    ∃ offset' nodes', (⟨offset, nodes, groups, .node⟩ : Reader).through
      (List.replicate groups.length ')') = .ok ⟨offset', nodes', [], .node⟩ := by
  induction groups generalizing offset nodes with
  | nil => exact ⟨offset, nodes, rfl⟩
  | cons g outer ih =>
    have hclose : (⟨offset, nodes, g :: outer, .node⟩ : Reader).step ')' =
        .ok ⟨offset + 1, ⟨.group (nodes.reverse :: g.alternatives).reverse, .once⟩ :: g.before,
          outer, .node⟩ := rfl
    rw [List.length_cons, List.replicate_succ, through_cons_of_step hclose]
    exact ih _ _

/-- The construct that the text breaks off in is closed first. -/
theorem through_closing (r : Reader) : ∃ offset nodes,
    r.through (TextEnd.closing r.textEnd.within) = .ok ⟨offset, nodes, r.groups, .node⟩ := by
  obtain ⟨offset, nodes, groups, expecting⟩ := r
  cases expecting with
  | node => exact ⟨offset, nodes, rfl⟩
  | escape start => exact ⟨_, _, rfl⟩
  | set start body => exact ⟨_, _, rfl⟩

/-- **With what is missing nothing is left open.** -/
theorem through_missing (r : Reader) :
    ∃ offset nodes, r.through r.textEnd.missing = .ok ⟨offset, nodes, [], .node⟩ := by
  obtain ⟨offset, nodes, hclosing⟩ := r.through_closing
  obtain ⟨offset', nodes', hparentheses⟩ := through_parentheses offset nodes r.groups
  refine ⟨offset', nodes', ?_⟩
  rw [TextEnd.missing, through_append hclosing]
  exact hparentheses

/-- A text that fails within a stretch fails in the same way with more behind. -/
theorem run_append_of_error {r : Reader} {text : List Char} {reading : Reading}
    (h : r.through text = .error reading) (more : List Char) : r.run (text ++ more) = reading := by
  rw [run_eq_through, through, List.foldlM_append, ← through, h]
  rfl

end Reader

namespace Sequence

/-- A text fails at an escape within it, or is read up to its end. -/
theorem read_cases (p : String) :
    (∃ offset c, ∀ q, Sequence.read (p ++ q) = .error (.unsupportedEscape offset c)) ∨
    ((TextEnd.of p.toList).Explains (Sequence.read p) ∧
      ∃ s, Sequence.read (p ++ String.ofList (TextEnd.of p.toList).missing) = .ok s) := by
  have hread : ∀ q, Sequence.read (p ++ q) =
      (({ offset := 0 } : Reader).run (p.toList ++ q.toList)).result := by
    intro q
    rw [read, Reading.startingAt, String.toList_append]
  cases hthrough : ({ offset := 0 } : Reader).through p.toList with
  | error reading =>
    obtain ⟨_, c, _, r, -, -, hfail⟩ := Reader.through_eq_error hthrough
    obtain ⟨start, -, rfl⟩ := Reader.step_eq_error hfail
    refine .inl ⟨start, c, fun q => ?_⟩
    rw [hread, Reader.run_append_of_error hthrough]
  | ok r =>
    have hend : r.textEnd = TextEnd.of p.toList := Reader.textEnd_through hthrough
    obtain ⟨offset, nodes, hmissing⟩ := r.through_missing
    rw [← hend]
    refine .inr ⟨?_, nodes.reverse, ?_⟩
    · rw [read, Reading.startingAt, Reader.run_eq_through, hthrough]
      exact r.textEnd_explains
    · rw [hread, String.toList_ofList, Reader.run_of_through hthrough, Reader.run_eq_through,
        hmissing]
      rfl

/-- **Only an escape that names no class is beyond repair.**  A text that has one is malformed in the
same way whatever stands behind it.  Of any other text, malformed or not, its end explains what is
read of it, and with what is missing there it is an expression.  So the texts that no text behind them
makes an expression are those with such an escape. -/
theorem read_beyond_repair (p : String) :
    (∀ offset c, Sequence.read p = .error (.unsupportedEscape offset c) →
      ∀ q, Sequence.read (p ++ q) = .error (.unsupportedEscape offset c)) ∧
    ((∀ offset c, Sequence.read p ≠ .error (.unsupportedEscape offset c)) →
      (TextEnd.of p.toList).Explains (Sequence.read p) ∧
      ∃ s, Sequence.read (p ++ String.ofList (TextEnd.of p.toList).missing) = .ok s) ∧
    ((∃ offset c, Sequence.read p = .error (.unsupportedEscape offset c)) ↔
      ∀ q s, Sequence.read (p ++ q) ≠ .ok s) := by
  rcases read_cases p with ⟨start, d, hfails⟩ | ⟨hexplains, s, hs⟩
  · have hread : Sequence.read p = .error (.unsupportedEscape start d) := by
      rw [← hfails "", String.append_empty]
    refine ⟨?_, fun hnone => absurd hread (hnone start d), ?_⟩
    · intro offset c h q
      rw [hfails, ← hread, h]
    · refine iff_of_true ⟨start, d, hread⟩ fun q s h => ?_
      rw [hfails] at h
      cases h
  · have hnone : ∀ offset c, Sequence.read p ≠ .error (.unsupportedEscape offset c) := by
      intro offset c h
      rw [h] at hexplains
      exact hexplains
    refine ⟨fun offset c h => absurd h (hnone offset c), fun _ => ⟨hexplains, s, hs⟩, ?_⟩
    exact iff_of_false (fun ⟨offset, c, h⟩ => hnone offset c h) fun h => h _ s hs

/-- Within the set of `((é|[(` two groups are open and a third is not.  Behind the escape `\q` a
parenthesis is of no help. -/
theorem read_beyond_repair_within_set :
    (Sequence.read "((é|[(" = .error (.unclosedSet 5) ∧
      (TextEnd.of "((é|[(".toList).missing = [']', ')', ')'] ∧
      ∃ s, Sequence.read ("((é|[(" ++ "]))") = .ok s) ∧
    Sequence.read "(\\q" = .error (.unsupportedEscape 1 'q') ∧
      Sequence.read ("(\\q" ++ ")") = .error (.unsupportedEscape 1 'q') := by
  have hset : Sequence.read "((é|[(" = .error (.unclosedSet 5) := rfl
  have hescape : Sequence.read "(\\q" = .error (.unsupportedEscape 1 'q') := rfl
  have hmissing : (TextEnd.of "((é|[(".toList).missing = [']', ')', ')'] := rfl
  obtain ⟨-, hcompleted, -⟩ := read_beyond_repair "((é|[("
  obtain ⟨hpersists, -, -⟩ := read_beyond_repair "(\\q"
  obtain ⟨-, s, hs⟩ := hcompleted fun offset c h => by
    rw [hset] at h
    cases h
  rw [hmissing] at hs
  exact ⟨⟨hset, hmissing, s, hs⟩, hescape, hpersists 1 'q' hescape ")"⟩

end Sequence
end LineSearch
