import LineSearch.Proofs.Reading.Spelling

/-! # What a reader does with one character

A reader takes its text one character at a time, so what it does with a stretch of
text is a fold of its steps (`Reader.through`).  Where a node is expected a step never
fails, and there are seven things it can do (`NodeStep`): complete an atom that is
spelled by the character, quantify the last node, open a group, go on with the next
alternative, close a group, or begin an escape or a set.  An escape takes one further
character; a set takes everything up to the next `]` (`Reader.through_set`).
-/
namespace LineSearch
namespace Reader

/-! ### Stretches of text -/

/-- The reader behind a stretch of text, or the reading if the text fails within it. -/
def through (r : Reader) (text : List Char) : Except Reading Reader := text.foldlM step r

theorem through_cons_of_step {r next : Reader} {c : Char} (h : r.step c = .ok next)
    (rest : List Char) : r.through (c :: rest) = next.through rest := by
  rw [through, List.foldlM_cons, h]
  rfl

theorem through_singleton (r : Reader) (c : Char) : r.through [c] = r.step c := by
  rw [through, List.foldlM_cons]
  cases r.step c <;> rfl

theorem through_append {r next : Reader} {text : List Char} (h : r.through text = .ok next)
    (rest : List Char) : r.through (text ++ rest) = next.through rest := by
  rw [through, List.foldlM_append, ← through, h]
  rfl

theorem run_eq_through : ∀ (r : Reader) (text : List Char),
    r.run text =
      match r.through text with
      | .ok next => next.finish
      | .error reading => reading
  | _, [] => rfl
  | r, c :: rest => by
      rw [run]
      cases h : r.step c with
      | ok next => rw [through_cons_of_step h, ← run_eq_through next rest]
      | error reading => rw [through, List.foldlM_cons, h]; rfl

theorem run_cons_of_step {r next : Reader} {c : Char} (h : r.step c = .ok next)
    (rest : List Char) : r.run (c :: rest) = next.run rest := by
  rw [run, h]

theorem run_of_through {r next : Reader} {text : List Char} (h : r.through text = .ok next)
    (rest : List Char) : r.run (text ++ rest) = next.run rest := by
  rw [run_eq_through, through_append h, ← run_eq_through]

/-! ### Where a node is expected -/

/-- What a reader can do with one character where a node is expected. -/
inductive NodeStep (offset : Nat) (nodes : List Node) : List OpenGroup → Char → Reader → Prop
  | atom {groups atom c} : atom.Spelled (!groups.isEmpty) [c] →
      (∀ last ∈ nodes.head?, last.MayPrecede ⟨atom, .once⟩) →
      NodeStep offset nodes groups c ⟨offset + c.utf8Size, ⟨atom, .once⟩ :: nodes, groups, .node⟩
  | quantify {groups atom before quantifier c} : nodes = ⟨atom, .once⟩ :: before →
      quantifier.mark = [c] →
      NodeStep offset nodes groups c
        ⟨offset + c.utf8Size, ⟨atom, quantifier⟩ :: before, groups, .node⟩
  | openGroup {groups} :
      NodeStep offset nodes groups '(' ⟨offset + 1, [], ⟨offset, nodes, []⟩ :: groups, .node⟩
  | nextAlternative {g outer} :
      NodeStep offset nodes (g :: outer) '|'
        ⟨offset + 1, [], ⟨g.start, g.before, nodes.reverse :: g.alternatives⟩ :: outer, .node⟩
  | closeGroup {g outer} :
      NodeStep offset nodes (g :: outer) ')'
        ⟨offset + 1, ⟨.group (nodes.reverse :: g.alternatives).reverse, .once⟩ :: g.before, outer,
          .node⟩
  | openSet {groups} :
      NodeStep offset nodes groups '[' ⟨offset + 1, nodes, groups, .set offset []⟩
  | openEscape {groups} :
      NodeStep offset nodes groups '\\' ⟨offset + 1, nodes, groups, .escape offset⟩

/-- A mark that has no node to quantify spells itself. -/
theorem nodeStep_quantify {offset : Nat} {nodes : List Node} {groups : List OpenGroup}
    {q : Quantifier} {c : Char} (hmark : q.mark = [c])
    (hspelled : (Atom.single (.literal c)).Spelled (!groups.isEmpty) [c]) :
    NodeStep offset nodes groups c
      ((⟨offset + c.utf8Size, nodes, groups, .node⟩ : Reader).quantify q c) := by
  rw [quantify]
  split
  · next atom before hnodes => exact .quantify hnodes hmark
  · next hnodes =>
    refine .atom hspelled fun last hlast honce => ?_
    obtain ⟨before, rfl⟩ : ∃ before, nodes = last :: before := by
      cases nodes with
      | nil => cases hlast
      | cons node before => exact ⟨before, by rw [Option.some.inj hlast]⟩
    obtain ⟨atom, quantifier⟩ := last
    obtain rfl : quantifier = .once := honce
    exact absurd rfl (hnodes atom before)

/-- **Where a node is expected a step does not fail.** -/
theorem step_node (offset : Nat) (nodes : List Node) (groups : List OpenGroup) (c : Char) :
    ∃ next, (⟨offset, nodes, groups, .node⟩ : Reader).step c = .ok next ∧
      NodeStep offset nodes groups c next := by
  refine ⟨_, rfl, ?_⟩
  split
  · exact .openGroup
  · exact .openSet
  · exact .openEscape
  · exact .atom .any fun _ _ => Node.mayPrecede_of_not_literal (by simp)
  · exact nodeStep_quantify rfl (.literal (by decide) fun _ => by decide)
  · exact nodeStep_quantify rfl (.literal (by decide) fun _ => by decide)
  · cases groups with
    | nil =>
      exact .atom (.literal (by decide) fun h => by cases h) fun _ _ _ => ⟨by simp, by simp⟩
    | cons g outer => exact .nextAlternative
  · cases groups with
    | nil =>
      exact .atom (.literal (by decide) fun h => by cases h) fun _ _ _ => ⟨by simp, by simp⟩
    | cons g outer => exact .closeGroup
  · refine .atom (.literal ?_ fun _ => ?_) fun _ _ _ => ⟨?_, ?_⟩
    all_goals simp_all

/-! ### Where the letter of an escape is expected -/

/-- The only character a reader fails at is one behind a backslash that names no class. -/
theorem step_eq_error {r : Reader} {c : Char} {reading : Reading} (h : r.step c = .error reading) :
    ∃ start, r.expecting = .escape start ∧
      reading = ⟨.error (.unsupportedEscape start c), r.offset + c.utf8Size⟩ := by
  obtain ⟨offset, nodes, groups, expecting⟩ := r
  cases expecting with
  | node => cases h
  | escape start =>
    simp only [step] at h
    split at h
    · cases h
    · cases h
    · exact ⟨start, rfl, (Except.error.inj h).symm⟩
  | set start body =>
    simp only [step] at h
    split at h <;> cases h

/-- A stretch of text fails at one of its characters. -/
theorem through_eq_error : ∀ {text : List Char} {r : Reader} {reading : Reading},
    r.through text = .error reading → ∃ before c after next, text = before ++ c :: after ∧
      r.through before = .ok next ∧ next.step c = .error reading
  | c :: rest, r, reading, h => by
      cases hstep : r.step c with
      | error failed =>
        rw [through, List.foldlM_cons, hstep] at h
        obtain rfl : failed = reading := Except.error.inj h
        exact ⟨[], c, rest, r, rfl, rfl, hstep⟩
      | ok next =>
        rw [through_cons_of_step hstep] at h
        obtain ⟨before, d, after, last, rfl, hbefore, hfail⟩ := through_eq_error h
        exact ⟨c :: before, d, after, last, rfl, (through_cons_of_step hstep _).trans hbefore,
          hfail⟩

/-! ### Where the text of a set is expected -/

theorem step_openSet {offset : Nat} {nodes : List Node} {groups : List OpenGroup} :
    (⟨offset, nodes, groups, .node⟩ : Reader).step '[' =
      .ok ⟨offset + 1, nodes, groups, .set offset []⟩ := rfl

theorem step_set_of_ne {offset start : Nat} {nodes : List Node} {groups : List OpenGroup}
    {seen : List Char} {c : Char} (hc : c ≠ ']') :
    (⟨offset, nodes, groups, .set start seen⟩ : Reader).step c =
      .ok ⟨offset, nodes, groups, .set start (c :: seen)⟩ := by
  simp only [step]

/-- A set takes what is no `]`. -/
theorem through_set {offset start : Nat} {nodes : List Node} {groups : List OpenGroup} :
    ∀ {body seen : List Char}, ']' ∉ body →
      (⟨offset, nodes, groups, .set start seen⟩ : Reader).through body =
        .ok ⟨offset, nodes, groups, .set start (body.reverse ++ seen)⟩
  | [], _, _ => rfl
  | c :: body, seen, h => by
      have hc : c ≠ ']' := fun e => h (e ▸ List.mem_cons_self)
      rw [through_cons_of_step (step_set_of_ne hc),
        through_set fun hmem => h (List.mem_cons_of_mem c hmem),
        List.reverse_cons, List.append_assoc, List.singleton_append]

theorem byteCount_wholeSet (body : List Char) :
    byteCount ('[' :: (body ++ [']'])) = 1 + byteCount body + 1 := by
  rw [byteCount_cons, byteCount_append, ← Nat.add_assoc]
  rfl

/-- A set runs to the next `]`. -/
theorem through_wholeSet {offset : Nat} {nodes : List Node} {groups : List OpenGroup}
    {body : List Char} (h : ']' ∉ body) :
    (⟨offset, nodes, groups, .node⟩ : Reader).through ('[' :: (body ++ [']'])) =
      .ok ⟨offset + byteCount ('[' :: (body ++ [']'])), ⟨.single (setTest body), .once⟩ :: nodes,
        groups, .node⟩ := by
  have hclose : (⟨offset + 1, nodes, groups, .set offset body.reverse⟩ : Reader).step ']' =
      .ok ⟨offset + 1 + 1 + byteCount body.reverse,
        ⟨.single (setTest body.reverse.reverse), .once⟩ :: nodes, groups, .node⟩ := rfl
  rw [through_cons_of_step step_openSet, through_append (through_set h), List.append_nil,
    through_singleton, hclose, List.reverse_reverse, byteCount_reverse, byteCount_wholeSet]
  have hoffset : offset + 1 + 1 + byteCount body = offset + (1 + byteCount body + 1) := by omega
  rw [hoffset]

theorem setTest_of_head_ne {body : List Char} (h : body.head? ≠ some '^') :
    setTest body = .oneOf (.ofList body) := by
  rw [setTest]
  rintro rest rfl
  exact h rfl

/-- A set is spelled by what it takes. -/
theorem spelled_setTest {inside : Bool} {body : List Char} (h : ']' ∉ body) :
    (Atom.single (setTest body)).Spelled inside ('[' :: (body ++ [']'])) := by
  by_cases hhead : body.head? = some '^'
  · obtain ⟨rest, rfl⟩ := List.head?_eq_some_iff.mp hhead
    exact .noneOf fun hmem => h (List.mem_cons_of_mem _ hmem)
  · rw [setTest_of_head_ne hhead]
    exact .oneOf h hhead

theorem setTest_ne_literal {body : List Char} {c : Char} : setTest body ≠ .literal c := by
  rw [setTest.eq_def]
  split <;> simp

end Reader
end LineSearch
