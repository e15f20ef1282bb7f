import LineSearch.Proofs.Reading.Steps

/-! # Reading accepts exactly what is spelled

A text is read as a sequence iff it spells the sequence.  So every text spells one
sequence at most, and what is malformed spells none.

A reader that begins a spelling where a node is expected stands behind it with the
spelled nodes on top of those it had, whatever they were and whatever groups are open
(`Sequence.Spelled.through`); the induction is on the derivation of the spelling.

Conversely, what a reader has taken so far is a spelling that breaks off: outside of
all groups the nodes of the sequence, then for each open group a `(`, the alternatives
that are complete, each with its bar, and the nodes of the next one (`OpenText`).
Every step keeps this (`Reader.HasRead.step`), and where the text may end no group is
open, so it is the spelling of the nodes.
-/
namespace LineSearch
open Reader

/-! ### What is spelled is read -/

namespace Reader
variable {offset : Nat} {nodes : List Node} {groups : List OpenGroup}

theorem step_literal {c : Char} (hc : c ∉ ['(', '[', '\\', '.'])
    (hinside : (!groups.isEmpty) = true → c ∉ [')', '|'])
    (hmark : ∀ last ∈ nodes.head?, last.MayPrecede ⟨.single (.literal c), .once⟩) :
    (⟨offset, nodes, groups, .node⟩ : Reader).step c =
      .ok ⟨offset + c.utf8Size, ⟨.single (.literal c), .once⟩ :: nodes, groups, .node⟩ := by
  obtain ⟨next, hstep, h⟩ := step_node offset nodes groups c
  rw [hstep]
  cases h with
  | atom hspelled _ =>
    rcases hspelled.of_char with ⟨-, rfl⟩ | ⟨rfl, -, -⟩
    · simp at hc
    · rfl
  | @quantify _ atom before quantifier _ hnodes hq =>
    obtain ⟨hopt, hrep⟩ := hmark ⟨atom, .once⟩ (by rw [hnodes]; rfl) rfl
    cases quantifier with
    | once => cases hq
    | optional => cases hq; exact absurd rfl hopt
    | repeated => cases hq; exact absurd rfl hrep
  | openGroup | openSet | openEscape => simp at hc
  | nextAlternative | closeGroup => simp at hinside

theorem through_mark {atom : Atom} : ∀ quantifier : Quantifier,
    (⟨offset, ⟨atom, .once⟩ :: nodes, groups, .node⟩ : Reader).through quantifier.mark =
      .ok ⟨offset + byteCount quantifier.mark, ⟨atom, quantifier⟩ :: nodes, groups, .node⟩
  | .once | .optional | .repeated => rfl

end Reader

mutual
theorem Atom.Spelled.through : ∀ {inside : Bool} {atom : Atom} {text : List Char},
    atom.Spelled inside text → ∀ {offset : Nat} {nodes : List Node} {groups : List OpenGroup},
      inside = !groups.isEmpty → (∀ last ∈ nodes.head?, last.MayPrecede ⟨atom, .once⟩) →
        (⟨offset, nodes, groups, .node⟩ : Reader).through text =
          .ok ⟨offset + byteCount text, ⟨atom, .once⟩ :: nodes, groups, .node⟩
  | _, _, _, .literal hc hinside, _, _, _, hin, hmark => by
      rw [through_singleton, step_literal hc (fun h => hinside (hin.trans h)) hmark]
      rfl
  | _, _, _, .any, _, _, _, _, _ | _, _, _, .digit, _, _, _, _, _
  | _, _, _, .word, _, _, _, _, _ => rfl
  | _, _, _, .oneOf hbody hhead, _, _, _, _, _ => by
      rw [through_wholeSet hbody, setTest_of_head_ne hhead]
  | _, _, _, .noneOf hbody, _, _, _, _, _ => by
      rw [← List.cons_append, through_wholeSet (by simpa using hbody)]
      rfl
  | _, _, _, .group halternatives, offset, nodes, groups, _, _ => by
      have hopen : (⟨offset, nodes, groups, .node⟩ : Reader).step '(' =
          .ok ⟨offset + 1, [], ⟨offset, nodes, []⟩ :: groups, .node⟩ := rfl
      rw [through_cons_of_step hopen, halternatives.through, byteCount_cons,
        byteCount_append, ← Nat.add_assoc, ← Nat.add_assoc]
      rfl
theorem AlternativesSpelled.through : ∀ {alternatives : List Sequence} {text : List Char},
    AlternativesSpelled alternatives text →
      ∀ {offset : Nat} {g : OpenGroup} {outer : List OpenGroup},
        (⟨offset, [], g :: outer, .node⟩ : Reader).through (text ++ [')']) =
          .ok ⟨offset + byteCount text + 1,
            ⟨.group (g.alternatives.reverse ++ alternatives), .once⟩ :: g.before, outer, .node⟩
  | _, _, .last h, offset, g, outer => by
      have hclose : ∀ {offset nodes}, (⟨offset, nodes, g :: outer, .node⟩ : Reader).step ')' =
          .ok ⟨offset + 1, ⟨.group (nodes.reverse :: g.alternatives).reverse, .once⟩ :: g.before,
            outer, .node⟩ := rfl
      rw [through_append (h.through rfl (by simp)), through_singleton, hclose,
        List.append_nil, List.reverse_reverse, List.reverse_cons]
  | _, _, .more h hrest, offset, g, outer => by
      have hbar : ∀ {offset nodes}, (⟨offset, nodes, g :: outer, .node⟩ : Reader).step '|' =
          .ok ⟨offset + 1, [], ⟨g.start, g.before, nodes.reverse :: g.alternatives⟩ :: outer,
            .node⟩ := rfl
      have hone : '|'.utf8Size = 1 := rfl
      rw [List.append_assoc, List.cons_append, through_append (h.through rfl (by simp)),
        through_cons_of_step hbar, hrest.through, byteCount_append, byteCount_cons, hone,
        List.append_nil, List.reverse_reverse, List.reverse_cons, List.append_assoc,
        List.singleton_append]
      simp only [Nat.add_assoc]
theorem Node.Spelled.through : ∀ {inside : Bool} {node : Node} {text : List Char},
    node.Spelled inside text → ∀ {offset : Nat} {nodes : List Node} {groups : List OpenGroup},
      inside = !groups.isEmpty → (∀ last ∈ nodes.head?, last.MayPrecede node) →
        (⟨offset, nodes, groups, .node⟩ : Reader).through text =
          .ok ⟨offset + byteCount text, node :: nodes, groups, .node⟩
  | _, _, _, .mk hatom, _, _, _, hin, hmeet => by
      rw [through_append (hatom.through hin hmeet), through_mark, byteCount_append,
        Nat.add_assoc]
theorem Sequence.Spelled.through : ∀ {inside : Bool} {s : Sequence} {text : List Char},
    s.Spelled inside text → ∀ {offset : Nat} {nodes : List Node} {groups : List OpenGroup},
      inside = !groups.isEmpty →
      (∀ last ∈ nodes.head?, ∀ next ∈ s.head?, last.MayPrecede next) →
        (⟨offset, nodes, groups, .node⟩ : Reader).through text =
          .ok ⟨offset + byteCount text, s.reverse ++ nodes, groups, .node⟩
  | _, _, _, .nil, _, _, _, _, _ => rfl
  | _, _, _, .cons hnode htail hsep, _, _, _, hin, hmeet => by
      have hfirst := fun last hlast => hmeet last hlast _ rfl
      rw [through_append (hnode.through hin hfirst), htail.through hin (by simpa using hsep),
        byteCount_append, List.reverse_cons, List.append_assoc, List.singleton_append,
        Nat.add_assoc]
end

/-! ### What is read is spelled -/

/-- The complete alternatives of an open group, the last first, are spelled each with the bar behind
it. -/
inductive BarredSpelled : List Sequence → List Char → Prop
  | nil : BarredSpelled [] []
  | cons {alternative alternatives text before} : BarredSpelled alternatives before →
      Sequence.Spelled true alternative text →
      BarredSpelled (alternative :: alternatives) (before ++ (text ++ ['|']))

/-- A text that breaks off within groups: the nodes before the outermost one, and for each of them
its complete alternatives and the nodes of the next.  Nodes and groups are listed the last first. -/
inductive OpenText : List OpenGroup → List Node → List Char → Prop
  | outside {nodes text} : Sequence.Spelled false nodes.reverse text → OpenText [] nodes text
  | within {g outer nodes before barred text} : OpenText outer g.before before →
      BarredSpelled g.alternatives barred → Sequence.Spelled true nodes.reverse text →
      OpenText (g :: outer) nodes (before ++ '(' :: (barred ++ text))

/-- What the reader has taken so far is `text`. -/
inductive Reader.HasRead : Reader → List Char → Prop
  | node {offset nodes groups text} : OpenText groups nodes text →
      HasRead ⟨offset, nodes, groups, .node⟩ text
  | escape {offset nodes groups start text} : OpenText groups nodes text →
      HasRead ⟨offset, nodes, groups, .escape start⟩ (text ++ ['\\'])
  | set {offset nodes groups start body text} : OpenText groups nodes text → ']' ∉ body →
      HasRead ⟨offset, nodes, groups, .set start body⟩ (text ++ '[' :: body.reverse)

theorem BarredSpelled.append_last : ∀ {complete : List Sequence} {barred : List Char},
    BarredSpelled complete barred → ∀ {alternatives : List Sequence} {text : List Char},
      AlternativesSpelled alternatives text →
        AlternativesSpelled (complete.reverse ++ alternatives) (barred ++ text)
  | _, _, .nil, _, _, h => h
  | _, _, .cons hbefore halternative, _, _, h => by
      rw [List.reverse_cons, List.append_assoc, List.append_assoc, List.append_assoc]
      exact hbefore.append_last (.more halternative h)

namespace OpenText
variable {groups : List OpenGroup} {nodes nodes' : List Node} {text more : List Char}

/-- Text that only changes the nodes of the current sequence. -/
theorem extend (h : OpenText groups nodes text)
    (hextend : ∀ {u}, Sequence.Spelled (!groups.isEmpty) nodes.reverse u →
      Sequence.Spelled (!groups.isEmpty) nodes'.reverse (u ++ more)) :
    OpenText groups nodes' (text ++ more) := by
  cases h with
  | outside hnodes => exact .outside (hextend hnodes)
  | within houter hbarred hnodes =>
    rw [List.append_assoc, List.cons_append, List.append_assoc]
    exact .within houter hbarred (hextend hnodes)

theorem push {atom : Atom} (h : OpenText groups nodes text)
    (hatom : atom.Spelled (!groups.isEmpty) more)
    (hmeet : ∀ last ∈ nodes.head?, last.MayPrecede ⟨atom, .once⟩) :
    OpenText groups (⟨atom, .once⟩ :: nodes) (text ++ more) := by
  refine h.extend fun {u} hnodes => ?_
  have hnode : Node.Spelled (!groups.isEmpty) ⟨atom, .once⟩ (more ++ []) := .mk hatom
  rw [List.append_nil] at hnode
  rw [List.reverse_cons]
  refine Sequence.spelled_append_iff.mpr ⟨u, more, rfl, hnodes,
    Sequence.spelled_singleton_iff.mpr hnode, fun last hlast next hnext => ?_⟩
  rw [List.getLast?_reverse] at hlast
  obtain rfl : _ = next := Option.some.inj hnext
  exact hmeet last hlast

theorem quantify {atom : Atom} {quantifier : Quantifier}
    (h : OpenText groups (⟨atom, .once⟩ :: nodes) text) :
    OpenText groups (⟨atom, quantifier⟩ :: nodes) (text ++ quantifier.mark) := by
  refine h.extend fun {u} hnodes => ?_
  rw [List.reverse_cons] at hnodes ⊢
  obtain ⟨v, w, rfl, hbefore, hlast, hmeet⟩ := Sequence.spelled_append_iff.mp hnodes
  obtain ⟨hatom⟩ := Sequence.spelled_singleton_iff.mp hlast
  rw [Quantifier.mark, List.append_nil, List.append_assoc]
  refine Sequence.spelled_append_iff.mpr ⟨v, _, rfl, hbefore,
    Sequence.spelled_singleton_iff.mpr (.mk hatom), fun last hlast next hnext => ?_⟩
  obtain rfl : _ = next := Option.some.inj hnext
  exact hmeet last hlast ⟨atom, .once⟩ rfl

theorem openGroup {start : Nat} (h : OpenText groups nodes text) :
    OpenText (⟨start, nodes, []⟩ :: groups) [] (text ++ '(' :: ([] ++ [])) :=
  .within h .nil .nil

theorem nextAlternative {g : OpenGroup} (h : OpenText (g :: groups) nodes text) :
    OpenText (⟨g.start, g.before, nodes.reverse :: g.alternatives⟩ :: groups) []
      (text ++ ['|']) := by
  obtain _ | ⟨houter, hbarred, hnodes⟩ := h
  rename_i before barred u
  have hnext : OpenText (⟨g.start, g.before, nodes.reverse :: g.alternatives⟩ :: groups) []
      (before ++ '(' :: (barred ++ (u ++ ['|']) ++ [])) :=
    .within houter (.cons hbarred hnodes) .nil
  simpa only [List.append_assoc, List.cons_append, List.append_nil] using hnext

theorem closeGroup {g : OpenGroup} (h : OpenText (g :: groups) nodes text) :
    OpenText groups (⟨.group (nodes.reverse :: g.alternatives).reverse, .once⟩ :: g.before)
      (text ++ [')']) := by
  obtain _ | ⟨houter, hbarred, hnodes⟩ := h
  rename_i before barred u
  have hgroup : Atom.Spelled (!groups.isEmpty) (.group (nodes.reverse :: g.alternatives).reverse)
      ('(' :: (barred ++ u ++ [')'])) := by
    rw [List.reverse_cons]
    exact .group (hbarred.append_last (.last hnodes))
  have hclosed := houter.push hgroup fun _ _ => Node.mayPrecede_of_not_literal (by simp)
  simpa only [List.append_assoc, List.cons_append] using hclosed

end OpenText

/-- A step keeps what is known of the text taken so far. -/
theorem Reader.HasRead.step {r next : Reader} {text : List Char} {c : Char} (h : r.HasRead text)
    (hstep : r.step c = .ok next) : next.HasRead (text ++ [c]) := by
  cases h with
  | @node offset nodes groups _ hopen =>
    obtain ⟨next', hstep', hnode⟩ := step_node offset nodes groups c
    obtain rfl : next' = next := Except.ok.inj (hstep'.symm.trans hstep)
    cases hnode with
    | atom hatom hmeet => exact .node (hopen.push hatom hmeet)
    | quantify hnodes hmark =>
      subst hnodes
      exact .node (hmark ▸ hopen.quantify)
    | openGroup => exact .node hopen.openGroup
    | nextAlternative => exact .node hopen.nextAlternative
    | closeGroup => exact .node hopen.closeGroup
    | openSet => exact .set hopen List.not_mem_nil
    | openEscape => exact .escape hopen
  | @escape offset nodes groups start before hopen =>
    rw [List.append_assoc]
    simp only [Reader.step] at hstep
    split at hstep
    · obtain rfl := Except.ok.inj hstep
      exact .node (hopen.push .digit fun _ _ => Node.mayPrecede_of_not_literal (by simp))
    · obtain rfl := Except.ok.inj hstep
      exact .node (hopen.push .word fun _ _ => Node.mayPrecede_of_not_literal (by simp))
    · cases hstep
  | @set offset nodes groups start body before hopen hbody =>
    by_cases hc : c = ']'
    · subst hc
      obtain rfl := Except.ok.inj hstep
      have hset : ']' ∉ body.reverse := fun hmem => hbody (List.mem_reverse.mp hmem)
      rw [List.append_assoc, List.cons_append]
      exact .node (hopen.push (spelled_setTest hset) fun _ _ =>
        Node.mayPrecede_of_not_literal fun _ he => setTest_ne_literal (Atom.single.inj he))
    · obtain rfl := Except.ok.inj ((step_set_of_ne hc).symm.trans hstep)
      have hset : ']' ∉ c :: body := by
        rintro (_ | ⟨_, hmem⟩)
        · exact hc rfl
        · exact hbody hmem
      rw [List.append_assoc, List.cons_append, ← List.reverse_cons]
      exact .set hopen hset

theorem Reader.HasRead.through : ∀ {text before : List Char} {r next : Reader},
    r.HasRead before → r.through text = .ok next → next.HasRead (before ++ text)
  | [], before, r, next, h, hthrough => by
      obtain rfl : r = next := Except.ok.inj hthrough
      rw [List.append_nil]
      exact h
  | c :: rest, before, r, next, h, hthrough => by
      cases hstep : r.step c with
      | error failed =>
        rw [Reader.through, List.foldlM_cons, hstep] at hthrough
        cases hthrough
      | ok middle =>
        rw [through_cons_of_step hstep] at hthrough
        rw [← List.singleton_append, ← List.append_assoc]
        exact (h.step hstep).through hthrough

theorem Sequence.spelled_of_read {text : String} {s : Sequence} (h : Sequence.read text = .ok s) :
    s.Spelled false text.toList := by
  rw [Sequence.read, Reading.startingAt, run_eq_through] at h
  cases hthrough : ({ offset := 0 } : Reader).through text.toList with
  | error reading =>
    rw [hthrough] at h
    obtain ⟨_, c, _, next, -, -, hfail⟩ := through_eq_error hthrough
    obtain ⟨start, -, rfl⟩ := step_eq_error hfail
    cases h
  | ok next =>
    rw [hthrough] at h
    have hstart : ({ offset := 0 } : Reader).HasRead [] := .node (.outside .nil)
    have hread : next.HasRead text.toList := hstart.through hthrough
    generalize text.toList = chars at hread
    -- only a reader that expects a node, with no group open, finishes without an error
    cases hread with
    | node hopen =>
      cases hopen with
      | outside hnodes =>
        obtain rfl := Except.ok.inj h
        exact hnodes
      | within _ _ _ => cases h
    | escape _ => cases h
    | set _ _ => cases h

theorem Sequence.read_of_spelled {text : String} {s : Sequence} (h : s.Spelled false text.toList) :
    Sequence.read text = .ok s := by
  rw [Sequence.read, Reading.startingAt, run_eq_through, h.through rfl (by simp)]
  simp [finish]

/-- **Reading accepts exactly what is spelled**, and yields the sequence that is spelled. -/
theorem Sequence.read_eq_ok_iff_spelled (text : String) (s : Sequence) :
    Sequence.read text = .ok s ↔ s.Spelled false text.toList := ⟨spelled_of_read, read_of_spelled⟩

end LineSearch
