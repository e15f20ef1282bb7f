import LineSearch.Pattern
import LineSearch.Proofs.Reading.Grammar
import LineSearch.Proofs.Reading.Printing

/-! # Patterns and their sources

The source of a pattern is a spelling of its body with the anchors around it.  Taking
the anchors off gives the body back unless the body itself begins with `^` where no
anchor stands in front of it, or ends with `$` where none stands behind
(`splitAnchors_eq_iff`).  A spelling begins with `^` if its first node is a literal
`^`, whatever its quantifier, and ends with `$` if its last node is a literal `$` without
mark; no other node has a spelling that does.

So the patterns that have a source are known (`Pattern.compile_eq_ok_iff`), and each
of them can be printed.
-/
namespace LineSearch

/-- A text with the anchors in front and behind. -/
def Anchors.around (anchors : Anchors) (text : List Char) : List Char :=
  (if anchors.atStart then ['^'] else []) ++ (text ++ if anchors.atEnd then ['$'] else [])

/-- A source of the pattern: the anchors around a spelling of its body. -/
def Pattern.print (p : Pattern) : String := String.ofList (p.anchors.around p.body.print)

/-- The pattern has a source. -/
structure Pattern.Printable (p : Pattern) : Prop where
  body : p.body.Printable false
  /-- No literal would be read as the anchor in front. -/
  start : p.anchors.atStart = true ∨
    ∀ first ∈ p.body.head?, first.atom ≠ .single (.literal '^')
  /-- No literal would be read as the anchor behind. -/
  stop : p.anchors.atEnd = true ∨ p.body.getLast? ≠ some ⟨.single (.literal '$'), .once⟩

instance (p : Pattern) : Decidable p.Printable :=
  decidable_of_iff (p.body.Printable false ∧
      (p.anchors.atStart = true ∨ ∀ first ∈ p.body.head?, first.atom ≠ .single (.literal '^')) ∧
      (p.anchors.atEnd = true ∨ p.body.getLast? ≠ some ⟨.single (.literal '$'), .once⟩))
    ⟨fun h => ⟨h.1, h.2.1, h.2.2⟩, fun h => ⟨h.body, h.start, h.stop⟩⟩

/-! ### Anchors are taken off -/

theorem takeStartAnchor_eq_iff {text rest : List Char} {anchored : Bool} :
    takeStartAnchor text = (anchored, rest) ↔
      text = (if anchored then ['^'] else []) ++ rest ∧
        (anchored = true ∨ rest.head? ≠ some '^') := by
  constructor
  · intro h
    rw [takeStartAnchor.eq_def] at h
    split at h
    · obtain ⟨rfl, rfl⟩ := Prod.mk.inj h
      exact ⟨rfl, .inl rfl⟩
    · next hne =>
      obtain ⟨rfl, rfl⟩ := Prod.mk.inj h
      refine ⟨rfl, .inr fun hhead => ?_⟩
      obtain ⟨after, hafter⟩ := List.head?_eq_some_iff.mp hhead
      exact hne after hafter
  · rintro ⟨rfl, h⟩
    cases anchored with
    | true => rfl
    | false =>
      have hhead := h.resolve_left Bool.false_ne_true
      show takeStartAnchor rest = (false, rest)
      rw [takeStartAnchor.eq_def]
      split
      · exact absurd rfl hhead
      · rfl

theorem takeEndAnchor_eq_iff {text rest : List Char} {anchored : Bool} :
    takeEndAnchor text = (anchored, rest) ↔
      text = rest ++ (if anchored then ['$'] else []) ∧
        (anchored = true ∨ rest.getLast? ≠ some '$') := by
  constructor
  · intro h
    rw [takeEndAnchor] at h
    split at h
    · next hlast =>
      obtain ⟨before, rfl⟩ := List.getLast?_eq_some_iff.mp hlast
      rw [List.dropLast_concat] at h
      obtain ⟨rfl, rfl⟩ := Prod.mk.inj h
      exact ⟨rfl, .inl rfl⟩
    · next hlast =>
      obtain ⟨rfl, rfl⟩ := Prod.mk.inj h
      exact ⟨(List.append_nil text).symm, .inr hlast⟩
  · rintro ⟨rfl, h⟩
    cases anchored with
    | true =>
      show takeEndAnchor (rest ++ ['$']) = (true, rest)
      rw [takeEndAnchor, if_pos List.getLast?_concat, List.dropLast_concat]
    | false =>
      show takeEndAnchor (rest ++ []) = (false, rest)
      rw [List.append_nil, takeEndAnchor, if_neg (h.resolve_left Bool.false_ne_true)]

/-- **Taking the anchors off gives the text between them**, unless that begins or ends like an
anchor where none stands. -/
theorem splitAnchors_eq_iff {source text : List Char} {anchors : Anchors} :
    splitAnchors source = (anchors, text) ↔ source = anchors.around text ∧
      (anchors.atStart = true ∨ text.head? ≠ some '^') ∧
      (anchors.atEnd = true ∨ text.getLast? ≠ some '$') := by
  obtain ⟨atStart, atEnd⟩ := anchors
  -- the anchor behind does not begin like the one in front
  have hhead : (text ++ if atEnd then ['$'] else []).head? ≠ some '^' ↔ text.head? ≠ some '^' := by
    cases text with
    | nil => cases atEnd <;> simp
    | cons c rest => rfl
  have hsplit : splitAnchors source = (⟨atStart, atEnd⟩, text) ↔ ∃ rest,
      takeStartAnchor source = (atStart, rest) ∧ takeEndAnchor rest = (atEnd, text) := by
    rw [splitAnchors]
    simp only [Prod.ext_iff, Anchors.mk.injEq]
    constructor
    · rintro ⟨⟨hstart, hend⟩, htext⟩
      exact ⟨_, ⟨hstart, rfl⟩, hend, htext⟩
    · rintro ⟨rest, ⟨hstart, rfl⟩, hend, htext⟩
      exact ⟨⟨hstart, hend⟩, htext⟩
  rw [hsplit]
  simp only [takeStartAnchor_eq_iff, takeEndAnchor_eq_iff]
  constructor
  · rintro ⟨_, ⟨hsource, hstart⟩, rfl, hend⟩
    exact ⟨hsource, hstart.imp_right hhead.mp, hend⟩
  · rintro ⟨hsource, hstart, hend⟩
    exact ⟨_, ⟨hsource, hstart.imp_right hhead.mpr⟩, rfl, hend⟩

/-! ### How spellings begin and end -/

variable {inside : Bool}

theorem Atom.Spelled.head?_iff {atom : Atom} {text : List Char} (h : atom.Spelled inside text)
    {c : Char} (hc : c ∉ ['(', '[', '\\', '.']) :
    text.head? = some c ↔ atom = .single (.literal c) := by
  cases h with
  | literal => simp
  | any | digit | word | oneOf _ _ | noneOf _ | group _ =>
    refine iff_of_false ?_ nofun
    rintro ⟨⟩
    exact hc (by decide)

theorem Atom.Spelled.getLast?_iff {atom : Atom} {text : List Char} (h : atom.Spelled inside text)
    {c : Char} (hc : c ∉ ['.', 'd', 'w', ']', ')']) :
    text.getLast? = some c ↔ atom = .single (.literal c) := by
  cases h with
  | literal => simp
  | any | digit | word =>
    refine iff_of_false ?_ nofun
    rintro ⟨⟩
    exact hc (by decide)
  | oneOf _ _ | noneOf _ | group _ =>
    refine iff_of_false ?_ nofun
    simp only [List.getLast?_cons, List.getLast?_concat, Option.getD_some]
    rintro ⟨⟩
    exact hc (by decide)

theorem Atom.Spelled.ne_nil {atom : Atom} {text : List Char} (h : atom.Spelled inside text) :
    text ≠ [] := by
  cases h with
  | literal | any | digit | word | oneOf _ _ | noneOf _ | group _ => exact List.cons_ne_nil _ _

theorem Node.Spelled.ne_nil {node : Node} {text : List Char} (h : node.Spelled inside text) :
    text ≠ [] := by
  obtain ⟨hatom⟩ := h
  exact List.append_ne_nil_of_left_ne_nil hatom.ne_nil _

/-- Of a node with a quantifier only the mark is seen at the end. -/
theorem Node.Spelled.getLast?_iff {node : Node} {text : List Char} (h : node.Spelled inside text)
    {c : Char} (hc : c ∉ ['.', 'd', 'w', ']', ')', '?', '+']) :
    text.getLast? = some c ↔ node = ⟨.single (.literal c), .once⟩ := by
  cases h with
  | @mk _ atom quantifier text hatom =>
    cases quantifier with
    | once =>
      have hatomChar : c ∉ ['.', 'd', 'w', ']', ')'] := fun hmem =>
        hc (List.mem_append_left ['?', '+'] hmem)
      rw [Quantifier.mark, List.append_nil, hatom.getLast?_iff hatomChar, Node.mk.injEq]
      exact (and_iff_left rfl).symm
    | optional | repeated =>
      refine iff_of_false ?_ fun heq => by cases heq
      rw [Quantifier.mark, List.getLast?_concat]
      rintro ⟨⟩
      exact hc (by decide)

/-- A spelling begins with a character that only literals begin with iff its first node is that
literal. -/
theorem Sequence.Spelled.head?_iff {s : Sequence} {text : List Char} (h : s.Spelled inside text)
    {c : Char} (hc : c ∉ ['(', '[', '\\', '.']) :
    text.head? = some c ↔ ∃ first ∈ s.head?, first.atom = .single (.literal c) := by
  cases h with
  | nil => simp
  | cons hnode _ _ =>
    obtain ⟨hatom⟩ := hnode
    have hsome := List.isSome_head?.mpr hatom.ne_nil
    rw [List.append_assoc, List.head?_append, Option.or_of_isSome hsome, hatom.head?_iff hc]
    simp

/-- A spelling ends with a character that only literals end with iff its last node is that literal,
without mark. -/
theorem Sequence.Spelled.getLast?_iff {s : Sequence} {text : List Char}
    (h : s.Spelled inside text) {c : Char} (hc : c ∉ ['.', 'd', 'w', ']', ')', '?', '+']) :
    text.getLast? = some c ↔ s.getLast? = some ⟨.single (.literal c), .once⟩ := by
  rcases List.eq_nil_or_concat s with rfl | ⟨before, last, rfl⟩
  · rw [spelled_nil_iff.mp h]
    simp
  · rw [List.concat_eq_append] at h ⊢
    obtain ⟨u, v, rfl, -, hlast, -⟩ := spelled_append_iff.mp h
    have hnode := spelled_singleton_iff.mp hlast
    have hsome := List.getLast?_isSome.mpr hnode.ne_nil
    rw [List.getLast?_append, Option.or_of_isSome hsome, hnode.getLast?_iff hc,
      List.getLast?_concat, Option.some_inj]

/-! ### Which patterns have a source -/

theorem Reading.result_eq_ok_iff {text : List Char} {s : Sequence} :
    (Reading.startingAt 0 text).result = .ok s ↔ s.Spelled false text := by
  have hread : Sequence.read (String.ofList text) = (Reading.startingAt 0 text).result := by
    rw [Sequence.read, String.toList_ofList]
  rw [← hread]
  constructor
  · intro h
    have hspelled := Sequence.spelled_of_read h
    rwa [String.toList_ofList] at hspelled
  · intro h
    apply Sequence.read_of_spelled
    rwa [String.toList_ofList]

/-- A text that spells the body may stand between the anchors iff the body can be told apart from
them. -/
theorem Pattern.printable_iff {p : Pattern} {text : List Char} (h : p.body.Spelled false text) :
    p.Printable ↔ (p.anchors.atStart = true ∨ text.head? ≠ some '^') ∧
      (p.anchors.atEnd = true ∨ text.getLast? ≠ some '$') := by
  have hfirst : text.head? ≠ some '^' ↔
      ∀ first ∈ p.body.head?, first.atom ≠ .single (.literal '^') := by
    rw [Ne, h.head?_iff (by decide)]
    exact ⟨fun hnone first hmem heq => hnone ⟨first, hmem, heq⟩,
      fun hall ⟨first, hmem, heq⟩ => hall first hmem heq⟩
  have hlast : text.getLast? ≠ some '$' ↔
      p.body.getLast? ≠ some ⟨.single (.literal '$'), .once⟩ :=
    not_congr (h.getLast?_iff (by decide))
  rw [hfirst, hlast]
  exact ⟨fun hp => ⟨hp.start, hp.stop⟩, fun ⟨hstart, hstop⟩ => ⟨h.printable, hstart, hstop⟩⟩

theorem Pattern.compile_eq_map {source : String} {anchors : Anchors} {text : List Char}
    (h : splitAnchors source.toList = (anchors, text)) :
    Pattern.compile source = (Reading.startingAt 0 text).result.map fun s => ⟨s, anchors⟩ := by
  rw [compile, h]

theorem Pattern.compile_eq_ok_iff_spelled {source : String} {p : Pattern} :
    Pattern.compile source = .ok p ↔
      ∃ text, splitAnchors source.toList = (p.anchors, text) ∧ p.body.Spelled false text := by
  constructor
  · intro h
    cases hsplit : splitAnchors source.toList with
    | mk anchors text =>
      rw [compile_eq_map hsplit] at h
      cases hresult : (Reading.startingAt 0 text).result with
      | error e =>
        rw [hresult] at h
        cases h
      | ok s =>
        rw [hresult] at h
        obtain rfl : ⟨s, anchors⟩ = p := Except.ok.inj h
        exact ⟨text, rfl, Reading.result_eq_ok_iff.mp hresult⟩
  · rintro ⟨text, hsplit, h⟩
    rw [compile_eq_map hsplit, Reading.result_eq_ok_iff.mpr h]
    rfl

/-- **A source is a spelling of the body with the anchors around it.** -/
theorem Pattern.compile_eq_ok_iff {source : String} {p : Pattern} :
    Pattern.compile source = .ok p ↔ p.Printable ∧
      ∃ text, p.body.Spelled false text ∧ source.toList = p.anchors.around text := by
  rw [compile_eq_ok_iff_spelled]
  constructor
  · rintro ⟨text, hsplit, hspelled⟩
    obtain ⟨hsource, hhead, hlast⟩ := splitAnchors_eq_iff.mp hsplit
    exact ⟨(printable_iff hspelled).mpr ⟨hhead, hlast⟩, text, hspelled, hsource⟩
  · rintro ⟨hp, text, hspelled, hsource⟩
    obtain ⟨hhead, hlast⟩ := (printable_iff hspelled).mp hp
    exact ⟨text, splitAnchors_eq_iff.mpr ⟨hsource, hhead, hlast⟩, hspelled⟩

/-- Every source of a pattern, be its sets listed in one order or another, compiles to it. -/
theorem Pattern.Printable.compile_around {p : Pattern} (hp : p.Printable) {text : List Char}
    (h : p.body.Spelled false text) :
    Pattern.compile (String.ofList (p.anchors.around text)) = .ok p :=
  compile_eq_ok_iff.mpr ⟨hp, text, h, String.toList_ofList⟩

/-- **Printing and compiling are inverse.**  The patterns that have a source are the printable ones,
and what is printed for one of them is a source of it, as is every other spelling of its body between
its anchors.  So a compiled pattern is printed as a source of itself. -/
theorem Pattern.compile_print :
    (∀ p : Pattern, (∃ source, Pattern.compile source = .ok p) ↔ p.Printable) ∧
    (∀ p : Pattern, p.Printable →
      p.body.Spelled false p.body.print ∧ Pattern.compile p.print = .ok p ∧
      ∀ text, p.body.Spelled false text →
        Pattern.compile (String.ofList (p.anchors.around text)) = .ok p) ∧
    ∀ source p, Pattern.compile source = .ok p → Pattern.compile p.print = .ok p := by
  have hprint : ∀ p : Pattern, p.Printable → Pattern.compile p.print = .ok p := fun p hp =>
    hp.compile_around hp.body.spelled_print
  refine ⟨fun p => ⟨?_, fun hp => ⟨p.print, hprint p hp⟩⟩, ?_, ?_⟩
  · rintro ⟨source, hsource⟩
    exact (compile_eq_ok_iff.mp hsource).1
  · intro p hp
    exact ⟨hp.body.spelled_print, hprint p hp, fun text h => hp.compile_around h⟩
  · intro source p hsource
    exact hprint p (compile_eq_ok_iff.mp hsource).1

/-- A `^` is printed behind the other members of its set, a `$` in front and a `?` behind a mark are
literals, and a source with the members out of order is another source of the same pattern. -/
theorem Pattern.compile_print_set_with_caret :
    let p : Pattern := ⟨[⟨.single (.literal '$'), .once⟩,
      ⟨.group [[⟨.single (.literal 'a'), .once⟩], []], .repeated⟩, ⟨.single (.literal '?'), .once⟩,
      ⟨.single (.oneOf (.ofList ['^', 'a'])), .optional⟩], ⟨true, false⟩⟩
    p.Printable ∧ (∃ source, Pattern.compile source = .ok p) ∧
      p.print = "^$(a|)+?[a^]?" ∧ Pattern.compile "^$(a|)+?[a^]?" = .ok p ∧
      Pattern.compile "^$(a|)+?[aa^^a]?" = .ok p := by
  intro p
  have hp : p.Printable := by decide +kernel
  obtain ⟨hiff, hprint, hagain⟩ := compile_print
  have hsource : ∃ source, Pattern.compile source = .ok p := (hiff p).mpr hp
  obtain ⟨-, -, hall⟩ := hprint p hp
  -- the members of the set in another order, some of them again
  have hother : p.body.Spelled false "$(a|)+?[aa^^a]?".toList := Reading.result_eq_ok_iff.mp rfl
  have hcompiled : Pattern.compile "^$(a|)+?[aa^^a]?" = .ok p := hall _ hother
  exact ⟨hp, hsource, rfl, hagain _ p hcompiled, hcompiled⟩

end LineSearch
