import LineSearch.Proofs.Matching.WholeLine
import LineSearch.Proofs.Reading.Grammar
import LineSearch.Proofs.Text.Substrings

/-! # Text that is searched for as it stands

A text without `.`, `\`, `[`, `(`, `?` and `+` is read as the word of its own letters:
`|` and `)` have a meaning inside of groups only, `]` inside of sets, and `^` and `$` are
no part of an expression (`Sequence.read_of_verbatim`).

A word is aligned with a stretch of the line that reads like it, and nothing in it leaves
a choice.  So the line matches if the word stands in it where the anchors hold it
(`Anchors.Places`): anywhere, at the beginning, at the end, or as the whole line.  It makes
no difference whether the line is looked at as characters or as their bytes, since no text
stands in the bytes of another without standing in that text (`Anchors.places_encode_iff`).
-/
namespace LineSearch

/-- Outside of groups and sets every character of the text stands for itself. -/
def Verbatim (text : List Char) : Prop := ∀ c ∈ text, c ∉ ['.', '\\', '[', '(', '?', '+']

/-- The part stands in the whole where the anchors hold it. -/
def Anchors.Places {α : Type} (anchors : Anchors) (part whole : List α) : Prop :=
  ∃ before after, whole = before ++ (part ++ after) ∧
    (anchors.atStart = true → before = []) ∧ (anchors.atEnd = true → after = [])

instance (text : List Char) : Decidable (Verbatim text) := List.decidableBAll _ text

namespace Sequence

/-! ### Reading -/

theorem spelled_word {inside : Bool} {letters : List Char} (h : Verbatim letters)
    (hinside : inside = true → ∀ c ∈ letters, c ∉ [')', '|']) :
    (word letters).Spelled inside letters := by
  induction letters with
  | nil => exact .nil
  | cons c letters ih =>
    obtain ⟨hc, hletters⟩ := List.forall_mem_cons.mp h
    have hopening : ['(', '[', '\\', '.'] ⊆ ['.', '\\', '[', '(', '?', '+'] := by decide
    have hliteral : Atom.Spelled inside (.single (.literal c)) [c] :=
      .literal (fun hmem => hc (hopening hmem)) fun hin => hinside hin c (List.mem_cons_self ..)
    have hnode : Node.Spelled inside ⟨.single (.literal c), .once⟩ [c] := .mk hliteral
    refine .cons hnode (ih hletters fun hin => (List.forall_mem_cons.mp (hinside hin)).2) ?_
    -- the letter behind is none that would be read as the mark of this one
    intro next hnext _
    obtain ⟨d, hmem, rfl⟩ := List.mem_map.mp (List.mem_of_mem_head? hnext)
    have hd := hletters d hmem
    constructor
    · rintro ⟨⟩
      exact hd (by decide)
    · rintro ⟨⟩
      exact hd (by decide)

theorem read_of_verbatim {text : String} (h : Verbatim text.toList) :
    read text = .ok (word text.toList) := read_of_spelled (spelled_word h nofun)

/-! ### Matching -/

theorem groupFree_word (letters : List Char) : (word letters).GroupFree := by
  intro node hmem
  obtain ⟨c, -, rfl⟩ := List.mem_map.mp hmem
  exact ⟨_, rfl⟩

/-- **A line matches a word if the word stands in it** where the anchors hold it. -/
theorem matchesLine_word_iff {anchors : Anchors} {letters line : List Char} :
    (word letters).matchesLine anchors line = true ↔ anchors.Places letters line := by
  rw [(groupFree_word letters).matchesLine_iff_aligns]
  simp only [aligns_word_iff]
  constructor
  · rintro ⟨start, stop, hold, ⟨after, hafter⟩, rfl⟩
    refine ⟨line.take start, after, ?_, ?_, ?_⟩
    · rw [hafter, List.take_append_drop]
    · intro hstart
      rw [hold.at_start hstart, List.take_zero]
    · intro hend
      have hlength := congrArg List.length hafter
      rw [List.length_append, List.length_drop] at hlength
      have hstop := hold.at_end hend
      exact List.length_eq_zero_iff.mp (by omega)
  · rintro ⟨before, after, rfl, hstart, hend⟩
    refine ⟨before.length, before.length + letters.length, ⟨?_, ?_, ?_, ?_⟩, ?_, rfl⟩
    · omega
    · simp only [List.length_append]
      omega
    · intro h
      rw [hstart h, List.length_nil]
    · intro h
      rw [hend h, List.append_nil, List.length_append]
    · rw [List.drop_left]
      exact List.prefix_append ..

end Sequence

/-! ### Where a part stands -/

namespace Anchors
variable {α : Type} {anchors : Anchors} {part whole : List α}

theorem places_anywhere_iff : Places ⟨false, false⟩ part whole ↔ part <:+: whole := by
  constructor
  · rintro ⟨before, after, rfl, -, -⟩
    exact ⟨before, after, List.append_assoc ..⟩
  · rintro ⟨before, after, rfl⟩
    exact ⟨before, after, List.append_assoc .., nofun, nofun⟩

theorem places_at_start_iff : Places ⟨true, false⟩ part whole ↔ part <+: whole := by
  constructor
  · rintro ⟨before, after, rfl, hstart, -⟩
    obtain rfl := hstart rfl
    exact List.prefix_append ..
  · rintro ⟨after, rfl⟩
    exact ⟨[], after, rfl, fun _ => rfl, nofun⟩

theorem places_at_end_iff : Places ⟨false, true⟩ part whole ↔ part <:+ whole := by
  constructor
  · rintro ⟨before, after, rfl, -, hend⟩
    obtain rfl := hend rfl
    rw [List.append_nil]
    exact List.suffix_append ..
  · rintro ⟨before, rfl⟩
    exact ⟨before, [], by rw [List.append_nil], nofun, fun _ => rfl⟩

theorem places_whole_iff : Places ⟨true, true⟩ part whole ↔ part = whole := by
  constructor
  · rintro ⟨before, after, rfl, hstart, hend⟩
    rw [hstart rfl, hend rfl, List.nil_append, List.append_nil]
  · rintro rfl
    exact ⟨[], [], (List.append_nil _).symm, fun _ => rfl, fun _ => rfl⟩

/-- It is the same for texts and for their bytes. -/
theorem places_encode_iff {part whole : List Char} :
    anchors.Places (Utf8.encode part) (Utf8.encode whole) ↔ anchors.Places part whole := by
  constructor
  · rintro ⟨before, after, heq, hstart, hend⟩
    by_cases hpart : part = []
    · -- nothing stands everywhere, also between the bytes of one character
      subst hpart
      by_cases hatEnd : anchors.atEnd = true
      · refine ⟨whole, [], by rw [List.nil_append, List.append_nil], fun h => ?_, fun _ => rfl⟩
        rw [hstart h, hend hatEnd] at heq
        exact Utf8.encode_inj.mp heq
      · exact ⟨[], whole, rfl, fun _ => rfl, fun h => absurd h hatEnd⟩
    · refine ⟨_, _, Utf8.eq_of_append_encode hpart heq, fun h => ?_, fun h => ?_⟩
      · rw [hstart h]
        rfl
      · rw [hend h]
        rfl
  · rintro ⟨before, after, rfl, hstart, hend⟩
    refine ⟨Utf8.encode before, Utf8.encode after, ?_, fun h => ?_, fun h => ?_⟩
    · rw [Utf8.encode_append, Utf8.encode_append]
    · rw [hstart h]
      rfl
    · rw [hend h]
      rfl

end Anchors

/-- **Text without special characters is searched for as it stands.**  It is always read, and what
is read matches the lines that hold it, begin with it, end with it or are equal to it, byte by
byte. -/
theorem Sequence.verbatim_finds_itself (text : String) (h : Verbatim text.toList) :
    ∃ s, Sequence.read text = .ok s ∧ ∀ line : String,
      (s.matchesLine ⟨false, false⟩ line.toList = true ↔
        Utf8.encode text.toList <:+: Utf8.encode line.toList) ∧
      (s.matchesLine ⟨true, false⟩ line.toList = true ↔
        Utf8.encode text.toList <+: Utf8.encode line.toList) ∧
      (s.matchesLine ⟨false, true⟩ line.toList = true ↔
        Utf8.encode text.toList <:+ Utf8.encode line.toList) ∧
      (s.matchesLine ⟨true, true⟩ line.toList = true ↔
        Utf8.encode text.toList = Utf8.encode line.toList) := by
  refine ⟨word text.toList, read_of_verbatim h, fun line => ?_⟩
  simp only [matchesLine_word_iff, ← Anchors.places_encode_iff]
  exact ⟨Anchors.places_anywhere_iff, Anchors.places_at_start_iff, Anchors.places_at_end_iff,
    Anchors.places_whole_iff⟩

/-- The text `|)é` is at the end of the line `a|)é`, and therefore in it; it is not at the beginning. -/
theorem Sequence.verbatim_finds_itself_at_end :
    Verbatim "|)é".toList ∧ ∃ s, Sequence.read "|)é" = .ok s ∧
      s.matchesLine ⟨false, false⟩ "a|)é".toList = true ∧
      s.matchesLine ⟨false, true⟩ "a|)é".toList = true ∧
      s.matchesLine ⟨true, false⟩ "a|)é".toList = false := by
  have hverbatim : Verbatim "|)é".toList := by decide
  obtain ⟨s, hread, h⟩ := verbatim_finds_itself "|)é" hverbatim
  obtain ⟨hanywhere, hstart, hend, -⟩ := h "a|)é"
  have hsuffix : Utf8.encode "|)é".toList <:+ Utf8.encode "a|)é".toList := by decide
  have hprefix : ¬ Utf8.encode "|)é".toList <+: Utf8.encode "a|)é".toList := by decide
  refine ⟨hverbatim, s, hread, hanywhere.mpr hsuffix.isInfix, hend.mpr hsuffix, ?_⟩
  exact Bool.eq_false_iff.mpr fun hmatches => hprefix (hstart.mp hmatches)

end LineSearch
