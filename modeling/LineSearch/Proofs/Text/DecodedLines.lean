import LineSearch.Proofs.Text.Substrings
import LineSearch.Proofs.Text.Pieces
import LineSearch.Proofs.Search.Matches

/-! # Lines before and behind decoding

A search cuts the bytes of a buffer into lines and decodes each line, perhaps in the
midst of a character that is not complete.  The characters are those of the decoded
buffer all the same, cut at its own line feeds (`Bytes.lines_decode`).

The reason is that both ends of lines are ASCII.  Decoding keeps such bytes where they
are and brings no such character in (`Utf8.decode_translates`); encoding does neither.

So what is printed of a text in UTF-8 is what matches among its lines, and what matches
is decided line by line.
-/
namespace LineSearch

theorem Utf8.decode_translates : LineEnds.bytes.Translates LineEnds.chars Utf8.decode where
  nil_iff _ := decode_eq_nil_iff
  feed := decode_append_ascii (d := '\n') (by decide)
  mem_feed_iff _ := mem_decode_iff (d := '\n') (by decide)
  carriageReturn text := decode_append_ascii (d := '\r') (by decide) text []
  getLast?_iff _ := getLast?_decode_iff (d := '\r') (by decide)

theorem Utf8.encode_translates : LineEnds.chars.Translates LineEnds.bytes Utf8.encode where
  nil_iff text := by rw [← decode_eq_nil_iff, decode_encode]
  feed first second := encode_append first ('\n' :: second)
  mem_feed_iff text := by
    rw [← decode_translates.mem_feed_iff, decode_encode]
  carriageReturn text := encode_append text ['\r']
  getLast?_iff text := by
    rw [← decode_translates.getLast?_iff, decode_encode]

/-- A buffer may be decoded before it is cut, or its lines behind. -/
theorem Bytes.map_decode_lines (buffer : Bytes) :
    buffer.lines.map Utf8.decode = LineEnds.chars.pieces (Utf8.decode buffer) := by
  rw [lines, LineEnds.lines_eq_pieces, Utf8.decode_translates.pieces_eq]

/-- The lines of a text in UTF-8 are its lines, encoded. -/
theorem Bytes.lines_encode (text : List Char) :
    Bytes.lines (Utf8.encode text) = (LineEnds.chars.pieces text).map Utf8.encode := by
  rw [lines, LineEnds.lines_eq_pieces, Utf8.encode_translates.pieces_eq]

/-! ### Searching a buffer -/

namespace Pattern
variable (p : Pattern) (label : Option String)

/-- What is printed in front of a matching line. -/
def labelText (label : Option String) : List Char :=
  label.elim [] fun name => name.toList ++ [':']

theorem printedLine_encode (line : List Char) :
    printedLine label (Utf8.encode line) = Utf8.encode (labelText label ++ line ++ ['\n']) := by
  rw [Utf8.encode_append, Utf8.encode_append]
  cases label <;> rfl

theorem output_searchBuffer_encode (text : List Char) :
    (p.searchBuffer label (Utf8.encode text)).output =
      Utf8.encode (((LineEnds.chars.pieces text).filter p.matchesLine).flatMap fun line =>
        labelText label ++ line ++ ['\n']) := by
  have hmatches : p.matchesBytes ∘ Utf8.encode = p.matchesLine := by
    funext line
    rw [Function.comp_apply, matchesBytes, Utf8.decode_encode]
  rw [output_searchBuffer, Bytes.lines_encode, List.filter_map, List.flatMap_map, hmatches,
    Utf8.encode, List.flatMap_assoc]
  exact congrArg (List.flatMap · _) (funext (printedLine_encode label))

end Pattern

/-- **Cutting into lines and decoding commute.**  Bytes are decoded by the rule that replaces each
longest part that begins a character and each byte that begins none.  The lines of a buffer, each
decoded, are the pieces of the decoded buffer between its line feeds, stripped, except the empty
ones.  So a search of a text in UTF-8 prints the matching ones of these pieces, in UTF-8; and what it
prints of some lines does not depend on the bytes before and behind. -/
theorem Bytes.lines_decode :
    (∀ bytes text, Utf8.decode bytes = text ↔ Utf8.Decodes bytes text) ∧
    (∀ buffer : Bytes,
      buffer.lines.map Utf8.decode = LineEnds.chars.pieces (Utf8.decode buffer)) ∧
    (∀ (p : Pattern) (label : Option String) (text : List Char),
      (p.searchBuffer label (Utf8.encode text)).output =
        Utf8.encode (((LineEnds.chars.pieces text).filter p.matchesLine).flatMap fun line =>
          Pattern.labelText label ++ line ++ ['\n'])) ∧
    ∀ (p : Pattern) (label : Option String) (before lines behind : Bytes),
      p.searchBuffer label (before ++ 0x0A :: (lines ++ 0x0A :: behind)) =
        p.searchBuffer label before ++ (p.searchBuffer label lines ++ p.searchBuffer label behind) := by
  refine ⟨fun _ _ => Utf8.decode_eq_iff, map_decode_lines,
    fun p label text => p.output_searchBuffer_encode label text, ?_⟩
  intro p label before lines behind
  have hbefore := p.searchBuffer_append_feed label before (lines ++ 0x0A :: behind)
  have hlines := p.searchBuffer_append_feed label lines behind
  rw [← hlines]
  exact hbefore

/-- A character cut off by the end of its line is replaced, and the line feed stays. -/
example : (Bytes.lines [0x61, 0xE2, 0x82, 0x0D, 0x0A, 0x0A, 0xAC, 0x62]).map Utf8.decode =
    [['a', Utf8.replacement], [Utf8.replacement, 'b']] := by decide

end LineSearch
