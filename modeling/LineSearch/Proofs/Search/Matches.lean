import LineSearch.Proofs.Text.Pieces
import LineSearch.Search.Buffer

/-! # What a search prints and what it answers

A search prints the matching lines of a buffer, in order, and answers whether there are
any.  What is printed of a line is never empty, so the answer can be read off the output
(`Pattern.output_searchBuffer_ne_nil_iff`); and a line feed separates the search of what
is before it from the search of what is behind (`Pattern.searchBuffer_append_feed`).
-/
namespace LineSearch

theorem printedLine_ne_nil (label : Option String) (line : Bytes) : printedLine label line ≠ [] :=
  List.append_ne_nil_of_right_ne_nil _ (List.cons_ne_nil _ [])

namespace Pattern
variable (p : Pattern) (label : Option String)

theorem output_searchBuffer (buffer : Bytes) : (p.searchBuffer label buffer).output =
    (buffer.lines.filter p.matchesBytes).flatMap (printedLine label) := rfl

theorem matched_searchBuffer_iff {buffer : Bytes} :
    (p.searchBuffer label buffer).matched = true ↔ ∃ line ∈ buffer.lines, p.matchesBytes line := by
  show (!(buffer.lines.filter p.matchesBytes).isEmpty) = true ↔ _
  rw [Bool.not_eq_true', List.isEmpty_eq_false_iff_exists_mem]
  simp only [List.mem_filter]

/-- Something is printed iff a line matches. -/
theorem output_searchBuffer_ne_nil_iff {buffer : Bytes} :
    (p.searchBuffer label buffer).output ≠ [] ↔
      (p.searchBuffer label buffer).matched = true := by
  show (buffer.lines.filter p.matchesBytes).flatMap (printedLine label) ≠ [] ↔
    (!(buffer.lines.filter p.matchesBytes).isEmpty) = true
  cases buffer.lines.filter p.matchesBytes with
  | nil => exact iff_of_false (fun h => h rfl) Bool.false_ne_true
  | cons line more =>
    have hne := List.append_ne_nil_of_left_ne_nil (printedLine_ne_nil label line)
    rw [List.flatMap_cons]
    exact iff_of_true (hne _) rfl

/-- A line feed separates what is printed before it from what is printed behind. -/
theorem searchBuffer_append_feed (first second : Bytes) :
    p.searchBuffer label (first ++ LineEnds.bytes.feed :: second) =
      p.searchBuffer label first ++ p.searchBuffer label second := by
  have hlines : Bytes.lines (first ++ LineEnds.bytes.feed :: second) =
      first.lines ++ second.lines := LineEnds.bytes.lines_append_feed first second
  have hmatched : ∀ hits more : List Bytes,
      (!(hits ++ more).isEmpty) = (!hits.isEmpty || !more.isEmpty) := by
    intro hits more
    cases hits <;> rfl
  rw [searchBuffer, hlines, List.filter_append, List.flatMap_append, hmatched]
  rfl

end Pattern
end LineSearch
