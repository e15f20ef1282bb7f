import LineSearch.Text.Lines

/-! # Lines as pieces of a text

`LineEnds.lines` goes through a text once and keeps the line it is in.  Here the same
lines are described without going through the text: they are the pieces between the
feeds, each without one carriage return at its end, except those that are then empty
(`LineEnds.lines_eq_pieces`).  So a feed separates completely: the lines of two texts
with a feed between them are those of the first and then those of the second.

A translation of texts that keeps the ends of lines where they are, and brings in no
others (`LineEnds.Translates`), may therefore be applied before the text is cut or to
every line behind (`LineEnds.Translates.pieces_eq`).
-/
namespace LineSearch.LineEnds

section Pieces
variable {α : Type} [DecidableEq α] (ends : LineEnds α)

/-- A piece without the carriage return at its end, if it has one there. -/
def stripped (piece : List α) : List α :=
  if piece.getLast? = some ends.carriageReturn then piece.dropLast else piece

/-- The pieces between the feeds of a text, stripped, except those that are then empty. -/
def pieces (text : List α) : List (List α) :=
  ((text.splitOn ends.feed).map ends.stripped).filter (· ≠ [])

theorem stripped_concat (piece : List α) (a : α) :
    ends.stripped (piece ++ [a]) = if a = ends.carriageReturn then piece else piece ++ [a] := by
  rw [stripped, List.getLast?_concat, List.dropLast_concat]
  simp only [Option.some.injEq]

/-- A line is completed as its text, which is held with the last symbol first, stripped. -/
theorem close_eq (current : List α) (complete : List (List α)) :
    ends.close current complete = ([ends.stripped current.reverse].filter (· ≠ [])) ++ complete := by
  cases current with
  | nil => rfl
  | cons a before =>
    have hclose : ends.close (a :: before) complete =
        if (if a = ends.carriageReturn then before else a :: before).isEmpty then complete
        else (if a = ends.carriageReturn then before else a :: before).reverse :: complete := rfl
    rw [hclose, List.reverse_cons, stripped_concat]
    by_cases hreturn : a = ends.carriageReturn
    · cases before <;> simp [hreturn]
    · simp [hreturn]

theorem linesOnto_eq (text current : List α) (complete : List (List α)) :
    ends.linesOnto current complete text = complete.reverse ++
      ((text.splitOnPPrepend (· == ends.feed) current).map ends.stripped).filter (· ≠ []) := by
  induction text generalizing current complete with
  | nil =>
    rw [linesOnto, close_eq, List.reverse_append, List.splitOnPPrepend_nil, List.map_singleton]
    cases ends.stripped current.reverse <;> simp
  | cons a rest ih =>
    rw [linesOnto, List.splitOnPPrepend_cons_eq_if]
    by_cases hfeed : a = ends.feed
    · rw [if_pos hfeed, if_pos (beq_iff_eq.mpr hfeed), ih, close_eq, List.reverse_append,
        List.append_assoc, List.splitOnPPrepend_nil_right, List.map_cons]
      cases ends.stripped current.reverse <;> simp
    · rw [if_neg hfeed, if_neg (fun h => hfeed (beq_iff_eq.mp h)), ih]

/-- **The lines of a text are the pieces between its feeds**, stripped, except the empty ones. -/
theorem lines_eq_pieces (text : List α) : ends.lines text = ends.pieces text :=
  ends.linesOnto_eq text [] []

/-- The lines of two texts with a feed between them. -/
theorem lines_append_feed (first second : List α) :
    ends.lines (first ++ ends.feed :: second) = ends.lines first ++ ends.lines second := by
  simp only [lines_eq_pieces, pieces, List.splitOn_append_cons_self, List.map_append,
    List.filter_append]

end Pieces

/-! ### Translations -/

/-- A translation of texts under which the ends of lines are where they were. -/
structure Translates {α β : Type} (ends : LineEnds α) (ends' : LineEnds β)
    (f : List α → List β) : Prop where
  /-- Nothing is translated into the empty text but the empty text. -/
  nil_iff : ∀ text, f text = [] ↔ text = []
  /-- What is before a feed and what is behind it are translated apart. -/
  feed : ∀ first second, f (first ++ ends.feed :: second) = f first ++ ends'.feed :: f second
  /-- No feed comes in. -/
  mem_feed_iff : ∀ text, ends'.feed ∈ f text ↔ ends.feed ∈ text
  /-- A carriage return at the end is translated apart from what is before it. -/
  carriageReturn : ∀ text, f (text ++ [ends.carriageReturn]) = f text ++ [ends'.carriageReturn]
  /-- No carriage return comes in at the end. -/
  getLast?_iff : ∀ text,
    (f text).getLast? = some ends'.carriageReturn ↔ text.getLast? = some ends.carriageReturn

namespace Translates
variable {α β : Type} [DecidableEq α] [DecidableEq β] {ends : LineEnds α} {ends' : LineEnds β}
  {f : List α → List β} (h : Translates ends ends' f)
include h

theorem splitOn_eq (text : List α) :
    (f text).splitOn ends'.feed = (text.splitOn ends.feed).map f := by
  by_cases hmem : ends.feed ∈ text
  · obtain ⟨first, second, heq⟩ := List.append_of_mem hmem
    have hfirst : first.length < text.length := by simp [heq]
    have hsecond : second.length < text.length := by simp [heq]; omega
    rw [heq, h.feed, List.splitOn_append_cons_self, List.splitOn_append_cons_self,
      splitOn_eq first, splitOn_eq second, List.map_append]
  · rw [List.splitOn_eq_singleton (fun hfeed => hmem ((h.mem_feed_iff text).mp hfeed)),
      List.splitOn_eq_singleton hmem]
    rfl
termination_by text.length

theorem stripped_eq (piece : List α) : ends'.stripped (f piece) = f (ends.stripped piece) := by
  by_cases hlast : piece.getLast? = some ends.carriageReturn
  · obtain ⟨before, rfl⟩ := List.getLast?_eq_some_iff.mp hlast
    rw [h.carriageReturn, stripped_concat, stripped_concat, if_pos rfl, if_pos rfl]
  · rw [stripped, stripped, if_neg hlast, if_neg (fun hf => hlast ((h.getLast?_iff piece).mp hf))]

/-- A text may be translated before it is cut, or its lines behind. -/
theorem pieces_eq (text : List α) : ends'.pieces (f text) = (ends.pieces text).map f := by
  have hnonempty : ((fun line => decide (line ≠ [])) ∘ f) = fun line => decide (line ≠ []) := by
    funext line
    exact decide_eq_decide.mpr (not_congr (h.nil_iff line))
  have hstripped : ends'.stripped ∘ f = f ∘ ends.stripped := funext h.stripped_eq
  rw [pieces, pieces, h.splitOn_eq, List.map_map, hstripped, ← List.map_map, List.filter_map,
    hnonempty]

end Translates
end LineSearch.LineEnds
