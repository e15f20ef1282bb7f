import Mathlib.Algebra.Order.BigOperators.Group.List
import Mathlib.Algebra.Order.Group.Nat
import LineSearch.Proofs.Search.Matches
import LineSearch.Proofs.Text.Cutting

/-! # Searching what a search has printed

Without a label a search prints lines as they were, each with a line feed behind it.  What it
prints is again a text of lines, and these are the printed ones, except that one more carriage
return is dropped at the end of each (`LineEnds.lines_flatMap_feed`).  So the same search prints
the same once more, provided that no line it prints ends in a carriage return; otherwise it
prints less (`Pattern.searchBuffer_again_iff`).

A line has lost one carriage return already when it is printed.  It ends in another one only if
the piece of the buffer that it comes from ends in two.
-/
namespace LineSearch

namespace LineEnds
variable {α : Type} [DecidableEq α] (ends : LineEnds α)

/-! ### Lines that are put together again -/

theorem feed_not_mem_of_mem_splitOn {text piece : List α} (h : piece ∈ text.splitOn ends.feed) :
    ends.feed ∉ piece := by
  by_cases hmem : ends.feed ∈ text
  · obtain ⟨first, second, rfl, hfirst⟩ := List.eq_append_cons_of_mem hmem
    have hsecond : second.length < (first ++ ends.feed :: second).length := by
      simp only [List.length_append, List.length_cons]
      omega
    rw [List.splitOn_append_cons_self_of_not_mem hfirst] at h
    rcases List.mem_cons.mp h with rfl | hrest
    · exact hfirst
    · exact feed_not_mem_of_mem_splitOn hrest
  · rw [List.splitOn_eq_singleton hmem, List.mem_singleton] at h
    exact h ▸ hmem
termination_by text.length

theorem mem_lines_iff {text line : List α} :
    line ∈ ends.lines text ↔
      (∃ piece ∈ text.splitOn ends.feed, ends.stripped piece = line) ∧ line ≠ [] := by
  rw [lines_eq_pieces, pieces, List.mem_filter, List.mem_map, decide_eq_true_iff]

theorem stripped_prefix (piece : List α) : ends.stripped piece <+: piece := by
  by_cases hlast : piece.getLast? = some ends.carriageReturn
  · rw [stripped, if_pos hlast]
    exact List.dropLast_prefix piece
  · simp only [stripped, if_neg hlast, List.prefix_rfl]

theorem length_stripped_lt {piece : List α} (h : piece.getLast? = some ends.carriageReturn) :
    (ends.stripped piece).length < piece.length := by
  obtain ⟨before, rfl⟩ := List.getLast?_eq_some_iff.mp h
  rw [stripped_concat, if_pos rfl, List.length_append]
  exact Nat.lt_succ_self _

/-- A piece that is stripped ends in a carriage return only if it ended in two. -/
theorem getLast?_stripped_ne {piece : List α}
    (h : ¬ [ends.carriageReturn, ends.carriageReturn] <:+ piece) :
    (ends.stripped piece).getLast? ≠ some ends.carriageReturn := by
  by_cases hlast : piece.getLast? = some ends.carriageReturn
  · obtain ⟨before, rfl⟩ := List.getLast?_eq_some_iff.mp hlast
    rw [stripped_concat, if_pos rfl]
    intro hbefore
    obtain ⟨front, rfl⟩ := List.getLast?_eq_some_iff.mp hbefore
    exact h ⟨front, by rw [List.append_assoc, List.singleton_append]⟩
  · rwa [stripped, if_neg hlast]

theorem feed_not_mem_of_mem_lines {text line : List α} (h : line ∈ ends.lines text) :
    ends.feed ∉ line := by
  obtain ⟨⟨piece, hpiece, rfl⟩, -⟩ := ends.mem_lines_iff.mp h
  exact fun hfeed =>
    ends.feed_not_mem_of_mem_splitOn hpiece ((ends.stripped_prefix piece).subset hfeed)

/-- Lines with a feed behind each are these lines, stripped, except the empty ones. -/
theorem lines_flatMap_feed {lines : List (List α)} (h : ∀ line ∈ lines, ends.feed ∉ line) :
    ends.lines (lines.flatMap (· ++ [ends.feed])) =
      (lines.map ends.stripped).filter (· ≠ []) := by
  induction lines with
  | nil => rfl
  | cons line rest ih =>
    obtain ⟨hline, hrest⟩ := List.forall_mem_cons.mp h
    rw [List.flatMap_cons, List.append_assoc, List.singleton_append, lines_append_feed,
      lines_of_not_mem ends hline, ih hrest, List.map_cons, ← List.filter_append,
      List.singleton_append]

end LineEnds

/-! ### The output, searched -/

namespace Pattern
variable (p : Pattern) (buffer : Bytes)

/-- The lines that are printed. -/
def hits : List Bytes := buffer.lines.filter p.matchesBytes

theorem output_searchBuffer_none : (p.searchBuffer none buffer).output =
    (p.hits buffer).flatMap (· ++ [LineEnds.bytes.feed]) := rfl

theorem lines_output_searchBuffer :
    Bytes.lines (p.searchBuffer none buffer).output =
      ((p.hits buffer).map LineEnds.bytes.stripped).filter (· ≠ []) := by
  rw [output_searchBuffer_none]
  apply LineEnds.bytes.lines_flatMap_feed
  intro line hline
  exact LineEnds.bytes.feed_not_mem_of_mem_lines (List.mem_of_mem_filter hline)

variable {p buffer}

/-- Lines without a carriage return at their ends come back. -/
theorem lines_output_of_getLast?_ne
    (h : ∀ line ∈ p.hits buffer, line.getLast? ≠ some LineEnds.bytes.carriageReturn) :
    Bytes.lines (p.searchBuffer none buffer).output = p.hits buffer := by
  have hstripped : (p.hits buffer).map LineEnds.bytes.stripped = (p.hits buffer).map id :=
    List.map_congr_left fun line hline => LineEnds.stripped_of_getLast?_ne (h line hline)
  rw [lines_output_searchBuffer, hstripped, List.map_id, List.filter_eq_self]
  intro line hline
  have hmem := LineEnds.bytes.mem_lines_iff.mp (List.mem_of_mem_filter hline)
  exact decide_eq_true hmem.2

/-- A carriage return at the end of a line is not printed the second time. -/
theorem length_output_lt_of_getLast?_eq {line : Bytes} (hline : line ∈ p.hits buffer)
    (hlast : line.getLast? = some LineEnds.bytes.carriageReturn) :
    (p.searchBuffer none (p.searchBuffer none buffer).output).output.length <
      (p.searchBuffer none buffer).output.length := by
  -- The second search prints some of the lines of the first, all of them stripped.
  have hsub : (p.hits (p.searchBuffer none buffer).output).Sublist
      ((p.hits buffer).map LineEnds.bytes.stripped) := by
    rw [hits, lines_output_searchBuffer]
    exact List.filter_sublist.trans List.filter_sublist
  rw [output_searchBuffer_none, output_searchBuffer_none p buffer, List.length_flatMap,
    List.length_flatMap]
  calc ((p.hits (p.searchBuffer none buffer).output).map fun line =>
        (line ++ [LineEnds.bytes.feed]).length).sum
      ≤ (((p.hits buffer).map LineEnds.bytes.stripped).map fun line =>
          (line ++ [LineEnds.bytes.feed]).length).sum :=
        (hsub.map _).sum_le_sum fun _ _ => Nat.zero_le _
    _ = ((p.hits buffer).map fun line =>
          (LineEnds.bytes.stripped line ++ [LineEnds.bytes.feed]).length).sum := by
        rw [List.map_map]
        rfl
    _ < ((p.hits buffer).map fun line => (line ++ [LineEnds.bytes.feed]).length).sum := by
        apply List.sum_lt_sum
        · intro line _
          have hle := (LineEnds.bytes.stripped_prefix line).length_le
          simp only [List.length_append]
          omega
        · have hlt := LineEnds.bytes.length_stripped_lt hlast
          refine ⟨line, hline, ?_⟩
          simp only [List.length_append]
          omega

/-- Searching the output again changes nothing exactly if no line that is printed ends in a carriage
return. -/
theorem searchBuffer_again_iff :
    p.searchBuffer none (p.searchBuffer none buffer).output = p.searchBuffer none buffer ↔
      ∀ line ∈ p.hits buffer, line.getLast? ≠ some LineEnds.bytes.carriageReturn := by
  constructor
  · intro hsame line hline hlast
    have hlt := length_output_lt_of_getLast?_eq hline hlast
    rw [hsame] at hlt
    exact Nat.lt_irrefl _ hlt
  · intro hlast
    have hagain : (p.hits buffer).filter p.matchesBytes = p.hits buffer := by
      rw [hits, List.filter_filter]
      simp only [Bool.and_self]
    rw [searchBuffer, lines_output_of_getLast?_ne hlast, hagain]
    rfl

/-- **Searching the output again changes nothing**, neither the output nor the answer, if no piece of
the buffer between its line feeds ends in two carriage returns.  More exactly, it changes nothing if
and only if no line that matches ends in a carriage return. -/
theorem searchBuffer_again_changes_nothing (p : Pattern) (buffer : Bytes) :
    ((∀ piece ∈ buffer.splitOn 0x0A, ¬ [0x0D, 0x0D] <:+ piece) →
      p.searchBuffer none (p.searchBuffer none buffer).output = p.searchBuffer none buffer) ∧
    (p.searchBuffer none (p.searchBuffer none buffer).output = p.searchBuffer none buffer ↔
      ∀ line ∈ buffer.lines, p.matchesLine (Utf8.decode line) = true →
        line.getLast? ≠ some 0x0D) := by
  have hmem : ∀ line, line ∈ p.hits buffer ↔
      line ∈ buffer.lines ∧ p.matchesLine (Utf8.decode line) = true :=
    fun _ => List.mem_filter
  constructor
  · intro hpieces
    apply searchBuffer_again_iff.mpr
    intro line hline
    obtain ⟨⟨piece, hpiece, rfl⟩, -⟩ := LineEnds.bytes.mem_lines_iff.mp ((hmem line).mp hline).1
    exact LineEnds.bytes.getLast?_stripped_ne (hpieces piece hpiece)
  · rw [searchBuffer_again_iff]
    simp only [hmem, and_imp]
    rfl

/-- `k` is searched in `ok`, with a carriage return, an empty line, `no`, and a last line `k` without
a line feed, behind a byte that is no character.  The carriage return in front of `k` stays. -/
theorem searchBuffer_again_changes_nothing_unterminated :
    let p : Pattern := ⟨[⟨.single (.literal 'k'), .once⟩], ⟨false, false⟩⟩
    let buffer : Bytes :=
      [0x6F, 0x6B, 0x0D, 0x0A, 0x0D, 0x0A, 0x6E, 0x6F, 0x0A, 0xFF, 0x0D, 0x6B]
    let output : Bytes := [0x6F, 0x6B, 0x0A, 0xFF, 0x0D, 0x6B, 0x0A]
    (∀ piece ∈ buffer.splitOn 0x0A, ¬ [0x0D, 0x0D] <:+ piece) ∧
      p.searchBuffer none buffer = ⟨output, true⟩ ∧ p.searchBuffer none output = ⟨output, true⟩ := by
  intro p buffer output
  have hpieces : ∀ piece ∈ buffer.splitOn 0x0A, ¬ [0x0D, 0x0D] <:+ piece := by decide
  have hfirst : p.searchBuffer none buffer = ⟨output, true⟩ := by decide
  have hagain := (searchBuffer_again_changes_nothing p buffer).1 hpieces
  rw [hfirst] at hagain
  exact ⟨hpieces, hfirst, hagain⟩

/-- Of two carriage returns at the end of a line, the second search drops the other. -/
example : let p : Pattern := ⟨[], ⟨false, false⟩⟩
    p.searchBuffer none [0x61, 0x0D, 0x0D, 0x0A] = ⟨[0x61, 0x0D, 0x0A], true⟩ ∧
      p.searchBuffer none [0x61, 0x0D, 0x0A] = ⟨[0x61, 0x0A], true⟩ := by decide

end Pattern
end LineSearch
