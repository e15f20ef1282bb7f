import LineSearch.Proofs.Text.Pieces

/-! # Lines cut out of a buffer

A buffer need not be gone through symbol by symbol.  A line is the slice from where it starts
to the next feed, and the next one starts one behind that, which is one past the end of the
buffer if there is no feed (`LineEnds.cut?`).  The lines are given out one at a time; a call
goes on over those that are empty (`LineEnds.next?`).  A slice can be missing: its ends must be
in order and within the buffer (`slice?`).

No slice is missing.  Each call gives the first of the lines of the rest of the buffer and
stops where the others follow (`LineEnds.exists_next?`), so all calls together give what
`LineEnds.lines` does (`LineEnds.collect?_eq`).

How lines were put together does not show in them.  Each may end in a feed, or in a carriage
return and a feed; empty lines of both kinds may stand in front of any of them and behind
the last, whose end may be left out (`LineEnds.Written`).
-/
namespace LineSearch

/-! ### Slices -/

section Slices
variable {α : Type}

/-- The symbols from `start` up to `stop`, if these are in order and within the buffer. -/
def slice? (buffer : List α) (start stop : Nat) : Option (List α) :=
  if start ≤ stop ∧ stop ≤ buffer.length then some (buffer.extract start stop) else none

theorem slice?_append (before piece behind : List α) :
    slice? (before ++ (piece ++ behind)) before.length (before.length + piece.length) =
      some piece := by
  rw [slice?, if_pos (by simp only [List.length_append]; omega), List.extract_eq_take_drop,
    List.drop_left, Nat.add_sub_cancel_left, List.take_left]

theorem slice?_rest (before rest : List α) :
    slice? (before ++ rest) before.length (before ++ rest).length = some rest := by
  have h := slice?_append before rest []
  rwa [List.append_nil, ← List.length_append] at h

theorem le_of_slice? {buffer piece : List α} {start stop : Nat}
    (h : slice? buffer start stop = some piece) : start ≤ stop := by
  by_cases hin : start ≤ stop ∧ stop ≤ buffer.length
  · exact hin.1
  · rw [slice?, if_neg hin] at h
    cases h

end Slices

namespace LineEnds
variable {α : Type} [DecidableEq α] (ends : LineEnds α)

/-! ### One line -/

/-- A piece of the buffer without the carriage return at its end, if it has one there. -/
def trim? (piece : List α) : Option (List α) :=
  if piece.getLast? = some ends.carriageReturn then slice? piece 0 (piece.length - 1)
  else some piece

/-- The line that starts at `start`, without its end, and where the next one starts. -/
def cut? (buffer : List α) (start : Nat) : Option (List α × Nat) := do
  let rest ← slice? buffer start buffer.length
  let stop := (rest.findIdx? (· == ends.feed)).elim buffer.length (start + ·)
  let piece ← slice? buffer start stop
  let line ← ends.trim? piece
  return (line, stop + 1)

theorem trim?_eq (piece : List α) : ends.trim? piece = some (ends.stripped piece) := by
  by_cases hreturn : piece.getLast? = some ends.carriageReturn
  · obtain ⟨before, rfl⟩ := List.getLast?_eq_some_iff.mp hreturn
    have hslice := slice?_append [] before [ends.carriageReturn]
    rw [List.length_nil, Nat.zero_add, List.nil_append] at hslice
    rw [trim?, if_pos hreturn, List.length_append, List.length_singleton, Nat.add_sub_cancel,
      hslice, stripped_concat, if_pos rfl]
  · rw [trim?, stripped, if_neg hreturn, if_neg hreturn]

theorem lt_of_cut? {buffer line : List α} {start next : Nat}
    (h : ends.cut? buffer start = some (line, next)) : start < next := by
  simp only [cut?, Option.bind_eq_bind, Option.bind_eq_some_iff] at h
  obtain ⟨rest, -, piece, hpiece, line', -, heq⟩ := h
  cases heq
  exact Nat.lt_succ_of_le (le_of_slice? hpiece)

section Cut
variable {piece : List α} (hpiece : ends.feed ∉ piece)
include hpiece

theorem findIdx?_feed_eq_none : piece.findIdx? (· == ends.feed) = none := by
  rw [List.findIdx?_eq_none_iff]
  intro a ha
  exact beq_eq_false_iff_ne.mpr fun heq => hpiece (heq ▸ ha)

theorem cut?_append_feed (before behind : List α) :
    ends.cut? (before ++ (piece ++ ends.feed :: behind)) before.length =
      some (ends.stripped piece, before.length + piece.length + 1) := by
  have hfeed : (piece ++ ends.feed :: behind).findIdx? (· == ends.feed) = some piece.length := by
    rw [List.findIdx?_append, findIdx?_feed_eq_none ends hpiece, List.findIdx?_cons]
    simp only [BEq.rfl, if_true, Option.map_some, Nat.zero_add, Option.none_or]
  simp only [cut?, slice?_rest, hfeed, slice?_append, trim?_eq, Option.elim_some,
    Option.bind_eq_bind, Option.bind_some, Option.pure_def]

theorem cut?_append_last (before : List α) :
    ends.cut? (before ++ piece) before.length =
      some (ends.stripped piece, (before ++ piece).length + 1) := by
  simp only [cut?, slice?_rest, findIdx?_feed_eq_none ends hpiece, trim?_eq, Option.elim_none,
    Option.bind_eq_bind, Option.bind_some, Option.pure_def]

theorem lines_of_not_mem : ends.lines piece = [ends.stripped piece].filter (· ≠ []) := by
  rw [lines_eq_pieces, pieces, List.splitOn_eq_singleton hpiece, List.map_singleton]

end Cut

omit [DecidableEq α] in
theorem filter_ne_nil {line : List α} (h : line ≠ []) : [line].filter (· ≠ []) = [line] :=
  List.filter_cons_of_pos (decide_eq_true h)

/-- Within the buffer a line is always there; it is the first of the lines from there on, or empty. -/
theorem exists_cut? {buffer : List α} {start : Nat} (hstart : start < buffer.length) :
    ∃ line next, ends.cut? buffer start = some (line, next) ∧
      ends.lines (buffer.drop start) =
        [line].filter (· ≠ []) ++ ends.lines (buffer.drop next) := by
  have hbuffer := List.take_append_drop start buffer
  have hlength : (buffer.take start).length = start := List.length_take_of_le (Nat.le_of_lt hstart)
  generalize buffer.take start = before, buffer.drop start = rest at hbuffer hlength
  subst hbuffer hlength
  by_cases hfeed : ends.feed ∈ rest
  · obtain ⟨piece, behind, rfl, hpiece⟩ := List.eq_append_cons_of_mem hfeed
    have hdrop : (before ++ (piece ++ ends.feed :: behind)).drop
        (before.length + piece.length + 1) = behind := by
      rw [Nat.add_assoc, List.drop_length_add_append, List.drop_length_add_append,
        List.drop_succ_cons, List.drop_zero]
    refine ⟨_, _, ends.cut?_append_feed hpiece before behind, ?_⟩
    rw [hdrop, lines_append_feed, lines_of_not_mem ends hpiece]
  · refine ⟨_, _, ends.cut?_append_last hfeed before, ?_⟩
    rw [List.drop_eq_nil_of_le (Nat.le_succ _), lines_of_not_mem ends hfeed]
    exact (List.append_nil _).symm

/-! ### One call -/

/-- The first line from `start` on that is not empty, if there is one, and where the next call goes
on.  There is neither if a slice is missing. -/
def next? (buffer : List α) (start : Nat) : Option (Option (List α) × Nat) :=
  if start < buffer.length then
    match _hcut : ends.cut? buffer start with
    | none => none
    | some (line, next) => if line.isEmpty then next? buffer next else some (some line, next)
  else some (none, start)
termination_by buffer.length - start
decreasing_by
  have := ends.lt_of_cut? _hcut
  omega

theorem next?_eq_of_cut? {buffer line : List α} {start next : Nat} (hstart : start < buffer.length)
    (h : ends.cut? buffer start = some (line, next)) :
    ends.next? buffer start =
      if line.isEmpty then ends.next? buffer next else some (some line, next) := by
  rw [next?, if_pos hstart]
  split
  · next hcut => cases hcut.symm.trans h
  · next hcut =>
    cases hcut.symm.trans h
    rfl

/-- A call that gives a line goes forward. -/
theorem lt_of_next? {buffer line : List α} {start next : Nat}
    (h : ends.next? buffer start = some (some line, next)) :
    start < buffer.length ∧ start < next := by
  by_cases hin : start < buffer.length
  · obtain ⟨first, behind, hcut, -⟩ := ends.exists_cut? hin
    have hlt := ends.lt_of_cut? hcut
    rw [next?_eq_of_cut? ends hin hcut] at h
    by_cases hempty : first.isEmpty
    · rw [if_pos hempty] at h
      have := lt_of_next? h
      omega
    · rw [if_neg hempty] at h
      cases h
      exact ⟨hin, hlt⟩
  · rw [next?, if_neg hin] at h
    cases h
termination_by buffer.length - start

/-- A call misses no slice.  It gives the first of the lines from there on, and none at the end. -/
theorem exists_next? (buffer : List α) (start : Nat) :
    ∃ line next, ends.next? buffer start = some (line, next) ∧
      (line = none → buffer.length ≤ next) ∧
      ends.lines (buffer.drop start) = line.toList ++ ends.lines (buffer.drop next) := by
  by_cases hin : start < buffer.length
  · obtain ⟨line, next, hcut, hlines⟩ := ends.exists_cut? hin
    have hlt := ends.lt_of_cut? hcut
    rw [next?_eq_of_cut? ends hin hcut, hlines]
    by_cases hempty : line = []
    · subst hempty
      exact exists_next? buffer next
    · rw [if_neg (mt List.isEmpty_iff.mp hempty), filter_ne_nil hempty]
      exact ⟨some line, next, rfl, nofun, rfl⟩
  · rw [next?, if_neg hin]
    exact ⟨none, start, rfl, fun _ => Nat.not_lt.mp hin, rfl⟩
termination_by buffer.length - start

/-! ### All calls -/

/-- The lines that the calls from `start` on give, until one gives none. -/
def collect? (buffer : List α) (start : Nat) : Option (List (List α)) :=
  match _hnext : ends.next? buffer start with
  | none => none
  | some (none, _) => some []
  | some (some line, next) => (collect? buffer next).map (line :: ·)
termination_by buffer.length - start
decreasing_by
  have := ends.lt_of_next? _hnext
  omega

theorem collect?_eq_of_next? {buffer : List α} {line : Option (List α)} {start next : Nat}
    (h : ends.next? buffer start = some (line, next)) :
    ends.collect? buffer start =
      line.elim (some []) fun line => (ends.collect? buffer next).map (line :: ·) := by
  rw [collect?]
  split
  · next hnext => cases hnext.symm.trans h
  · next hnext =>
    cases hnext.symm.trans h
    rfl
  · next hnext =>
    cases hnext.symm.trans h
    rfl

/-- **The calls give the lines**, and no slice is missing. -/
theorem collect?_eq (buffer : List α) (start : Nat) :
    ends.collect? buffer start = some (ends.lines (buffer.drop start)) := by
  obtain ⟨line, next, hnext, hnone, hlines⟩ := ends.exists_next? buffer start
  rw [collect?_eq_of_next? ends hnext, hlines]
  cases line with
  | none =>
    rw [List.drop_eq_nil_of_le (hnone rfl)]
    rfl
  | some line =>
    have := ends.lt_of_next? hnext
    rw [Option.elim_some, collect?_eq buffer next]
    rfl
termination_by buffer.length - start

/-! ### Putting lines together -/

/-- What a line may end in. -/
def terminators : List (List α) := [[ends.feed], [ends.carriageReturn, ends.feed]]

/-- It can be a line: it is not empty, goes over no feed, and has no carriage return at its end. -/
structure IsLine (line : List α) : Prop where
  ne_nil : line ≠ []
  not_mem : ends.feed ∉ line
  getLast?_ne : line.getLast? ≠ some ends.carriageReturn

/-- A text is written with these lines, each with its end, and with empty ones anywhere. -/
inductive Written : List (List α) → List α → Prop
  | nil : Written [] []
  | blank {terminator lines text} : terminator ∈ ends.terminators → Written lines text →
      Written lines (terminator ++ text)
  | line {line terminator lines text} : terminator ∈ ends.terminators → Written lines text →
      Written (line :: lines) (line ++ (terminator ++ text))
  | last {line} : Written [line] line

variable {ends}

theorem stripped_of_getLast?_ne {piece : List α} (h : piece.getLast? ≠ some ends.carriageReturn) :
    ends.stripped piece = piece := if_neg h

/-- The line in front of an end is given as it is, unless it is empty. -/
theorem lines_append_terminator (hends : ends.feed ≠ ends.carriageReturn) {piece : List α}
    (hpiece : ends.feed ∉ piece) (hlast : piece.getLast? ≠ some ends.carriageReturn)
    {terminator : List α} (hterminator : terminator ∈ ends.terminators) (text : List α) :
    ends.lines (piece ++ (terminator ++ text)) = [piece].filter (· ≠ []) ++ ends.lines text := by
  simp only [terminators, List.mem_cons, List.not_mem_nil, or_false] at hterminator
  rcases hterminator with rfl | rfl
  · rw [List.singleton_append, lines_append_feed, lines_of_not_mem ends hpiece,
      stripped_of_getLast?_ne hlast]
  · have hreturn : ends.feed ∉ piece ++ [ends.carriageReturn] := by
      simp [hpiece, hends]
    rw [List.cons_append, List.singleton_append, ← List.singleton_append, ← List.append_assoc,
      lines_append_feed, lines_of_not_mem ends hreturn, stripped_concat, if_pos rfl]

/-- **The lines that a text is written with are its lines.** -/
theorem Written.lines_eq (hends : ends.feed ≠ ends.carriageReturn) {lines : List (List α)}
    {text : List α} (h : ends.Written lines text) (hlines : ∀ line ∈ lines, ends.IsLine line) :
    ends.lines text = lines := by
  induction h with
  | nil => rfl
  | @blank terminator lines text hterminator _ ih =>
    have hblank : ends.lines ([] ++ (terminator ++ text)) = [] ++ ends.lines text :=
      lines_append_terminator hends List.not_mem_nil nofun hterminator text
    exact hblank.trans (ih hlines)
  | line hterminator _ ih =>
    obtain ⟨hline, hrest⟩ := List.forall_mem_cons.mp hlines
    rw [lines_append_terminator hends hline.not_mem hline.getLast?_ne hterminator, ih hrest,
      filter_ne_nil hline.ne_nil, List.singleton_append]
  | last =>
    have hline := hlines _ (List.mem_singleton.mpr rfl)
    rw [lines_of_not_mem ends hline.not_mem, stripped_of_getLast?_ne hline.getLast?_ne,
      filter_ne_nil hline.ne_nil]

end LineEnds

/-- **The lines of a buffer are the pieces between its feeds**, each without one carriage return at
its end, except the empty ones, and no slice out of range is taken to cut them.  So a feed
separates what is in front of it from what is behind, and lines come back from any text that they
are written in. -/
theorem Bytes.lines_are_pieces :
    (∀ buffer : Bytes, LineEnds.bytes.collect? buffer 0 = some (lines buffer) ∧
      lines buffer = ((buffer.splitOn 0x0A).map fun piece =>
        if piece.getLast? = some 0x0D then piece.dropLast else piece).filter (· ≠ [])) ∧
    (∀ front behind : Bytes, lines (front ++ 0x0A :: behind) = lines front ++ lines behind) ∧
    ∀ (pieces : List Bytes) (text : Bytes), (∀ piece ∈ pieces, LineEnds.bytes.IsLine piece) →
      LineEnds.bytes.Written pieces text → lines text = pieces := by
  refine ⟨fun buffer => ⟨?_, ?_⟩, ?_, ?_⟩
  · exact LineEnds.bytes.collect?_eq buffer 0
  · exact LineEnds.bytes.lines_eq_pieces buffer
  · exact LineEnds.bytes.lines_append_feed
  · intro pieces text hpieces hwritten
    exact hwritten.lines_eq (by decide) hpieces

/-- The lines `a`, `b` and `c` with ends of both kinds, an empty line behind the first, and no end behind
the last. -/
theorem Bytes.lines_are_pieces_of_mixed_ends :
    let pieces : List Bytes := [[0x61], [0x62], [0x63]]
    let text : Bytes := [0x61, 0x0A, 0x0D, 0x0A, 0x62, 0x0D, 0x0A, 0x63]
    (∀ piece ∈ pieces, LineEnds.bytes.IsLine piece) ∧ LineEnds.bytes.Written pieces text ∧
      lines text = pieces ∧ LineEnds.bytes.collect? text 0 = some pieces := by
  intro pieces text
  have hpieces : ∀ piece ∈ pieces, LineEnds.bytes.IsLine piece := by
    simp only [pieces, List.forall_mem_cons]
    exact ⟨⟨by decide, by decide, by decide⟩, ⟨by decide, by decide, by decide⟩,
      ⟨by decide, by decide, by decide⟩, nofun⟩
  have hfeed : [0x0A] ∈ LineEnds.bytes.terminators := by decide
  have hboth : [0x0D, 0x0A] ∈ LineEnds.bytes.terminators := by decide
  have hwritten : LineEnds.bytes.Written pieces text :=
    .line hfeed (.blank hboth (.line hboth .last))
  obtain ⟨hcut, -, hback⟩ := lines_are_pieces
  have hlines := hback pieces text hpieces hwritten
  exact ⟨hpieces, hwritten, hlines, hlines ▸ (hcut text).1⟩

end LineSearch
