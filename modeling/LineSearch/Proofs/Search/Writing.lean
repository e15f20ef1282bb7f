import LineSearch.Proofs.Search.Matches
import LineSearch.Proofs.Text.Cutting
import LineSearch.Proofs.Text.Substrings

/-! # Writing while searching

`Pattern.searchBuffer` joins what is printed of all lines that match.  A search can also write
as it goes: it asks for one line after the other, passes over those that do not match, writes
each of the others in several parts and keeps in mind that there was one
(`Pattern.searchOnto?`).  It comes to the same.

What is written to, a `Sink`, has a state of its own and may fail.  All that is asked of it is
that it keeps what it is given behind what it has (`Sink.Keeps`).  What an action adds then adds
up part by part (`Sink.Adds.andThen`), so a line adds what is printed of it; and one call for a
line takes the first line from the rest of the buffer and leaves the others
(`LineEnds.exists_next?`), so all calls from a position on add what a search prints of the buffer
from there on.
-/
namespace LineSearch

theorem printedLine_none (line : Bytes) : printedLine none line = line ++ [LineEnds.bytes.feed] := rfl

theorem printedLine_some (name : String) (line : Bytes) : printedLine (some name) line =
    (Utf8.encode name.toList ++ Utf8.encode [':']) ++ (line ++ [LineEnds.bytes.feed]) := by
  rw [← Utf8.encode_append, ← List.append_assoc]
  rfl

theorem Printed.empty_append (printed : Printed) : .empty ++ printed = printed := rfl

/-! ### What can be written to -/

/-- Something that can be written to, with states in `σ` and failures in `ε`. -/
structure Sink (σ ε : Type) where
  /-- Write some bytes. -/
  write : Bytes → σ → Except ε σ
  /-- All that has been written. -/
  contents : σ → Bytes

namespace Sink
variable {σ ε : Type} (sink : Sink σ ε)

/-- The action does not fail, and puts these bytes behind what has been written. -/
def Adds (action : σ → Except ε σ) (bytes : Bytes) : Prop :=
  ∀ s, ∃ s', action s = .ok s' ∧ sink.contents s' = sink.contents s ++ bytes

/-- Writing does not fail, and all that is written is kept, in order. -/
def Keeps : Prop := ∀ bytes, sink.Adds (sink.write bytes) bytes

/-- Write the label, if there is one, and a colon. -/
def writeLabel : Option String → σ → Except ε σ
  | none, s => .ok s
  | some name, s => do
    let s ← sink.write (Utf8.encode name.toList) s
    sink.write (Utf8.encode [':']) s

/-- Write a line with its label, in parts. -/
def writeLine (label : Option String) (line : Bytes) (s : σ) : Except ε σ := do
  let s ← sink.writeLabel label s
  let s ← sink.write line s
  sink.write [LineEnds.bytes.feed] s

variable {sink}

theorem Adds.andThen {first second : σ → Except ε σ} {bytes more : Bytes}
    (hfirst : sink.Adds first bytes) (hsecond : sink.Adds second more) :
    sink.Adds (fun s => first s >>= second) (bytes ++ more) := by
  intro s
  obtain ⟨s', hs', hcontents'⟩ := hfirst s
  obtain ⟨s'', hs'', hcontents''⟩ := hsecond s'
  refine ⟨s'', ?_, ?_⟩
  · simp only [hs']
    exact hs''
  · rw [hcontents'', hcontents', List.append_assoc]

/-- The parts of a line are what is printed of it. -/
theorem Keeps.adds_writeLine (hkeeps : sink.Keeps) (label : Option String) (line : Bytes) :
    sink.Adds (sink.writeLine label line) (printedLine label line) := by
  have hline : sink.Adds (fun s => sink.write line s >>= sink.write [LineEnds.bytes.feed])
      (line ++ [LineEnds.bytes.feed]) := (hkeeps line).andThen (hkeeps _)
  cases label with
  | none =>
    rw [printedLine_none]
    exact hline
  | some name =>
    have hlabel : sink.Adds (sink.writeLabel (some name))
        (Utf8.encode name.toList ++ Utf8.encode [':']) := (hkeeps _).andThen (hkeeps _)
    rw [printedLine_some]
    exact hlabel.andThen hline

end Sink

/-! ### Searching line by line -/

namespace Pattern
variable {σ ε : Type} (p : Pattern) (sink : Sink σ ε) (label : Option String) (buffer : Bytes)

/-- Write the lines from `start` on that match.  `matched` tells whether a line before has matched.
It ends without a result if a slice of the buffer is missing. -/
def searchOnto? (start : Nat) (matched : Bool) (s : σ) : Option (Except ε (Bool × σ)) :=
  match _hnext : LineEnds.bytes.next? buffer start with
  | none => none
  | some (none, _) => some (.ok (matched, s))
  | some (some line, next) =>
    if p.matchesBytes line then
      match sink.writeLine label line s with
      | .error failure => some (.error failure)
      | .ok s' => searchOnto? next true s'
    else searchOnto? next matched s
termination_by buffer.length - start
decreasing_by all_goals
  have := LineEnds.bytes.lt_of_next? _hnext
  omega

variable {sink label buffer}

theorem searchOnto?_of_end {start next : Nat}
    (h : LineEnds.bytes.next? buffer start = some (none, next)) (matched : Bool) (s : σ) :
    p.searchOnto? sink label buffer start matched s = some (.ok (matched, s)) := by
  rw [searchOnto?]
  split
  · next hnext => cases hnext.symm.trans h
  · rfl
  · next hnext => cases hnext.symm.trans h

theorem searchOnto?_of_line {line : Bytes} {start next : Nat}
    (h : LineEnds.bytes.next? buffer start = some (some line, next)) (matched : Bool) (s : σ) :
    p.searchOnto? sink label buffer start matched s =
      if p.matchesBytes line then
        match sink.writeLine label line s with
        | .error failure => some (.error failure)
        | .ok s' => p.searchOnto? sink label buffer next true s'
      else p.searchOnto? sink label buffer next matched s := by
  rw [searchOnto?]
  split
  · next hnext => cases hnext.symm.trans h
  · next hnext => cases hnext.symm.trans h
  · next hnext =>
    cases hnext.symm.trans h
    rfl

theorem searchBuffer_of_lines_nil (h : buffer.lines = []) :
    p.searchBuffer label buffer = .empty := by
  rw [searchBuffer, h]
  rfl

theorem searchBuffer_of_lines_cons {line rest : Bytes} (h : buffer.lines = line :: rest.lines) :
    p.searchBuffer label buffer =
      (if p.matchesBytes line then ⟨printedLine label line, true⟩ else .empty) ++
        p.searchBuffer label rest := by
  rw [searchBuffer, h]
  by_cases hmatch : p.matchesBytes line
  · rw [List.filter_cons_of_pos hmatch, if_pos hmatch]
    rfl
  · rw [List.filter_cons_of_neg hmatch, if_neg hmatch]
    rfl

/-- From any position on, what is written is what a search prints from there on. -/
theorem exists_searchOnto? (hkeeps : sink.Keeps) (start : Nat) (matched : Bool) (s : σ) :
    ∃ s', p.searchOnto? sink label buffer start matched s =
        some (.ok (matched || (p.searchBuffer label (buffer.drop start)).matched, s')) ∧
      sink.contents s' =
        sink.contents s ++ (p.searchBuffer label (buffer.drop start)).output := by
  obtain ⟨line, next, hnext, hnone, hlines⟩ := LineEnds.bytes.exists_next? buffer start
  cases line with
  | none =>
    have hend : buffer.drop next = [] := List.drop_eq_nil_of_le (hnone rfl)
    have hempty : Bytes.lines (buffer.drop start) = [] := by
      rw [Bytes.lines, hlines, hend]
      rfl
    rw [searchOnto?_of_end p hnext, searchBuffer_of_lines_nil p hempty]
    exact ⟨s, by rw [Printed.empty, Bool.or_false], (List.append_nil _).symm⟩
  | some line =>
    have := LineEnds.bytes.lt_of_next? hnext
    rw [searchOnto?_of_line p hnext, searchBuffer_of_lines_cons p hlines]
    by_cases hmatch : p.matchesBytes line
    · -- The rest is searched with what this line leaves: a match, and the sink behind it.
      obtain ⟨written, hwritten, hline⟩ := hkeeps.adds_writeLine label line s
      obtain ⟨s', hs', hrest⟩ := exists_searchOnto? hkeeps next true written
      rw [if_pos hmatch, if_pos hmatch, hwritten]
      refine ⟨s', hs'.trans ?_, ?_⟩
      · rw [Printed.matched_append, Bool.true_or, Bool.or_true]
      · rw [hrest, hline, Printed.output_append, List.append_assoc]
    · rw [if_neg hmatch, if_neg hmatch, Printed.empty_append]
      exact exists_searchOnto? hkeeps next matched s
termination_by buffer.length - start

/-- **A search writes the lines that match, and answers whether it wrote anything.**  The output is
put together of the lines whose characters match, in order, each with the label and a colon in
front, if there is a label, and a line feed behind; the answer is yes exactly if there is any
output.  A line feed in the buffer separates the outputs, and the answers are joined.  A search that
writes as it goes, to whatever keeps what it is given, writes this and answers this. -/
theorem searchBuffer_writes_matches (p : Pattern) (label : Option String) :
    (∀ buffer : Bytes,
      (p.searchBuffer label buffer).output =
        ((buffer.lines.filter fun line => p.matchesLine (Utf8.decode line)).map fun line =>
          (label.elim [] fun name => Utf8.encode name.toList ++ [0x3A]) ++ line ++ [0x0A]).flatten ∧
      ((p.searchBuffer label buffer).matched = true ↔
        (p.searchBuffer label buffer).output ≠ [])) ∧
    (∀ first second : Bytes,
      (p.searchBuffer label (first ++ 0x0A :: second)).output =
        (p.searchBuffer label first).output ++ (p.searchBuffer label second).output ∧
      (p.searchBuffer label (first ++ 0x0A :: second)).matched =
        ((p.searchBuffer label first).matched || (p.searchBuffer label second).matched)) ∧
    ∀ (σ ε : Type) (sink : Sink σ ε), sink.Keeps → ∀ (buffer : Bytes) (s : σ),
      ∃ s', p.searchOnto? sink label buffer 0 false s =
          some (.ok ((p.searchBuffer label buffer).matched, s')) ∧
        sink.contents s' = sink.contents s ++ (p.searchBuffer label buffer).output := by
  refine ⟨fun buffer => ⟨?output, (p.output_searchBuffer_ne_nil_iff label).symm⟩, ?feed, ?written⟩
  case output =>
    have hline : printedLine label = fun line =>
        (label.elim [] fun name => Utf8.encode name.toList ++ [0x3A]) ++ line ++ [0x0A] := by
      funext line
      cases label with
      | none => rfl
      | some name =>
        rw [printedLine_some, ← List.append_assoc]
        rfl
    rw [output_searchBuffer, List.flatMap_def, hline]
    rfl
  case feed =>
    intro first second
    have hfeed := p.searchBuffer_append_feed label first second
    exact ⟨congrArg Printed.output hfeed, congrArg Printed.matched hfeed⟩
  case written =>
    intro σ ε sink hkeeps buffer s
    exact p.exists_searchOnto? hkeeps 0 false s

/-- `\d` is searched in `a1`, with a carriage return, an empty line, `b`, and a last line that begins with
a byte that is no character.  What is written to holds `>` already and counts how often it is written
to. -/
theorem searchBuffer_writes_matches_counted :
    let p : Pattern := ⟨[⟨.single .digit, .once⟩], ⟨false, false⟩⟩
    let sink : Sink (Bytes × Nat) String :=
      ⟨fun bytes s => .ok (s.1 ++ bytes, s.2 + 1), fun s => s.1⟩
    let buffer : Bytes := [0x61, 0x31, 0x0D, 0x0A, 0x0A, 0x62, 0x0A, 0xFF, 0x32]
    let output : Bytes := [0x66, 0x3A, 0x61, 0x31, 0x0A, 0x66, 0x3A, 0xFF, 0x32, 0x0A]
    sink.Keeps ∧ p.searchBuffer (some "f") buffer = ⟨output, true⟩ ∧
      ∃ s', p.searchOnto? sink (some "f") buffer 0 false ([0x3E], 0) = some (.ok (true, s')) ∧
        s'.1 = [0x3E] ++ output := by
  intro p sink buffer output
  have hkeeps : sink.Keeps := fun bytes s => ⟨_, rfl, rfl⟩
  have hprinted : p.searchBuffer (some "f") buffer = ⟨output, true⟩ := by decide
  have hwritten := (searchBuffer_writes_matches p (some "f")).2.2 _ _ sink hkeeps buffer ([0x3E], 0)
  rw [hprinted] at hwritten
  exact ⟨hkeeps, hprinted, hwritten⟩

end Pattern
end LineSearch
