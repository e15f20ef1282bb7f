import LineSearch.Pattern.Matching
import LineSearch.Pattern.Reading

/-! # Patterns

A pattern is an expression with anchors.  In its source text a `^` in front and a
`$` at the end are the anchors; what stands between them is the body, and places
in errors are counted in the body.

A line matches if the sequence matches from one of the admissible starts: from the
beginning of the line only if the pattern is anchored there, else from any place,
its end included.  The anchor at the end asks that the match from that start, the
first one in the order of `Sequence.matchAt`, consumes the rest of the line.
-/
namespace LineSearch

/-- At which ends of the line a match is held. -/
structure Anchors where
  /-- A match begins at the beginning of the line. -/
  atStart : Bool
  /-- A match ends at the end of the line. -/
  atEnd : Bool
deriving DecidableEq, Repr

/-- Take a leading `^` off a text. -/
def takeStartAnchor : List Char → Bool × List Char
  | '^' :: rest => (true, rest)
  | text => (false, text)

/-- Take a trailing `$` off a text. -/
def takeEndAnchor (text : List Char) : Bool × List Char :=
  if text.getLast? = some '$' then (true, text.dropLast) else (false, text)

/-- The anchors of a pattern's source, and its body.  The leading anchor is taken off first. -/
def splitAnchors (source : List Char) : Anchors × List Char :=
  let (atStart, rest) := takeStartAnchor source
  let (atEnd, body) := takeEndAnchor rest
  (⟨atStart, atEnd⟩, body)

/-- Whether a line matches a sequence under the given anchors. -/
def Sequence.matchesLine (s : Sequence) (anchors : Anchors) (line : List Char) : Bool :=
  let input := line.toArray
  let starts := if anchors.atStart then [0] else List.range (input.size + 1)
  starts.any fun start =>
    match Sequence.matchAt input s start with
    | some stop => !anchors.atEnd || stop == input.size
    | none => false

/-- A compiled pattern. -/
structure Pattern where
  /-- What is matched. -/
  body : Sequence
  /-- Where it is held. -/
  anchors : Anchors
deriving DecidableEq

namespace Pattern

/-- Compile a pattern from its source text. -/
def compile (source : String) : Except PatternError Pattern :=
  let (anchors, body) := splitAnchors source.toList
  (Reading.startingAt 0 body).result.map fun sequence => ⟨sequence, anchors⟩

/-- Whether a line matches. -/
def matchesLine (p : Pattern) (line : List Char) : Bool := p.body.matchesLine p.anchors line

end Pattern

/-- A leading `^` is taken off before a trailing `$` is looked for. -/
example : splitAnchors ['^', '$'] = (⟨true, true⟩, []) ∧ splitAnchors ['$'] = (⟨false, true⟩, []) := by
  decide

end LineSearch
