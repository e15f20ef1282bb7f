import LineSearch.Pattern
import LineSearch.Text.Lines

/-! # Searching one buffer

Every line that matches is printed as it stands, with a line feed behind it and,
if the buffer is labelled, with the label and a colon in front.  Lines are matched
as the characters that `Utf8.decode` reads in them; what is printed are the bytes
of the line.
-/
namespace LineSearch

/-- What a search has printed and whether any line matched. -/
structure Printed where
  /-- The bytes written. -/
  output : Bytes
  /-- Whether a line matched. -/
  matched : Bool
deriving DecidableEq, Repr

namespace Printed

/-- Nothing printed, nothing matched. -/
def empty : Printed := ⟨[], false⟩

/-- One search behind another. -/
def append (first second : Printed) : Printed :=
  ⟨first.output ++ second.output, first.matched || second.matched⟩

instance : Append Printed := ⟨append⟩

@[simp] theorem output_append (first second : Printed) :
    (first ++ second).output = first.output ++ second.output := rfl

@[simp] theorem matched_append (first second : Printed) :
    (first ++ second).matched = (first.matched || second.matched) := rfl

end Printed

/-- How a line is printed. -/
def printedLine (label : Option String) (line : Bytes) : Bytes :=
  (match label with
    | some name => Utf8.encode (name.toList ++ [':'])
    | none => []) ++ line ++ [LineEnds.bytes.feed]

namespace Pattern

/-- Whether the characters of a line of bytes match. -/
def matchesBytes (p : Pattern) (line : Bytes) : Bool := p.matchesLine (Utf8.decode line)

/-- Print the lines of a buffer that match. -/
def searchBuffer (p : Pattern) (label : Option String) (buffer : Bytes) : Printed :=
  let hits := buffer.lines.filter p.matchesBytes
  ⟨hits.flatMap (printedLine label), !hits.isEmpty⟩

end Pattern
end LineSearch
