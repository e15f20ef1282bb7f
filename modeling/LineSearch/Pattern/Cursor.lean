import LineSearch.Pattern.Reading

/-! # Reading from a place in a text

A `Cursor` is a text together with a byte position, where the next reading
begins.  A reading needs a position at which a character begins or the text ends;
from there it reads the rest of the text and leaves the cursor where it stopped,
after an error too, so that reading can be resumed behind the fault.
-/
namespace LineSearch

/-- What remains of a text behind its first `n` bytes, if a character begins there or the text
ends there. -/
def dropBytes : Nat → List Char → Option (List Char)
  | 0, text => some text
  | _ + 1, [] => none
  | n + 1, c :: rest => if c.utf8Size ≤ n + 1 then dropBytes (n + 1 - c.utf8Size) rest else none

/-- A text and the byte position at which reading goes on. -/
structure Cursor where
  /-- The text. -/
  text : String
  /-- The position, in bytes.  It need not lie within the text. -/
  position : Nat := 0

namespace Cursor

/-- What lies ahead of the cursor, unless its position is past the end of the text or inside a
character. -/
def ahead (cursor : Cursor) : Option (List Char) := dropBytes cursor.position cursor.text.toList

/-- Read what lies ahead: the expression or the error, and the cursor moved to where reading
stopped. -/
def read (cursor : Cursor) : Option (Except PatternError Sequence × Cursor) :=
  cursor.ahead.map fun rest =>
    let reading := Reading.startingAt cursor.position rest
    (reading.result, { cursor with position := reading.stop })

end Cursor
/-- Inside a character nothing can be read. -/
example : ({ text := "éa", position := 1 } : Cursor).ahead = none := by decide

/-- Looking for the end of a set in vain takes only its beginning. -/
example : (({ text := "a[bc" } : Cursor).read.map fun r => r.2.position) = some 2 := rfl

end LineSearch
