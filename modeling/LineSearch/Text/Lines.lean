import LineSearch.Text.Utf8

/-! # Lines

A text is cut into lines at every line feed.  One carriage return at the end of a
line is dropped, and lines that are then empty are left out.  The rule is the same
for a text of bytes and a text of characters, so it is stated for any type of
symbols with two that end a line (`LineEnds`).
-/
namespace LineSearch

/-- The two symbols that end lines. -/
structure LineEnds (α : Type) where
  /-- Cuts the text. -/
  feed : α
  /-- Is dropped once at the end of a line. -/
  carriageReturn : α

/-- The ends of lines in a text of bytes. -/
def LineEnds.bytes : LineEnds UInt8 := ⟨0x0A, 0x0D⟩

/-- The ends of lines in a text of characters. -/
def LineEnds.chars : LineEnds Char := ⟨'\n', '\r'⟩

namespace LineEnds
variable {α : Type} [DecidableEq α] (ends : LineEnds α)

/-- Complete a line.  `current` holds it with the last symbol first, and `complete` the lines
before it, the last first. -/
def close (current : List α) (complete : List (List α)) : List (List α) :=
  let line :=
    match current with
    | [] => []
    | a :: before => if a = ends.carriageReturn then before else a :: before
  if line.isEmpty then complete else line.reverse :: complete

/-- Cut the rest of a text behind the line `current` and the lines `complete`. -/
def linesOnto (current : List α) (complete : List (List α)) : List α → List (List α)
  | [] => (ends.close current complete).reverse
  | a :: rest =>
    if a = ends.feed then linesOnto [] (ends.close current complete) rest
    else linesOnto (a :: current) complete rest

/-- The lines of a text, in order, without their ends. -/
def lines (text : List α) : List (List α) := ends.linesOnto [] [] text

end LineEnds

/-- The lines of a file. -/
def Bytes.lines (contents : Bytes) : List Bytes := LineEnds.bytes.lines contents

/-- One carriage return is dropped, and what is then empty is left out. -/
example : LineEnds.chars.lines ['a', '\n', '\n', 'b', '\r', '\r', '\n', '\r', '\n', 'c'] =
    [['a'], ['b', '\r'], ['c']] := by decide

end LineSearch
