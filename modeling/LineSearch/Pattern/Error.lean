/-! # Malformed patterns

A text fails to be a pattern for one of four reasons.  Each names the place where
the construct that failed begins, counted in UTF-8 bytes from the start of the
text that was read.
-/
namespace LineSearch

/-- Why a text is no pattern. -/
inductive PatternError
  /-- The `[` at `offset` has no `]` behind it. -/
  | unclosedSet (offset : Nat)
  /-- The `(` at `offset` has no matching `)`. -/
  | unclosedGroup (offset : Nat)
  /-- The backslash at `offset` stands before `c`, which names no class. -/
  | unsupportedEscape (offset : Nat) (c : Char)
  /-- The backslash at `offset` is the last character. -/
  | danglingEscape (offset : Nat)
deriving DecidableEq, Repr

namespace PatternError

/-- Where the construct that failed begins. -/
def offset : PatternError → Nat
  | unclosedSet n => n
  | unclosedGroup n => n
  | unsupportedEscape n _ => n
  | danglingEscape n => n

/-- The error in words.  The character of an escape is shown as it is. -/
def message : PatternError → String
  | unclosedSet n => "unterminated character class at offset " ++ toString n ++ ": missing ']'"
  | unclosedGroup n => "unterminated group at offset " ++ toString n ++ ": missing ')'"
  | unsupportedEscape n c =>
    "unsupported escape sequence '\\" ++ c.toString ++ "' at offset " ++ toString n
  | danglingEscape n => "pattern ends with a lone '\\' at offset " ++ toString n

end PatternError
end LineSearch
