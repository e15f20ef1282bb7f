import LineSearch.Text.Utf8

/-! # What to search

A configuration is what a command line says: the pattern, the paths, and whether
directories are searched.
-/
namespace LineSearch

/-- What to search, and how. -/
structure Configuration where
  /-- The source text of the pattern. -/
  pattern : String
  /-- Whether directories are searched. -/
  recursive : Bool
  /-- The paths to search; standard input if there are none. -/
  paths : List Bytes
deriving DecidableEq, Repr

namespace Configuration

/-- Whether lines are printed with the path of their file: in a recursive search, and with more
than one path. -/
def labelled (c : Configuration) : Bool := c.recursive || decide (1 < c.paths.length)

end Configuration

end LineSearch
