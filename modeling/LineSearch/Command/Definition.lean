import LineSearch.Command.Parser
import LineSearch.Files.Path
import LineSearch.Search.Configuration

/-! # The command line of the program

`command` tells which arguments there are, `Configuration.ofMatches` reads from what
was said what to search.  A recursive search without paths searches the current
directory.
-/
namespace LineSearch

/-- The name of the program. -/
def programName : String := "backtrack-grep"

/-- The pattern. -/
def patternArg : Arg where
  id := "pattern"
  short := 'E'
  valueName := "PATTERN"
  help := "Pattern to search for"
  required := true
  hyphenValues := true

/-- Whether directories are searched. -/
def recursiveArg : Arg where
  id := "recursive"
  short := 'r'
  help := "Search directories recursively"
  flag := true

/-- The paths. -/
def pathsArg : Arg where
  id := "paths"
  valueName := "PATH"
  help := "Files or directories to search; standard input when absent"
  many := true
  values := .path

/-- The arguments of the program. -/
def command : Command where
  name := programName
  version := "0.1.0"
  about := "Print lines that match a restricted regular expression"
  args := [patternArg, recursiveArg, pathsArg]

namespace Configuration
variable {ε : Type} (parser : ArgumentParser ε)

/-- What was said to search. -/
def ofMatches (said : ArgMatches) : Except ε Configuration :=
  match said.getOne "pattern" with
  | none =>
    .error (parser.error command .missingRequiredArgument "Expected first argument to be '-E'")
  | some pattern =>
    let recursive := said.flag "recursive"
    let paths := (said.getMany "paths").getD []
    .ok ⟨pattern, recursive, if recursive && paths.isEmpty then [Path.dot] else paths⟩

/-- What a command line says to search, the name of the program in front. -/
def ofCommandLine (line : List Bytes) : Except ε Configuration := do
  ofMatches parser (← parser.parse command line)

end Configuration
end LineSearch
