import LineSearch.Command.Definition
import LineSearch.Search.Run

/-! # Exit status and output of the program

The program prints the lines that match and tells by its exit status how the
search went: 0 if a line matched, 1 if none did, 2 if the pattern is malformed or
an input cannot be searched.  A wrong command line ends it with status 1, a request
for help or the version with status 0.

`Job.ofCommandLine` decides all that can be decided without reading anything, so a
wrong command line or a malformed pattern is reported whatever the inputs are.
-/
namespace LineSearch

/-- How the program ends. -/
structure Outcome where
  /-- The exit status. -/
  status : Nat
  /-- What it writes to standard output. -/
  output : Bytes
  /-- What it writes to standard error. -/
  errors : String
deriving DecidableEq, Repr

/-- Whether an error is an answer to a question. -/
def ErrorKind.isAnswer (kind : ErrorKind) : Bool := kind = .displayHelp || kind = .displayVersion

namespace Outcome

/-- The command line is refused.  Help and version are answers, all else an error. -/
def refused {ε : Type} (parser : ArgumentParser ε) (error : ε) : Outcome :=
  if (parser.kind error).isAnswer then ⟨0, Utf8.encode (parser.text error).toList, ""⟩
  else ⟨1, [], parser.text error⟩

/-- The program fails for the reason given in words, behind some output. -/
def failed (output : Bytes) (reason : String) : Outcome :=
  ⟨2, output, programName ++ ": " ++ reason ++ "\n"⟩

/-- The search has ended. -/
def ofSearch (search : SearchResult) : Outcome :=
  match search.result with
  | .ok true => ⟨0, search.output, ""⟩
  | .ok false => ⟨1, search.output, ""⟩
  | .error error => failed search.output error.message

end Outcome

/-- A search that can be begun. -/
structure Job where
  /-- What is searched. -/
  configuration : Configuration
  /-- What is searched for. -/
  pattern : Pattern

namespace Job

/-- The search that a command line asks for, or how the program ends without one. -/
def ofCommandLine {ε : Type} (parser : ArgumentParser ε) (line : List Bytes) :
    Except Outcome Job :=
  match Configuration.ofCommandLine parser line with
  | .error error => .error (.refused parser error)
  | .ok configuration =>
    match Pattern.compile configuration.pattern with
    | .error error =>
      .error (.failed [] ("invalid pattern '" ++ configuration.pattern ++ "': " ++ error.message))
    | .ok pattern => .ok ⟨configuration, pattern⟩

/-- Do the search. -/
def run (job : Job) (inputs : Inputs) : Outcome :=
  .ofSearch (job.pattern.search job.configuration inputs)

end Job

/-- How the program ends, given its command line and its inputs. -/
def Outcome.ofProgram {ε : Type} (parser : ArgumentParser ε) (line : List Bytes) (inputs : Inputs) :
    Outcome :=
  match Job.ofCommandLine parser line with
  | .error outcome => outcome
  | .ok job => job.run inputs

end LineSearch
