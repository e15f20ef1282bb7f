import LineSearch.Search.Buffer
import LineSearch.Search.Configuration
import LineSearch.Search.Inputs

/-! # Searching all inputs

A search takes the paths of its configuration in order, and the files that each of
them names in order, and prints what it finds in one after the other.  Without
paths it searches standard input.  The first path at which the files cannot be
named and the first file that cannot be read end the search; what was printed
before stays printed.
-/
namespace LineSearch

/-- What a search has printed, and whether a line matched or why it broke off. -/
structure SearchResult where
  /-- The bytes written. -/
  output : Bytes
  /-- Whether a line matched, unless the search broke off. -/
  result : Except SearchError Bool

namespace SearchResult

/-- A search that has printed something and has come to its end. -/
def ofPrinted (printed : Printed) : SearchResult := ⟨printed.output, .ok printed.matched⟩

/-- A search that breaks off before it prints anything. -/
def failed (error : SearchError) : SearchResult := ⟨[], .error error⟩

/-- A search and another one behind it, which is not begun if the first breaks off. -/
def andThen (first second : SearchResult) : SearchResult :=
  match first.result with
  | .error _ => first
  | .ok matched => ⟨first.output ++ second.output, second.result.map (matched || ·)⟩

end SearchResult

/-- The label of the lines of a file. -/
def labelOf (labelled : Bool) (path : Bytes) : Option String :=
  if labelled then some (Path.shown path) else none

namespace Pattern

/-- Search the file with this path, which is the label or not. -/
def searchFile (p : Pattern) (inputs : Inputs) (labelled : Bool) (path : Bytes) : SearchResult :=
  match inputs.readFile path with
  | .error error => .failed error
  | .ok contents => .ofPrinted (p.searchBuffer (labelOf labelled path) contents)

/-- Search files one after the other. -/
def searchFiles (p : Pattern) (inputs : Inputs) (labelled : Bool) (files : List Bytes) :
    SearchResult :=
  files.foldr (fun file more => (p.searchFile inputs labelled file).andThen more)
    (.ofPrinted .empty)

/-- Search the files that paths name, one path after the other. -/
def searchPaths (p : Pattern) (inputs : Inputs) (recursive labelled : Bool) :
    List Bytes → SearchResult
  | [] => .ofPrinted .empty
  | path :: rest =>
    match inputs.filesNamed recursive path with
    | .error error => .failed error
    | .ok files =>
      (p.searchFiles inputs labelled files).andThen (p.searchPaths inputs recursive labelled rest)

/-- Search what the configuration names. -/
def search (p : Pattern) (configuration : Configuration) (inputs : Inputs) : SearchResult :=
  if configuration.paths.isEmpty then
    match inputs.standardInput with
    | .error cause => .failed (.standardInput cause)
    | .ok contents => .ofPrinted (p.searchBuffer none contents)
  else
    p.searchPaths inputs configuration.recursive configuration.labelled configuration.paths

end Pattern
end LineSearch
