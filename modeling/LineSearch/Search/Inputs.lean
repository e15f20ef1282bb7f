import LineSearch.Files.Lookup
import LineSearch.Files.Walk

/-! # The files a path names

A path names the file that it leads to, or, in a recursive search, all files on a
walk through the directory it leads to.  A link in the path itself is followed.
Outside a recursive search a directory is an error.

Whatever a walk comes to is read by its own path, the path of the directory where the
walk began joined with names.  So reading may fail deep inside: because something
there is locked, or because the joined path is too long.  A directory that cannot be
read is an error before any file is searched, a file when its turn comes.
-/
namespace LineSearch

/-- What can be read. -/
structure Inputs where
  /-- What a path leads to. -/
  look : Bytes → Except AccessError Found
  /-- Why the directory that a path leads to cannot be read, if it cannot. -/
  hindrance : Bytes → Option AccessError
  /-- The contents of the file that a path leads to. -/
  read : Bytes → Except AccessError Bytes
  /-- Standard input. -/
  standardInput : Except AccessError Bytes

/-- What can be read in a file system. -/
def FileSystem.inputs (fs : FileSystem) (standardInput : Except AccessError Bytes) : Inputs where
  look := fs.look
  hindrance path :=
    match fs.list path with
    | .error cause => some cause
    | .ok _ => none
  read := fs.read
  standardInput := standardInput

/-- Why a search breaks off. -/
inductive SearchError
  /-- Nothing can be read at the path. -/
  | cannotAccess (path : Bytes) (cause : AccessError)
  /-- The path leads to a directory and the search is not recursive. -/
  | isADirectory (path : Bytes)
  /-- The directory, come to on a walk, cannot be read. -/
  | cannotReadDirectory (path : Bytes) (cause : AccessError)
  /-- The file cannot be read. -/
  | cannotReadFile (path : Bytes) (cause : AccessError)
  /-- Standard input cannot be read. -/
  | standardInput (cause : AccessError)
deriving DecidableEq, Repr

/-- The error in words, with its cause behind it. -/
def SearchError.message : SearchError → String
  | cannotAccess path cause => Path.shown path ++ ": cannot access: " ++ cause.message
  | isADirectory path => Path.shown path ++ ": Is a directory"
  | cannotReadDirectory path cause =>
    Path.shown path ++ ": cannot read directory: " ++ cause.message
  | cannotReadFile path cause => Path.shown path ++ ": cannot read file: " ++ cause.message
  | standardInput cause => "cannot read standard input: " ++ cause.message

namespace Inputs
variable (inputs : Inputs)

/-- Why a directory on a walk ends it, if it does. -/
def obstacle (path : Bytes) : Option SearchError :=
  (inputs.hindrance path).map (SearchError.cannotReadDirectory path)

/-- The paths of the files on a walk through the directory with this path. -/
def filesInside (path : Bytes) (d : Directory) : Except SearchError (List Bytes) :=
  match (d.entry.directories path).findSome? inputs.obstacle with
  | some error => .error error
  | none => .ok (d.entry.files path)

/-- The paths of the files that `path` names. -/
def filesNamed (recursive : Bool) (path : Bytes) : Except SearchError (List Bytes) :=
  match inputs.look path with
  | .error cause => .error (.cannotAccess path cause)
  | .ok (.file _) => .ok [path]
  | .ok (.directory d) =>
    if recursive then inputs.filesInside path d else .error (.isADirectory path)

/-- What is read of the file with this path. -/
def readFile (path : Bytes) : Except SearchError Bytes :=
  match inputs.read path with
  | .error cause => .error (.cannotReadFile path cause)
  | .ok contents => .ok contents

end Inputs
end LineSearch
