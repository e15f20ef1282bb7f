import LineSearch.Command.Arguments
import LineSearch.Command.Outcome

/-! # The program

Reads the inputs that a search asks for and writes what it gives.  All decisions
are made by `Job.ofCommandLine` and `Job.run`; nothing is read before the first has
accepted the command line and the pattern.

What is read is recorded with what came of it, for each directory and each file by
itself, under the path by which it was read.  A path is opened by the text it is
shown as, so one that is no text cannot be opened.
-/
namespace LineSearch.Program

/-- The cause that the operating system numbers `code`, or its negative, with its own words for
one that is not common. -/
def causeOfCode (code : UInt32) (details : String) : AccessError :=
  let number := if code < 0x80000000 then code else 0 - code
  match number with
  | 2 => .notFound
  | 13 => .permissionDenied
  | 20 => .notADirectory
  | 21 => .isADirectory
  | 36 => .nameTooLong
  | 40 => .tooManyLinks
  | _ => .other (details ++ " (os error " ++ toString number ++ ")")

/-- The cause of an input error. -/
def accessError : IO.Error → AccessError
  | .noFileOrDirectory _ code details => causeOfCode code details
  | .inappropriateType _ code details => causeOfCode code details
  | .invalidArgument _ code details => causeOfCode code details
  | .permissionDenied _ code details => causeOfCode code details
  | .resourceExhausted _ code details => causeOfCode code details
  | .noSuchThing _ code details => causeOfCode code details
  | .unsatisfiedConstraints code details => causeOfCode code details
  | .illegalOperation code details => causeOfCode code details
  | .otherError code details => causeOfCode code details
  | error => .other (toString error)

/-- The value of an action, or why it has none. -/
def attempt {α : Type} (action : IO α) : IO (Except AccessError α) := do
  match ← action.toBaseIO with
  | .ok value => return .ok value
  | .error error => return .error (accessError error)

/-- What came of reading, under the paths by which it was read. -/
structure Record where
  /-- What paths lead to. -/
  found : List (Bytes × Except AccessError Found) := []
  /-- Why directories cannot be read. -/
  hindrances : List (Bytes × AccessError) := []
  /-- What files hold. -/
  contents : List (Bytes × Except AccessError Bytes) := []

/-- Read and record the file at a path. -/
def readFile (path : Bytes) : StateT Record IO (Except AccessError Bytes) := do
  let contents ← attempt do
    return (← IO.FS.readBinFile (System.mkFilePath [Path.shown path])).data.toList
  modify fun record => { record with contents := (path, contents) :: record.contents }
  return contents

/-- Read and record the directory at a path and all that is inside.  What is neither a file nor a
directory is left out, as a walk leaves it out.  What nothing is known of is taken for a file, which
cannot be read either. -/
partial def readDirectory (path : Bytes) : StateT Record IO Listing := do
  match ← attempt (System.mkFilePath [Path.shown path]).readDir with
  | .error cause =>
    modify fun record => { record with hindrances := (path, cause) :: record.hindrances }
    return []
  | .ok items =>
    let mut entries : Listing := []
    for item in items do
      let name := Utf8.encode item.fileName.toList
      let inner := Path.join path name
      let metadata ← attempt item.path.symlinkMetadata
      match (metadata.map (·.type)).toOption.getD .file with
      | .dir => entries := (name, .directory {} (← readDirectory inner)) :: entries
      | .file => entries := (name, .file (← readFile inner)) :: entries
      | _ => pure ()
    return entries

/-- Read and record what a path leads to.  A directory is read only for a recursive search. -/
def readPath (recursive : Bool) (path : Bytes) : StateT Record IO Unit := do
  let found ← match ← attempt (System.mkFilePath [Path.shown path]).metadata with
    | .error cause => pure (.error cause)
    | .ok metadata =>
      if metadata.type == .dir then do
        let entries ← if recursive then readDirectory path else pure []
        pure (.ok (.directory { entries }))
      else do pure (.ok (.file (← readFile path)))
  modify fun record => { record with found := (path, found) :: record.found }

/-- Read what a search asks for. -/
def readInputs (c : Configuration) : IO Inputs := do
  let (_, record) ← (c.paths.forM (readPath c.recursive)).run {}
  let standardInput ←
    if c.paths.isEmpty then
      attempt do return (← (← IO.getStdin).readBinToEnd).data.toList
    else pure (.ok [])
  return {
    look := fun path => (record.found.lookup path).getD (.error .notFound)
    hindrance := fun path => record.hindrances.lookup path
    read := fun path => (record.contents.lookup path).getD (.error .notFound)
    standardInput }

/-- Write what the program ends with. -/
def report (outcome : Outcome) : IO UInt32 := do
  (← IO.getStdout).write ⟨outcome.output.toArray⟩
  (← IO.getStderr).putStr outcome.errors
  return outcome.status.toUInt32

end LineSearch.Program

open LineSearch in
/-- Print the lines that match a pattern. -/
def main (arguments : List String) : IO UInt32 := do
  let line := ((← IO.appPath).toString :: arguments).map fun argument => Utf8.encode argument.toList
  match Job.ofCommandLine Progress.parser line with
  | .error outcome => Program.report outcome
  | .ok job => Program.report (job.run (← Program.readInputs job.configuration))
