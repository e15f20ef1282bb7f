import LineSearch.Files.Path
import LineSearch.Files.Tree

/-! # Walking through a directory

A walk visits a directory, the regular files in it and all directories inside it.
The entries of each directory are visited in the order of their names, compared
byte by byte, whatever order the directory lists them in.  Symbolic links are
neither visited nor followed, so a walk stays inside its directory and ends.

`Entry.visits` is the whole walk, `Entry.files` and `Entry.directories` are the
files and the directories on it.
-/
namespace LineSearch

/-- What a walk comes to. -/
inductive Visit
  /-- A file with this path. -/
  | file (path : Bytes)
  /-- A directory with this path, in front of what is inside it. -/
  | directory (path : Bytes)
deriving DecidableEq, Repr

/-- The path of the file visited. -/
def Visit.file? : Visit → Option Bytes
  | .file path => some path
  | .directory _ => none

/-- The path of the directory visited. -/
def Visit.directory? : Visit → Option Bytes
  | .file _ => none
  | .directory path => some path

/-- Whether `first` is `second` or comes before it, comparing byte by byte. -/
def nameLe (first second : Bytes) : Bool := decide (first ≤ second)

/-- The shares of a directory's entries in a walk, put in the order of the entries' names. -/
def inNameOrder (shares : List (Bytes × List Visit)) : List Visit :=
  (shares.mergeSort fun a b => nameLe a.1 b.1).flatMap (·.2)

mutual
/-- A walk that begins at an entry with this path. -/
def Entry.visits (path : Bytes) : Entry → List Visit
  | .file _ => [.file path]
  | .special _ => []
  | .link _ => []
  | .directory _ entries => .directory path :: inNameOrder (sharesOf path entries)
/-- The share of each entry of the directory with this path. -/
def sharesOf (path : Bytes) : List (Bytes × Entry) → List (Bytes × List Visit)
  | [] => []
  | (name, entry) :: rest => (name, entry.visits (Path.join path name)) :: sharesOf path rest
end

/-- The paths of the files on a walk that begins at an entry with this path. -/
def Entry.files (path : Bytes) (entry : Entry) : List Bytes :=
  (entry.visits path).filterMap Visit.file?

/-- The paths of the directories on a walk that begins at an entry with this path. -/
def Entry.directories (path : Bytes) (entry : Entry) : List Bytes :=
  (entry.visits path).filterMap Visit.directory?

/-- A name that another one begins with comes first. -/
example : nameLe [0x61] [0x61, 0x2E] = true ∧ nameLe [0x61, 0x2E] [0x61] = false := by decide

/-- A link is left out. -/
example : Entry.files Path.dot (.directory {} [([0x6C], .link [0x62]), ([0x62], .file (.ok []))]) =
    [[0x2E, 0x2F, 0x62]] := by
  cbv

/-- A directory comes before those inside it. -/
example : Entry.directories [0x61] (.directory {} [([0x62], .directory {} [])]) =
    [[0x61], [0x61, 0x2F, 0x62]] := by
  cbv

end LineSearch
