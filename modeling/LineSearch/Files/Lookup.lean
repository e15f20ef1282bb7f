import LineSearch.Files.Path
import LineSearch.Files.Tree

/-! # Following a path

`FileSystem.look` follows a path, from the root if the path is absolute and else from
the current directory.  A name is looked up in the directory reached so far, unless
that is locked; `.` stays there and `..` goes to the directory above it, which of the
root is the root itself; a link is replaced by the path that it stands for.  At most
40 links are replaced on the way, so a link that leads to itself is given up.  A path
that is too long is not followed at all.

`FileSystem.list` and `FileSystem.read` read the directory and the file that a path
leads to.
-/
namespace LineSearch

/-- What a path leads to. -/
inductive Found
  /-- A file, or what is read like one. -/
  | file (contents : Except AccessError Bytes)
  /-- A directory. -/
  | directory (found : Directory)

namespace Lookup

/-- A directory below the root, given by itself, the directory above it, and so on.  The empty list
is the root. -/
abbrev Place := List Directory

/-- What a way leads to. -/
inductive Goal
  /-- A file, or what is read like one. -/
  | file (contents : Except AccessError Bytes)
  /-- A directory. -/
  | place (place : Place)

/-- The greatest number of links followed. -/
def linkLimit : Nat := 40

/-- Where a path begins that is followed from `here`. -/
def startOf (path : Bytes) (here : Place) : Place := if Path.isAbsolute path then [] else here

section
variable (root : Directory)

/-- The directory at a place. -/
def directoryAt (place : Place) : Directory := place.headD root

/-- Follow names from a place.  `onLink` follows the names that remain when a link is replaced. -/
def follow (onLink : List Bytes → Place → Except AccessError Goal) :
    List Bytes → Place → Except AccessError Goal
  | [], here => .ok (.place here)
  | name :: rest, here =>
    if name = [] then follow onLink rest here
    else match (directoryAt root here).locks.passing with
      | some cause => .error cause
      | none =>
        if name = Path.dot then follow onLink rest here
        else if name = Path.dots then follow onLink rest here.tail
        else if Path.nameLimit < name.length then .error .nameTooLong
        else match (directoryAt root here).entries.lookup name with
          | none => .error .notFound
          | some (.directory locks entries) => follow onLink rest (⟨locks, entries⟩ :: here)
          | some (.file contents) | some (.special contents) =>
            if rest.isEmpty then .ok (.file contents) else .error .notADirectory
          | some (.link target) => onLink (Path.names target ++ rest) (startOf target here)

/-- Follow names and at most so many links. -/
def followWithin : (links : Nat) → List Bytes → Place → Except AccessError Goal
  | 0 => follow root fun _ _ => .error .tooManyLinks
  | links + 1 => follow root fun names here => followWithin links names here

/-- What is at the end of a way. -/
def Goal.found : Goal → Found
  | .file contents => .file contents
  | .place here => .directory (directoryAt root here)

end
end Lookup

/-- All directories, and the one from which paths that are not absolute are followed. -/
structure FileSystem where
  /-- The root of all directories. -/
  root : Directory
  /-- The current directory. -/
  current : Lookup.Place := []

namespace FileSystem
variable (fs : FileSystem)

/-- What the path leads to. -/
def look (path : Bytes) : Except AccessError Found :=
  if 0 ∈ path then .error .containsNul
  else if path.isEmpty then .error .notFound
  else if Path.isTooLong path then .error .nameTooLong
  else
    (Lookup.followWithin fs.root Lookup.linkLimit (Path.names path)
      (Lookup.startOf path fs.current)).map (Lookup.Goal.found fs.root)

/-- The entries of the directory that the path leads to. -/
def list (path : Bytes) : Except AccessError Listing :=
  match fs.look path with
  | .error cause => .error cause
  | .ok (.file _) => .error .notADirectory
  | .ok (.directory d) =>
    match d.locks.listing with
    | some cause => .error cause
    | none => .ok d.entries

/-- The contents of the file that the path leads to. -/
def read (path : Bytes) : Except AccessError Bytes :=
  match fs.look path with
  | .error cause => .error cause
  | .ok (.file contents) => contents
  | .ok (.directory _) => .error .isADirectory

end FileSystem

/-- A link that leads to itself leads nowhere. -/
example : (FileSystem.mk { entries := [([0x6C], .link [0x6C])] } []).read [0x6C] =
    .error .tooManyLinks := rfl

/-- A slash behind a file asks for a directory. -/
example : (FileSystem.mk { entries := [([0x66], .file (.ok []))] } []).read [0x66, 0x2F] =
    .error .notADirectory := rfl

/-- What is in a locked directory cannot be reached. -/
example :
    let locks : Locks := { passing := some .permissionDenied }
    (FileSystem.mk { entries := [([0x64], .directory locks [([0x66], .file (.ok []))])] } []).read
      [0x64, 0x2F, 0x66] = .error .permissionDenied := rfl

end LineSearch
