import LineSearch.Text.Utf8

/-! # Paths

A path is a sequence of bytes in which slashes separate names.  Where two slashes
meet, or a path begins or ends with one, there is an empty name between them, which
leads nowhere else but asks for a directory.  `Path.join` is how the path of an
entry is written: the path of its directory, one slash unless that ends in one, and
its name.  A path that `isTooLong` is not followed, whatever it names.

Bytes are what is opened, compared and measured.  Only to be shown is a path read
as a text (`Path.shown`).
-/
namespace LineSearch.Path

/-- The byte between names. -/
def slash : UInt8 := 0x2F

/-- The name of a directory in itself. -/
def dot : Bytes := [0x2E]

/-- The name of the directory above another one in that one. -/
def dots : Bytes := [0x2E, 0x2E]

/-- The names between the slashes of a path; one more than there are slashes. -/
def names : Bytes → List Bytes
  | [] => [[]]
  | b :: rest =>
    if b = slash then [] :: names rest
    else match names rest with
      | [] => [[b]]
      | name :: more => (b :: name) :: more

/-- Whether a path begins at the root of all directories. -/
def isAbsolute (path : Bytes) : Bool := path.head? = some slash

/-- The path of the entry `name` of the directory `path`. -/
def join (path name : Bytes) : Bytes :=
  match path.getLast? with
  | none => name
  | some last => if last = slash then path ++ name else path ++ slash :: name

/-- The name at the end of a path, if it is an entry's own name. -/
def fileName (path : Bytes) : Option Bytes :=
  match ((names path).filter fun name => !name.isEmpty && name ≠ dot).getLast? with
  | some name => if name = dots then none else some name
  | none => none

/-- The path as a text. -/
def shown (path : Bytes) : String := String.ofList (Utf8.decode path)

/-- The greatest number of bytes in a name. -/
def nameLimit : Nat := 255

/-- The greatest number of bytes in a path. -/
def lengthLimit : Nat := 4095

/-- Whether a path is too long to be followed. -/
def isTooLong (path : Bytes) : Bool := lengthLimit < path.length

/-! ### Small paths -/

example : names [0x2F, 0x61, 0x2F, 0x2F, 0x62] = [[], [0x61], [], [0x62]] := by decide

example : join dot [0x62] = [0x2E, 0x2F, 0x62] ∧ join [0x61, 0x2F] [0x62] = [0x61, 0x2F, 0x62] := by
  decide

example : fileName [0x61, 0x2F, 0x2E] = some [0x61] ∧ fileName [0x61, 0x2F, 0x2E, 0x2E] = none := by
  decide

end LineSearch.Path
