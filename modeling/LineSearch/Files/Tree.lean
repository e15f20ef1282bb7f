import LineSearch.Text.Utf8

/-! # Trees of files

A directory holds entries under names.  An entry is a file, a symbolic link with the
path it stands for, a directory, or something special, such as a device, that is
read like a file.  The order in which a directory lists its entries means nothing;
the names in it are meant to differ.

Reading may fail.  A file comes with its contents or the reason why it cannot be
read, a directory with what it is locked against.
-/
namespace LineSearch

/-- Why something cannot be read. -/
inductive AccessError
  /-- A name is not there. -/
  | notFound
  /-- Something is not permitted. -/
  | permissionDenied
  /-- A file stands where a directory is needed. -/
  | notADirectory
  /-- A directory stands where a file is needed. -/
  | isADirectory
  /-- A name or the path as a whole is too long. -/
  | nameTooLong
  /-- The way leads through too many links. -/
  | tooManyLinks
  /-- The path holds the byte NUL. -/
  | containsNul
  /-- Another cause, in words. -/
  | other (cause : String)
deriving DecidableEq, Repr

/-- The error in words. -/
def AccessError.message : AccessError → String
  | notFound => "No such file or directory (os error 2)"
  | permissionDenied => "Permission denied (os error 13)"
  | notADirectory => "Not a directory (os error 20)"
  | isADirectory => "Is a directory (os error 21)"
  | nameTooLong => "File name too long (os error 36)"
  | tooManyLinks => "Too many levels of symbolic links (os error 40)"
  | containsNul => "file name contained an unexpected NUL byte"
  | other cause => cause

/-- What a directory is locked against. -/
structure Locks where
  /-- Why its entries cannot be listed. -/
  listing : Option AccessError := none
  /-- Why no name in it can be followed. -/
  passing : Option AccessError := none
deriving DecidableEq, Repr

/-- What a directory holds under a name. -/
inductive Entry
  /-- A regular file. -/
  | file (contents : Except AccessError Bytes)
  /-- What is neither a regular file nor a link or a directory. -/
  | special (contents : Except AccessError Bytes)
  /-- A symbolic link. -/
  | link (target : Bytes)
  /-- A directory. -/
  | directory (locks : Locks) (entries : List (Bytes × Entry))

/-- The entries of a directory, in the order in which it lists them. -/
abbrev Listing := List (Bytes × Entry)

/-- A directory. -/
structure Directory where
  /-- What it is locked against. -/
  locks : Locks := {}
  /-- What it holds. -/
  entries : Listing

/-- The directory as an entry of another one. -/
def Directory.entry (d : Directory) : Entry := .directory d.locks d.entries

end LineSearch
