import LineSearch.Text.Utf8

/-! # Argument parsers

Which arguments a program takes is told to an argument parser as a `Command`, and
what a command line says is asked of the `ArgMatches` that the parser answers with,
by the identifiers of the arguments.  Nothing else is known of a parser here: it is
given as an `ArgumentParser`.
-/
namespace LineSearch

/-- What the values of an argument are read as. -/
inductive ValueParser
  /-- A text. -/
  | text
  /-- A path that is not empty. -/
  | path
deriving DecidableEq, Repr

/-- A value of an argument. -/
inductive Value
  /-- A text. -/
  | text (value : String)
  /-- A path. -/
  | path (value : Bytes)
deriving DecidableEq, Repr

/-- The path that a value is. -/
def Value.path? : Value → Option Bytes
  | .text _ => none
  | .path value => some value

/-- An argument of a command.  Without a name of one letter it is known by its place. -/
structure Arg where
  /-- Its identifier. -/
  id : String
  /-- Its name of one letter, which makes it an option. -/
  short : Option Char := none
  /-- How its value is called. -/
  valueName : Option String := none
  /-- What it is for. -/
  help : Option String := none
  /-- Whether it must be given. -/
  required : Bool := false
  /-- Whether its value may begin with a hyphen. -/
  hyphenValues : Bool := false
  /-- Whether it takes no value and is only set. -/
  flag : Bool := false
  /-- Whether it takes any number of values. -/
  many : Bool := false
  /-- What its values are read as. -/
  values : ValueParser := .text
deriving DecidableEq, Repr

/-- A command and its arguments. -/
structure Command where
  /-- Its name. -/
  name : String
  /-- Its version. -/
  version : String
  /-- What it does. -/
  about : String
  /-- Its arguments. -/
  args : List Arg
deriving DecidableEq, Repr

/-- The arguments that are options. -/
def Command.options (command : Command) : List Arg := command.args.filter (·.short.isSome)

/-- The arguments that are known by their place. -/
def Command.positionals (command : Command) : List Arg := command.args.filter (·.short.isNone)

/-- What a command line says. -/
structure ArgMatches where
  /-- The values of an argument, in order. -/
  values : String → List Value := fun _ => []
  /-- Whether an argument was set. -/
  flag : String → Bool := fun _ => false

namespace ArgMatches

/-- A value more. -/
def add (m : ArgMatches) (id : String) (value : Value) : ArgMatches where
  values other := if other = id then m.values other ++ [value] else m.values other
  flag := m.flag

/-- An argument set. -/
def set (m : ArgMatches) (id : String) : ArgMatches where
  values := m.values
  flag other := if other = id then true else m.flag other

/-- The first value of an argument whose values are texts. -/
def getOne (m : ArgMatches) (id : String) : Option String :=
  match m.values id with
  | .text value :: _ => some value
  | _ => none

/-- The values of an argument whose values are paths, if there are any. -/
def getMany (m : ArgMatches) (id : String) : Option (List Bytes) :=
  match m.values id with
  | [] => none
  | values => some (values.filterMap Value.path?)

/-- Whether an argument was given. -/
def contains (m : ArgMatches) (arg : Arg) : Bool := !(m.values arg.id).isEmpty || m.flag arg.id

/-- Whether all arguments were given that must be. -/
def isComplete (m : ArgMatches) (command : Command) : Bool :=
  command.args.all fun arg => !arg.required || m.contains arg

end ArgMatches

/-- The kinds of errors. -/
inductive ErrorKind
  /-- The help text is asked for. -/
  | displayHelp
  /-- The version is asked for. -/
  | displayVersion
  /-- An argument is missing that must be given. -/
  | missingRequiredArgument
  /-- A value is missing or cannot be read. -/
  | invalidValue
  /-- Arguments exclude each other, or one is given twice. -/
  | argumentConflict
  /-- There is no such argument. -/
  | unknownArgument
  /-- An argument that takes no value is given one. -/
  | tooManyValues
  /-- An argument is no text. -/
  | invalidUtf8
deriving DecidableEq, Repr

/-- A parser of command lines, whose errors are of type `ε`. -/
structure ArgumentParser (ε : Type) where
  /-- What a command line says, the name of the program in front. -/
  parse : Command → List Bytes → Except ε ArgMatches
  /-- An error that the program finds by itself. -/
  error : Command → ErrorKind → String → ε
  /-- The kind of an error. -/
  kind : ε → ErrorKind
  /-- What is printed of an error. -/
  text : ε → String

end LineSearch
