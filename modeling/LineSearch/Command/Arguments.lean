import LineSearch.Command.Definition
import LineSearch.Command.Refusal
import LineSearch.Text.Display

/-! # Reading arguments

An argument parser for commands whose arguments are options with names of one letter
and one list of paths.  Arguments are read from left to right, and the first thing
that is wrong, or that asks for help or the version, decides.

* An option with a value takes the rest of its own argument, less one leading `=`, or
  else the next argument, whatever that looks like.
* Options may stand together behind one hyphen, one with a value at their end.  Apart
  from those of the command there are `-h` and `-V`; `--help` and `--version` stand
  alone.
* Behind `--` every argument is a path.  Before it so are `-`, the empty argument
  and all that do not begin with a hyphen.

Two things are judged only later: paths that may be empty, and a value that was given
as an argument of its own and may be a second one.  They are judged when the next
option that exists, or the end, is reached; the value also at the next path.  So an
argument that names no option is refused before them (`Progress.settle`).
-/
namespace LineSearch

/-- An argument by its form. -/
inductive Argument
  /-- `--`, behind which all are paths. -/
  | separator
  /-- An option with a long name, and what stands behind its `=`. -/
  | long (name : String) (value : Option String)
  /-- Options with short names, and what stands behind them. -/
  | short (letters : Bytes)
  /-- A path. -/
  | path
deriving DecidableEq, Repr

namespace Argument

/-- The byte that options begin with. -/
def hyphen : UInt8 := 0x2D

/-- The byte between an option and its value. -/
def equals : UInt8 := 0x3D

/-- The form of an argument. -/
def ofBytes : Bytes → Argument
  | [] => .path
  | first :: rest =>
    if first ≠ hyphen then .path
    else match rest with
      | [] => .path
      | second :: more =>
        if second ≠ hyphen then .short rest
        else if more = [] then .separator
        else
          let value := more.dropWhile (· ≠ equals)
          .long (Path.shown (more.takeWhile (· ≠ equals)))
            (if value = [] then none else some (Path.shown value.tail))

end Argument

/-- A value that is on its way. -/
inductive PendingValue
  /-- There is none. -/
  | none
  /-- The next argument is the value of this option. -/
  | expected (option : Arg)
  /-- This value of an option was an argument of its own and has not been judged. -/
  | unjudged (option : Arg) (value : Bytes)
deriving DecidableEq, Repr

/-- What the arguments read so far have said. -/
structure Progress where
  /-- What was said. -/
  said : ArgMatches := {}
  /-- The value on its way. -/
  pending : PendingValue := .none
  /-- Whether `--` was given. -/
  pathsOnly : Bool := false

namespace Progress

/-- Read a value. -/
def valueOf (arg : Arg) (value : Bytes) : Except Refusal Value :=
  match arg.values with
  | .path => if value = [] then .error (.usage (.missingValue arg.usage)) else .ok (.path value)
  | .text =>
    match Utf8.text? value with
    | none => .error (.usage .invalidUtf8)
    | some text => .ok (.text text)

/-- Set the value of an option. -/
def setValue (p : Progress) (arg : Arg) (value : Bytes) : Except Refusal Progress :=
  if p.said.values arg.id ≠ [] then .error (.usage (.repeated arg.usage))
  else do .ok { p with said := p.said.add arg.id (← valueOf arg value), pending := .none }

/-- Set the value that is on its way, if there is one. -/
def settleValue (p : Progress) : Except Refusal Progress :=
  match p.pending with
  | .unjudged arg value => p.setValue arg value
  | _ => .ok p

/-- Set an option without a value. -/
def setFlag (p : Progress) (arg : Arg) : Except Refusal Progress :=
  if p.said.flag arg.id then .error (.usage (.repeated arg.usage))
  else .ok { p with said := p.said.set arg.id }

section
variable (command : Command)

/-- Judge what was left to be judged. -/
def settle (p : Progress) : Except Refusal Progress := do
  let p ← p.settleValue
  match command.positionals.find? fun arg => .path [] ∈ p.said.values arg.id with
  | some arg => .error (.usage (.missingValue arg.usage))
  | none => .ok p

/-- Add a path. -/
def addPath (p : Progress) (path : Bytes) : Except Refusal Progress :=
  match command.positionals.head? with
  | none => .error (.usage (.unknown (Path.shown path)))
  | some arg => do
    let p ← p.settleValue
    .ok { p with said := p.said.add arg.id (.path path) }

/-- What stands behind an option in the same argument, less one leading `=`. -/
def attachedValue (rest : Bytes) : Bytes :=
  if rest.head? = some Argument.equals then rest.tail else rest

/-- Read options with short names. -/
def readShort (p : Progress) : Bytes → Except Refusal Progress
  | [] => .ok p
  | letter :: rest =>
    match command.options.find? fun arg => arg.short.any fun c => Utf8.encode [c] = [letter] with
    | some arg => do
      let p ← p.settle command
      if arg.flag then (← p.setFlag arg).readShort rest
      else if rest = [] then .ok { p with pending := .expected arg }
      else p.setValue arg (attachedValue rest)
    | none =>
      if Utf8.encode ['h'] = [letter] then do
        let _ ← p.settle command
        .error .help
      else if Utf8.encode ['V'] = [letter] then do
        let _ ← p.settle command
        .error .version
      else
        .error (.usage (.unknown (String.ofList ('-' :: (Utf8.decode (letter :: rest)).take 1))))

/-- Answer the option `name` with `refusal`. -/
def answer (p : Progress) (name : String) (value : Option String) (refusal : Refusal) :
    Except Refusal Progress :=
  match value with
  | some value => .error (.usage (.unexpectedValue ("--" ++ name) value))
  | none => do
    let _ ← p.settle command
    .error refusal

/-- Read an option with a long name.  A value that is given to it is refused at once. -/
def readLong (p : Progress) (name : String) (value : Option String) : Except Refusal Progress :=
  if name = "help" then p.answer command name value .help
  else if name = "version" then p.answer command name value .version
  else .error (.usage (.unknown ("--" ++ name)))

/-- Read one more argument. -/
def read (p : Progress) (argument : Bytes) : Except Refusal Progress :=
  match p.pending with
  | .expected arg => .ok { p with pending := .unjudged arg argument }
  | _ =>
    if p.pathsOnly then p.addPath command argument
    else match Argument.ofBytes argument with
      | .separator => .ok { p with pathsOnly := true }
      | .long name value => p.readLong command name value
      | .short letters => p.readShort command letters
      | .path => p.addPath command argument

/-- What the arguments say when they end here. -/
def finish (p : Progress) : Except Refusal ArgMatches :=
  match p.pending with
  | .expected arg => .error (.usage (.missingValue arg.usage))
  | _ => do
    let p ← p.settle command
    if p.said.isComplete command then .ok p.said else .error (.usage .missingRequired)

/-- What arguments say that are read one after the other. -/
def readAll (p : Progress) : List Bytes → Except Refusal ArgMatches
  | [] => p.finish command
  | argument :: rest => do (← p.read command argument).readAll rest

end
end Progress

/-- The name by which a command line calls a command: the last name of the program's path. -/
def Command.calledName (command : Command) (line : List Bytes) : String :=
  ((line.head?.bind Path.fileName).bind Utf8.text?).getD command.name

/-- The parser that reads arguments so. -/
def Progress.parser : ArgumentParser ArgumentError where
  parse command line :=
    match ({} : Progress).readAll command line.tail with
    | .ok said => .ok said
    | .error refusal => .error ⟨command, command.calledName line, refusal⟩
  error command kind message := ⟨command, command.name, .usage (.stated kind message)⟩
  kind := ArgumentError.kind
  text := ArgumentError.text Display.shown

/-! ### Small command lines -/

/-- The next argument is the pattern whatever it looks like. -/
example : Configuration.ofCommandLine Progress.parser
    (["grep", "-rE", "-r"].map fun argument => Utf8.encode argument.toList) =
      .ok ⟨"-r", true, [Path.dot]⟩ := rfl

/-- An argument that names no option is refused before a second pattern is, unless that stands in
its option's own argument. -/
example :
    let refusal (line : List String) : Except Refusal ArgMatches :=
      ({} : Progress).readAll command (line.map fun argument => Utf8.encode argument.toList)
    refusal ["-E", "a", "-E", "b", "-x"] = .error (.usage (.unknown "-x")) ∧
      refusal ["-Ea", "-E=b", "-x"] = .error (.usage (.repeated "-E <PATTERN>")) := ⟨rfl, rfl⟩

/-- An empty path is refused at the next option. -/
example : ({} : Progress).readAll command [[], Utf8.encode ['-', 'h']] =
    .error (.usage (.missingValue "[PATH]...")) := rfl

end LineSearch
