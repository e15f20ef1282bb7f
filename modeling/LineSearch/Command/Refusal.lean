import LineSearch.Command.Parser

/-! # Refused command lines

A command line either says what the program needs to know or is refused: it asks for
the help text or for the version, or it is wrong.  `ArgumentError.text` is a refusal
in words, with parts of the command line as a given function shows them.
-/
namespace LineSearch

/-- What is wrong with a command line. -/
inductive UsageError
  /-- An argument is missing that must be given. -/
  | missingRequired
  /-- An argument is given without its value. -/
  | missingValue (argument : String)
  /-- An argument is given twice. -/
  | repeated (argument : String)
  /-- There is no such option. -/
  | unknown (option : String)
  /-- An option that takes no value is given one. -/
  | unexpectedValue (option value : String)
  /-- The value of an argument is no text. -/
  | invalidUtf8
  /-- The program has found this error by itself. -/
  | stated (kind : ErrorKind) (message : String)
deriving DecidableEq, Repr

/-- Why a command line is refused. -/
inductive Refusal
  /-- The command line is wrong. -/
  | usage (error : UsageError)
  /-- The help text is asked for. -/
  | help
  /-- The version is asked for. -/
  | version
deriving DecidableEq, Repr

/-- The refusal of a command line by which a command is called. -/
structure ArgumentError where
  /-- The command. -/
  command : Command
  /-- The name by which it is called. -/
  program : String
  /-- Why the command line is refused. -/
  refusal : Refusal
deriving DecidableEq, Repr

/-- The kind of the error. -/
def UsageError.kind : UsageError → ErrorKind
  | missingRequired => .missingRequiredArgument
  | missingValue _ => .invalidValue
  | repeated _ => .argumentConflict
  | unknown _ => .unknownArgument
  | unexpectedValue _ _ => .tooManyValues
  | invalidUtf8 => .invalidUtf8
  | stated kind _ => kind

/-- The kind of the error. -/
def ArgumentError.kind (error : ArgumentError) : ErrorKind :=
  match error.refusal with
  | .usage error => error.kind
  | .help => .displayHelp
  | .version => .displayVersion

/-- How an argument is written. -/
def Arg.usage (arg : Arg) : String :=
  let name := arg.valueName.getD arg.id
  match arg.short with
  | none => "[" ++ name ++ "]" ++ if arg.many then "..." else ""
  | some c => "-" ++ c.toString ++ if arg.flag then "" else " <" ++ name ++ ">"

/-! ### Texts -/

section
variable (display : String → String)

/-- The error in words. -/
def UsageError.message : UsageError → String
  | missingRequired => "the following required arguments were not provided:"
  | missingValue argument => "a value is required for '" ++ argument ++ "' but none was supplied"
  | repeated argument => "the argument '" ++ argument ++ "' cannot be used multiple times"
  | unknown option => "unexpected argument '" ++ display option ++ "' found"
  | unexpectedValue option value =>
    "unexpected value '" ++ display value ++ "' for '" ++ option ++
      "' found; no more were expected"
  | invalidUtf8 => "invalid UTF-8 was detected in one or more arguments"
  | stated _ message => message

/-- Two columns, the first as wide as it needs to be. -/
def helpTable (rows : List (String × String)) : List String :=
  let width := (rows.map (·.1.length)).foldr max 0
  rows.map fun row => "  " ++ row.1.pushn ' ' (width - row.1.length) ++ "  " ++ row.2

/-- How a command, called by the given name, is used. -/
def Command.helpLines (command : Command) (program : String) : List String :=
  let row (arg : Arg) : String × String := (arg.usage, arg.help.getD "")
  let required := (command.options.filter (·.required)).map Arg.usage
  [command.about,
   "",
   "Usage: " ++ " ".intercalate
     (display program :: "[OPTIONS]" :: required ++ command.positionals.map Arg.usage),
   "",
   "Arguments:"] ++
  helpTable (command.positionals.map row) ++
  ["",
   "Options:"] ++
  helpTable (command.options.map row ++
    [("-h, --help", "Print help"), ("-V, --version", "Print version")])

/-- What is shown when a command line is refused. -/
def ArgumentError.text (error : ArgumentError) : String :=
  match error.refusal with
  | .usage usage => "error: " ++ usage.message display ++ "\n"
  | .help => String.join ((error.command.helpLines display error.program).map (· ++ "\n"))
  | .version => error.command.name ++ " " ++ error.command.version ++ "\n"

end
end LineSearch
