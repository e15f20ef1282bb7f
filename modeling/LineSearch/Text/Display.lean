import LineSearch.Text.Utf8

/-! # Text shown to the user

What a user has typed is shown again without the parts that would steer a terminal:
control characters, of which only blanks and line ends stay, and control sequences.
An escape character begins a control sequence.  What belongs to it depends on the
character behind:

* `[` is followed by parameters up to one of `@` to `~`, as in the sequences that
  set a colour;
* `P` is followed by parameters and then, like `X`, `^` and `_`, by a string;
* `]` is followed by a string that the bell character ends;
* another character ends the sequence, once the characters from the blank to `/`
  that may stand before it are read.

A `Phase` is how far a sequence has been read.  A blank or line end inside a
sequence is shown, unless it is part of a string.
-/
namespace LineSearch.Display

/-- How far a control sequence has been read. -/
inductive Phase
  /-- No sequence is open. -/
  | text
  /-- Up to the escape character. -/
  | escape
  /-- Up to intermediate characters behind the escape character. -/
  | intermediate
  /-- Up to `[` or to something behind it. -/
  | control
  /-- Up to `P`. -/
  | device
  /-- Up to parameters behind `P`. -/
  | deviceParameters
  /-- Up to intermediate characters behind `P`. -/
  | deviceIntermediate
  /-- Up to somewhere in a string that `P`, `X`, `^` or `_` announces. -/
  | string
  /-- Up to `]` or to somewhere in the string behind it. -/
  | command
deriving DecidableEq, Repr

/-! ### Characters in control sequences -/

/-- The characters that may stand before the last one of a sequence. -/
def isIntermediate (c : Char) : Bool := ' ' ≤ c && c ≤ '/'

/-- The characters of parameters. -/
def isParameter (c : Char) : Bool := '0' ≤ c && c ≤ '?'

/-- The parameters that no standard gives a meaning.  They stand first among the parameters. -/
def isPrivateParameter (c : Char) : Bool := '<' ≤ c && c ≤ '?'

/-- The characters that end parameters. -/
def isFinal (c : Char) : Bool := '@' ≤ c && c ≤ '~'

/-- Whether the byte that ends a string is among the bytes of the character. -/
def hasTerminator (c : Char) : Bool := (Utf8.encode [c]).contains 0x9C

/-- The control characters that are blanks or line ends. -/
def isBlank (c : Char) : Bool := c ∈ ['\t', '\n', '\x0c', '\r']

/-- The characters that are shown where no sequence is open. -/
def isPlain (c : Char) : Bool := (' ' ≤ c && c != '\x7f') || isBlank c

/-! ### Sequences -/

namespace Phase

/-- The phase behind a character that is not shown.  An escape character always begins a sequence,
and the characters CAN and SUB cancel one. -/
def next (phase : Phase) (c : Char) : Phase :=
  if c = '\x1b' then escape
  else if c = '\x18' || c = '\x1a' then text
  else match phase with
  | text => text
  | escape =>
    if isIntermediate c then intermediate
    else if c = '[' then control
    else if c = ']' then command
    else if c = 'P' then device
    else if c = 'X' || c = '^' || c = '_' then string
    else if isParameter c || isFinal c then text
    else escape
  | intermediate => if isParameter c || isFinal c then text else intermediate
  | control => if isFinal c then text else control
  | device =>
    if isParameter c then deviceParameters
    else if isIntermediate c then deviceIntermediate
    else if isFinal c then string
    else device
  | deviceParameters =>
    if isIntermediate c then deviceIntermediate
    else if isPrivateParameter c || isFinal c then string
    else deviceParameters
  | deviceIntermediate => if isParameter c || isFinal c then string else deviceIntermediate
  | string => if hasTerminator c then text else string
  | command => if c = '\x07' then text else command

/-- Whether a character that comes in this phase is shown. -/
def shows (phase : Phase) (c : Char) : Bool :=
  match phase with
  | text => isPlain c
  | escape | intermediate | control => isBlank c
  | device | deviceParameters | deviceIntermediate | string | command => false

end Phase

/-! ### Texts -/

/-- The phase behind a character that is shown: the sequence in which it stands is taken up again,
unless the character is outside ASCII. -/
def Phase.resume (phase : Phase) (c : Char) : Phase := if c.toNat < 128 then phase else text

/-- The characters that are shown of a text.  Behind one that is shown (`running`), all are shown as
far as they would be where no sequence is open. -/
def visible : (phase : Phase) → (running : Bool) → List Char → List Char
  | _, _, [] => []
  | phase, running, c :: rest =>
    if (if running then Phase.text else phase).shows c then
      c :: visible (phase.resume c) true rest
    else visible (phase.next c) false rest

/-- The text as it is shown. -/
def shown (text : String) : String := String.ofList (visible .text false text.toList)

/-! ### Small texts -/

/-- Colours are left out. -/
example : shown "a\x1b[31mb\x1b[0m" = "ab" := by decide

/-- A string is left out up to the sequence that ends it. -/
example : shown "a\x1b]0;title\x07b\x1bPq#1\x1b\\c" = "abc" := by decide

/-- A blank inside a sequence is shown and does not end it. -/
example : shown "a\x1b[1\tm\x07xb" = "a\tmb" := by decide

end LineSearch.Display
