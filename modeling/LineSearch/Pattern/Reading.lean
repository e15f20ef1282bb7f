import LineSearch.Pattern.Expression
import LineSearch.Pattern.Error

/-! # Reading an expression

An expression is read from left to right in one pass, one character at a time.
What has been read is a `Reader`: the nodes of the sequence under construction,
the groups that are still open around it, and the construct to which the next
character belongs.

* `(` opens a group and `[` a set; a set runs to the next `]`, every character
  before that standing for itself, and a leading `^` negates it.
* A backslash must be followed by `d` or `w`; `.` is any character.
* `?` and `+` quantify the node before them if it has no quantifier yet.  Anywhere
  else they are ordinary characters.
* `|` and `)` separate and close inside a group.  Outside they are ordinary
  characters.
* Every other character stands for itself.

Besides the expression or the error, a reading says where it stopped: behind the
last character that was taken.  A set is taken as a whole, so looking in vain for
its `]` takes only the `[`.
-/
namespace LineSearch

/-- The number of bytes of a list of characters in UTF-8. -/
def byteCount : List Char → Nat
  | [] => 0
  | c :: cs => c.utf8Size + byteCount cs

@[simp] theorem byteCount_nil : byteCount [] = 0 := rfl

@[simp] theorem byteCount_cons (c : Char) (cs : List Char) :
    byteCount (c :: cs) = c.utf8Size + byteCount cs := rfl

@[simp] theorem byteCount_append (cs ds : List Char) :
    byteCount (cs ++ ds) = byteCount cs + byteCount ds := by
  induction cs with
  | nil => simp
  | cons c cs ih => simp [ih, Nat.add_assoc]

@[simp] theorem byteCount_reverse (cs : List Char) : byteCount cs.reverse = byteCount cs := by
  induction cs with
  | nil => rfl
  | cons c cs ih =>
    rw [List.reverse_cons, byteCount_append, ih, byteCount_cons, byteCount_cons, byteCount_nil]
    omega

/-- What is known after reading: the expression or the error, and the byte position behind the
last character taken. -/
structure Reading where
  /-- The expression, or why there is none. -/
  result : Except PatternError Sequence
  /-- Where reading stopped. -/
  stop : Nat

/-- A group whose `)` has not been read. -/
structure OpenGroup where
  /-- Where its `(` stands. -/
  start : Nat
  /-- The nodes before it in the sequence around it, the last first. -/
  before : List Node
  /-- Its alternatives that are complete, the last first. -/
  alternatives : List Sequence

/-- The construct to which the next character belongs. -/
inductive Expecting
  /-- A node, or a quantifier for the last one. -/
  | node
  /-- The letter of the escape whose backslash stands at `start`. -/
  | escape (start : Nat)
  /-- The rest of the set whose `[` stands at `start`; `body` is its text so far, the last
  character first. -/
  | set (start : Nat) (body : List Char)

/-- An expression read up to some place. -/
structure Reader where
  /-- The byte position behind the last character taken. -/
  offset : Nat
  /-- The nodes of the current sequence, the last first. -/
  nodes : List Node := []
  /-- The groups that are open, the innermost first. -/
  groups : List OpenGroup := []
  /-- What the next character belongs to. -/
  expecting : Expecting := .node

namespace Reader

/-- Take the character `c`. -/
def take (r : Reader) (c : Char) : Reader := { r with offset := r.offset + c.utf8Size }

/-- Complete a node, so far without quantifier. -/
def push (r : Reader) (a : Atom) : Reader :=
  { r with nodes := ⟨a, .once⟩ :: r.nodes, expecting := .node }

/-- Let `q`, written `mark`, quantify the last node, if that can still be quantified. -/
def quantify (r : Reader) (q : Quantifier) (mark : Char) : Reader :=
  match r.nodes with
  | ⟨a, .once⟩ :: before => { r with nodes := ⟨a, q⟩ :: before }
  | _ => r.push (.single (.literal mark))

/-- Open a group at `start`. -/
def openGroup (r : Reader) (start : Nat) : Reader :=
  { r with nodes := [], groups := ⟨start, r.nodes, []⟩ :: r.groups }

/-- Go on with the next alternative of the innermost group.  Without a group `|` is an ordinary
character. -/
def nextAlternative (r : Reader) : Reader :=
  match r.groups with
  | g :: outer =>
    { r with
      nodes := []
      groups := { g with alternatives := r.nodes.reverse :: g.alternatives } :: outer }
  | [] => r.push (.single (.literal '|'))

/-- Close the innermost group.  Without a group `)` is an ordinary character. -/
def closeGroup (r : Reader) : Reader :=
  match r.groups with
  | g :: outer =>
    { r with nodes := g.before, groups := outer }.push
      (.group (r.nodes.reverse :: g.alternatives).reverse)
  | [] => r.push (.single (.literal ')'))

/-- The test that the text between two brackets stands for. -/
def setTest : List Char → CharTest
  | '^' :: body => .noneOf (.ofList body)
  | body => .oneOf (.ofList body)

/-- Read one more character.  A text that fails at this character has been read with it: the
error of the result is its reading. -/
def step (r : Reader) (c : Char) : Except Reading Reader :=
  match r.expecting with
  | .node => .ok <|
    match c with
    | '(' => (r.take c).openGroup r.offset
    | '[' => { r.take c with expecting := .set r.offset [] }
    | '\\' => { r.take c with expecting := .escape r.offset }
    | '.' => (r.take c).push (.single .any)
    | '?' => (r.take c).quantify .optional c
    | '+' => (r.take c).quantify .repeated c
    | '|' => (r.take c).nextAlternative
    | ')' => (r.take c).closeGroup
    | _ => (r.take c).push (.single (.literal c))
  | .escape start =>
    match c with
    | 'd' => .ok ((r.take c).push (.single .digit))
    | 'w' => .ok ((r.take c).push (.single .word))
    | _ => .error ⟨.error (.unsupportedEscape start c), (r.take c).offset⟩
  | .set start body =>
    match c with
    | ']' =>
      .ok ({ r.take c with offset := (r.take c).offset + byteCount body }.push
        (.single (setTest body.reverse)))
    | _ => .ok { r with expecting := .set start (c :: body) }

/-- The reading of a text that ends here.  Of several open groups the innermost is at fault. -/
def finish (r : Reader) : Reading :=
  match r.expecting, r.groups with
  | .escape start, _ => ⟨.error (.danglingEscape start), r.offset⟩
  | .set start _, _ => ⟨.error (.unclosedSet start), r.offset⟩
  | .node, g :: _ => ⟨.error (.unclosedGroup g.start), r.offset⟩
  | .node, [] => ⟨.ok r.nodes.reverse, r.offset⟩

/-- Read the rest of a text. -/
def run (r : Reader) : List Char → Reading
  | [] => r.finish
  | c :: rest =>
    match r.step c with
    | .ok next => next.run rest
    | .error reading => reading

end Reader

/-- Read a text that begins at byte position `offset`, counting places from there. -/
def Reading.startingAt (offset : Nat) (text : List Char) : Reading :=
  ({ offset := offset } : Reader).run text

/-- Read a whole text as an expression. -/
def Sequence.read (text : String) : Except PatternError Sequence :=
  (Reading.startingAt 0 text.toList).result

/-! ### Small expressions -/

/-- A bar outside a group is an ordinary character. -/
example : Sequence.read "a|b?" =
    .ok [⟨.single (.literal 'a'), .once⟩, ⟨.single (.literal '|'), .once⟩,
      ⟨.single (.literal 'b'), .optional⟩] := rfl

/-- A second mark is an ordinary character, and an alternative may be empty. -/
example : Sequence.read "(x|)+?" =
    .ok [⟨.group [[⟨.single (.literal 'x'), .once⟩], []], .repeated⟩,
      ⟨.single (.literal '?'), .once⟩] := rfl

/-- Nothing is special in a set, and a leading `^` alone negates the empty set. -/
example : Sequence.read "[^][(]" =
    .ok [⟨.single (.noneOf .empty), .once⟩, ⟨.single (.oneOf (.ofList ['('])), .once⟩] := rfl

/-- Places are counted in bytes, and the innermost open group is at fault. -/
example : Sequence.read "é((a)(b" = .error (.unclosedGroup 6) := rfl

end LineSearch
