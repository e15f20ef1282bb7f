import LineSearch.Pattern.CharSet

/-! # Expressions

The body of a pattern is a **sequence** of **nodes**.  A node is an **atom** with
a **quantifier**, and an atom is either a test on one character or a group of
alternatives, each again a sequence.  The four types are trees of finite depth,
and equality of trees is decidable (`Node.decEq`), which makes compiled patterns
comparable.

Nothing here says how an expression is written (`Pattern.Reading`) or what it
matches (`Pattern.Matching`).  Induction over expressions is `Hereditary`: a
property that passes from the parts of atoms and sequences to the whole holds of
all of them.
-/
namespace LineSearch

/-- How often the atom of a node is taken. -/
inductive Quantifier
  /-- Exactly once: no mark is written. -/
  | once
  /-- Once or not at all: written `?`. -/
  | optional
  /-- Once or more: written `+`. -/
  | repeated
deriving DecidableEq, Repr

/-- A condition on a single character. -/
inductive CharTest
  /-- This character. -/
  | literal (c : Char)
  /-- Any character: written `.`. -/
  | any
  /-- An ASCII digit: written `\d`. -/
  | digit
  /-- An ASCII letter, an ASCII digit or `_`: written `\w`. -/
  | word
  /-- A member of the set: written `[abc]`. -/
  | oneOf (set : CharSet)
  /-- No member of the set: written `[^abc]`. -/
  | noneOf (set : CharSet)
deriving DecidableEq

/-- Whether a character passes the test.  Letters and digits are the ASCII ones. -/
def CharTest.accepts : CharTest → Char → Bool
  | .literal d, c => d == c
  | .any, _ => true
  | .digit, c => c.isDigit
  | .word, c => c.isAlphanum || c == '_'
  | .oneOf set, c => set.contains c
  | .noneOf set, c => !set.contains c

mutual
/-- What a node matches once. -/
inductive Atom
  /-- One character that passes a test. -/
  | single (test : CharTest)
  /-- One of several sequences, in order of preference. -/
  | group (alternatives : List (List Node))
/-- An atom and how often it is taken. -/
structure Node where
  /-- What is taken. -/
  atom : Atom
  /-- How often. -/
  quantifier : Quantifier
end

/-- Nodes to be matched one behind the other. -/
abbrev Sequence := List Node

/-! ### Equality of expressions -/

mutual
/-- Equality of atoms is decidable. -/
def Atom.decEq : (a b : Atom) → Decidable (a = b)
  | .single t, .single u => decidable_of_iff (t = u) (by simp)
  | .group xs, .group ys =>
    match alternativesDecEq xs ys with
    | .isTrue h => .isTrue (h ▸ rfl)
    | .isFalse h => .isFalse (by simpa using h)
  | .single _, .group _ => .isFalse (by simp)
  | .group _, .single _ => .isFalse (by simp)
/-- Equality of nodes is decidable. -/
def Node.decEq : (x y : Node) → Decidable (x = y)
  | ⟨a, q⟩, ⟨b, r⟩ =>
    match a.decEq b with
    | .isTrue h => decidable_of_iff (q = r) (by simp [h])
    | .isFalse h => .isFalse (by simp [h])
/-- Equality of sequences is decidable. -/
def sequenceDecEq : (xs ys : List Node) → Decidable (xs = ys)
  | [], [] => .isTrue rfl
  | [], _ :: _ => .isFalse (by simp)
  | _ :: _, [] => .isFalse (by simp)
  | x :: xs, y :: ys =>
    match x.decEq y with
    | .isTrue h => match sequenceDecEq xs ys with
      | .isTrue hs => .isTrue (by rw [h, hs])
      | .isFalse hs => .isFalse (by simp [hs])
    | .isFalse h => .isFalse (by simp [h])
/-- Equality of lists of alternatives is decidable. -/
def alternativesDecEq : (xs ys : List (List Node)) → Decidable (xs = ys)
  | [], [] => .isTrue rfl
  | [], _ :: _ => .isFalse (by simp)
  | _ :: _, [] => .isFalse (by simp)
  | x :: xs, y :: ys =>
    match sequenceDecEq x y with
    | .isTrue h => match alternativesDecEq xs ys with
      | .isTrue hs => .isTrue (by rw [h, hs])
      | .isFalse hs => .isFalse (by simp [hs])
    | .isFalse h => .isFalse (by simp [h])
end

instance : DecidableEq Atom := Atom.decEq

instance : DecidableEq Node := Node.decEq

/-! ### Induction over expressions -/

/-- A property of atoms and one of sequences that pass from the parts to the whole. -/
structure Hereditary (onAtom : Atom → Prop) (onSequence : Sequence → Prop) : Prop where
  /-- It holds of every test. -/
  single : ∀ test, onAtom (.single test)
  /-- A group has it from its alternatives. -/
  group : ∀ alternatives : List Sequence,
    (∀ alternative ∈ alternatives, onSequence alternative) → onAtom (.group alternatives)
  /-- It holds of the empty sequence. -/
  nil : onSequence []
  /-- A sequence has it from the atom of its first node and from the nodes behind. -/
  cons : ∀ (atom : Atom) (quantifier : Quantifier) (tail : Sequence),
    onAtom atom → onSequence tail → onSequence (⟨atom, quantifier⟩ :: tail)

namespace Hereditary
variable {onAtom : Atom → Prop} {onSequence : Sequence → Prop}

mutual
/-- A hereditary property holds of all atoms. -/
theorem atom (h : Hereditary onAtom onSequence) : ∀ atom : Atom, onAtom atom
  | .single test => h.single test
  | .group alternatives => h.group alternatives (h.alternatives alternatives)
theorem alternatives (h : Hereditary onAtom onSequence) : ∀ alternatives : List (List Node),
    ∀ alternative ∈ alternatives, onSequence alternative
  | [], _, hmem => absurd hmem List.not_mem_nil
  | first :: rest, alternative, hmem =>
    (List.mem_cons.mp hmem).elim (fun e => e ▸ h.sequence first) (h.alternatives rest alternative)
/-- A hereditary property holds of all sequences. -/
theorem sequence (h : Hereditary onAtom onSequence) : ∀ s : List Node, onSequence s
  | [] => h.nil
  | ⟨atom, quantifier⟩ :: tail => h.cons atom quantifier tail (h.atom atom) (h.sequence tail)
end

end Hereditary
end LineSearch
