import LineSearch.Proofs.Matching.Enumeration

/-! # One sequence behind another

To match `s ++ t` is more than to match `s` and then `t`.  Where `t` does not match behind
the end that is found for `s`, the optional and the repeated nodes of `s` are tried in
another way, and `t` behind the end that gives.  So the nodes behind a place are known to
every choice in front of it.

In terms of candidates this is one equation: the ends listed for `s ++ t` are, for every
end listed for `s` in order, those listed for `t` from there (`Sequence.candidates_append`).
What is found for `s ++ t` is therefore what is found for `t` from the first end of `s`
from which it matches at all (`Sequence.matchAt_append`).

Parentheses cut that list down.  A group keeps the first candidate of its alternative, so
`(s)t` is `s` and then `t` (`Sequence.matchAt_parenthesised`), and `t` is asked once.
-/
namespace LineSearch
variable {input : Array Char}

/-- Each end of the first sequence is followed by the ends of the second from there. -/
theorem Sequence.candidates_append (s t : Sequence) (pos : Nat) :
    Sequence.candidates input (s ++ t) pos =
      (Sequence.candidates input s pos).flatMap (Sequence.candidates input t) := by
  induction s generalizing pos with
  | nil => rw [List.nil_append, enumerates_candidates.nil, List.flatMap_singleton]
  | cons node tail ih =>
    obtain ⟨atom, quantifier⟩ := node
    have htaken : ∀ first : Option Nat,
        (first.elim [] fun next => Sequence.candidates input (tail ++ t) next) =
          (first.elim [] fun next => Sequence.candidates input tail next).flatMap
            (Sequence.candidates input t) := by
      intro first
      cases first with
      | none => rfl
      | some next => exact ih next
    rw [List.cons_append]
    cases quantifier with
    | once => rw [enumerates_candidates.once, enumerates_candidates.once, htaken]
    | optional =>
      rw [enumerates_candidates.optional, enumerates_candidates.optional, htaken, ih,
        List.flatMap_append]
    | repeated => rw [candidates_repeated, candidates_repeated, List.flatMap_assoc, funext ih]

/-- The second sequence is tried from each end of the first in order. -/
theorem Sequence.matchAt_append (s t : Sequence) (pos : Nat) :
    Sequence.matchAt input (s ++ t) pos =
      (Sequence.candidates input s pos).findSome? (Sequence.matchAt input t) := by
  rw [matchAt_eq_head?_candidates, candidates_append, List.head?_flatMap,
    ← funext (matchAt_eq_head?_candidates t)]

theorem Sequence.matchAt_append_of_none {s : Sequence} {pos : Nat}
    (hs : Sequence.matchAt input s pos = none) (t : Sequence) :
    Sequence.matchAt input (s ++ t) pos = none := by
  rw [matchAt_eq_head?_candidates, List.head?_eq_none_iff] at hs
  rw [matchAt_append, hs, List.findSome?_nil]

theorem Sequence.matchAt_append_of_some {s t : Sequence} {pos middle stop : Nat}
    (hs : Sequence.matchAt input s pos = some middle)
    (ht : Sequence.matchAt input t middle = some stop) :
    Sequence.matchAt input (s ++ t) pos = some stop := by
  rw [matchAt_eq_head?_candidates, List.head?_eq_some_iff] at hs
  obtain ⟨others, hs⟩ := hs
  rw [matchAt_append, hs, List.findSome?_cons, ht]

/-- In parentheses a sequence is matched by itself, and what is behind them only from where that
ends. -/
theorem Sequence.matchAt_parenthesised (s t : Sequence) (pos : Nat) :
    Sequence.matchAt input ([⟨.group [s], .once⟩] ++ t) pos =
      (Sequence.matchAt input s pos).bind (Sequence.matchAt input t) := by
  have hgroup : (Atom.group [s]).matchAt input pos = Sequence.matchAt input s pos := by
    rw [Atom.matchAt, firstMatchAt_eq_findSome?, List.findSome?_singleton]
  rw [List.singleton_append, matchAt, hgroup]

/-- **A sequence goes on with its continuation.**  Where `s` does not match, neither does `s ++ t`;
where `t` matches behind the end that is found for `s`, `s ++ t` ends where `t` does.  In
parentheses there is nothing but these two cases, so parentheses can make a match fail, but they
neither add nor move one. -/
theorem Sequence.matchAt_continues (input : Array Char) (s t : Sequence) (pos : Nat) :
    (Sequence.matchAt input s pos = none → Sequence.matchAt input (s ++ t) pos = none) ∧
    (∀ middle stop, Sequence.matchAt input s pos = some middle →
      Sequence.matchAt input t middle = some stop →
        Sequence.matchAt input (s ++ t) pos = some stop) ∧
    Sequence.matchAt input ([⟨.group [s], .once⟩] ++ t) pos =
      (Sequence.matchAt input s pos).bind (Sequence.matchAt input t) ∧
    ∀ stop, Sequence.matchAt input ([⟨.group [s], .once⟩] ++ t) pos = some stop →
      Sequence.matchAt input (s ++ t) pos = some stop := by
  refine ⟨fun hs => matchAt_append_of_none hs t, fun _ _ => matchAt_append_of_some,
    matchAt_parenthesised s t pos, ?_⟩
  intro stop h
  rw [matchAt_parenthesised] at h
  obtain ⟨middle, hs, ht⟩ := Option.bind_eq_some_iff.mp h
  exact matchAt_append_of_some hs ht

/-- On `aab` the `a+` of `a+b` ends where `b` goes on, in parentheses or not, and behind the last `a`
neither matches.  The parentheses of `(a+)ab` lose a match: `a+ab` gives one `a` back. -/
theorem Sequence.matchAt_continues_with_loss :
    let input := #['a', 'a', 'b']
    let s : Sequence := [⟨.single (.literal 'a'), .repeated⟩]
    let b : Sequence := [⟨.single (.literal 'b'), .once⟩]
    let ab : Sequence := ⟨.single (.literal 'a'), .once⟩ :: b
    (Sequence.matchAt input s 2 = none ∧ Sequence.matchAt input (s ++ b) 2 = none) ∧
    (Sequence.matchAt input s 0 = some 2 ∧ Sequence.matchAt input b 2 = some 3 ∧
      Sequence.matchAt input (s ++ b) 0 = some 3) ∧
    (Sequence.matchAt input ([⟨.group [s], .once⟩] ++ b) 0 = some 3 ∧
      Sequence.matchAt input (s ++ b) 0 = some 3) ∧
    Sequence.matchAt input ([⟨.group [s], .once⟩] ++ ab) 0 = none ∧
      Sequence.matchAt input (s ++ ab) 0 = some 3 := by
  intro input s b ab
  have hnone : Sequence.matchAt input s 2 = none := by decide
  have hs : Sequence.matchAt input s 0 = some 2 := by decide
  have hb : Sequence.matchAt input b 2 = some 3 := by decide
  have hgroup : Sequence.matchAt input ([⟨.group [s], .once⟩] ++ b) 0 = some 3 := by decide
  obtain ⟨-, hcontinues, -, hkeeps⟩ := matchAt_continues input s b 0
  exact ⟨⟨hnone, (matchAt_continues input s b 2).1 hnone⟩, ⟨hs, hb, hcontinues 2 3 hs hb⟩,
    ⟨hgroup, hkeeps 3 hgroup⟩, by decide, by decide⟩

end LineSearch
