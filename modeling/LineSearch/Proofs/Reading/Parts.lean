import LineSearch.Proofs.Reading.FlatScan
import LineSearch.Proofs.Reading.Shifting
import LineSearch.Proofs.Reading.Source

/-! # Reading a text in two parts

Let a text begin with a part that is an expression by itself.  Behind that part no group, no
set and no escape is open, so the rest is read as if it stood alone.  Whether the rest is
malformed, and how, does not depend on the nodes that are there already, only on the
position (`Reader.run_result_eq_error_iff`); and the spelling of two sequences, one behind
the other, is a spelling of both together, unless a literal mark at the beginning of the
second belongs to the last node of the first.

So there is one exception: a mark at the beginning of the rest belongs to the last node of
the first part, if that has none.  Then the mark is read with the first part
(`Sequence.read_append_mark`), which has a quantifier at its end from there on, and there is
no other exception behind it.
-/
namespace LineSearch

/-! ### The same errors behind any nodes -/

/-- Whether a text is malformed, and how, does not depend on the nodes in front of it. -/
theorem Reader.run_result_eq_error_iff {offset : Nat} {nodes : List Node}
    {groups : List OpenGroup} {text : List Char} {e : PatternError} :
    ((⟨offset, nodes, groups, .node⟩ : Reader).run text).result = .error e ↔
      flatScan offset (groups.map OpenGroup.start) text = .error e := by
  have hscan : ((⟨offset, nodes, groups, .node⟩ : Reader).run text).result.map (fun _ => ()) =
      flatScan offset (groups.map OpenGroup.start) text := run_result_eq_flatScan _ _ _ rfl
  rw [← hscan]
  cases ((⟨offset, nodes, groups, .node⟩ : Reader).run text).result with
  | error _ => exact ⟨congrArg _, fun h => congrArg _ (Except.error.inj h)⟩
  | ok _ => exact ⟨nofun, nofun⟩

/-- A mark is one byte long, and the one quantifier without a mark has none. -/
theorem Quantifier.of_mark_eq {quantifier : Quantifier} {mark : Char}
    (h : quantifier.mark = [mark]) : quantifier ≠ .once ∧ mark.utf8Size = 1 := by
  cases quantifier with
  | once => cases h
  | optional | repeated =>
    cases h
    exact ⟨nofun, rfl⟩

namespace Sequence

/-- Behind an expression the reader holds its nodes, and nothing is open. -/
theorem read_append_eq_run {p : String} {s : Sequence} (hp : Sequence.read p = .ok s)
    (q : String) : Sequence.read (p ++ q) =
      ((⟨p.utf8ByteSize, s.reverse, [], .node⟩ : Reader).run q.toList).result := by
  have hthrough : (⟨0, [], [], .node⟩ : Reader).through p.toList =
      .ok ⟨0 + byteCount p.toList, s.reverse ++ [], [], .node⟩ :=
    (spelled_of_read hp).through rfl nofun
  rw [Nat.zero_add, List.append_nil, ← utf8ByteSize_eq_byteCount] at hthrough
  rw [read, Reading.startingAt, String.toList_append, Reader.run_of_through hthrough]

/-! ### Where the parts meet -/

/-- No mark at the beginning of the text belongs to the last node of the sequence. -/
def ApartFrom (s : Sequence) (text : List Char) : Prop :=
  ∀ last ∈ s.getLast?, last.quantifier = .once →
    text.head? ≠ some '?' ∧ text.head? ≠ some '+'

theorem ApartFrom.mayPrecede {s t : Sequence} {text : List Char} (h : s.ApartFrom text)
    (ht : t.Spelled false text) : s.MayPrecede t := by
  intro last hlast next hnext honce
  obtain ⟨hopt, hrep⟩ := h last hlast honce
  constructor
  · intro hmark
    exact hopt ((ht.head?_iff (by decide)).mpr ⟨next, hnext, hmark⟩)
  · intro hmark
    exact hrep ((ht.head?_iff (by decide)).mpr ⟨next, hnext, hmark⟩)

/-- Apart from the first part the rest is read as if it stood alone. -/
theorem read_append_of_apart {p q : String} {s : Sequence} (hp : Sequence.read p = .ok s)
    (hapart : s.ApartFrom q.toList) :
    Sequence.read (p ++ q) =
      ((Sequence.read q).map (s ++ ·)).mapError (PatternError.shift p.utf8ByteSize) := by
  cases hq : Sequence.read q with
  | ok t =>
    have ht := spelled_of_read hq
    apply read_of_spelled
    rw [String.toList_append]
    exact spelled_append_iff.mpr ⟨_, _, rfl, spelled_of_read hp, ht, hapart.mayPrecede ht⟩
  | error e =>
    have hbehind : (Reading.startingAt p.utf8ByteSize q.toList).result =
        .error (e.shift p.utf8ByteSize) := by
      rw [Reading.startingAt_eq_shift, Reading.shift]
      exact congrArg (Except.mapError _) hq
    rw [read_append_eq_run hp]
    exact Reader.run_result_eq_error_iff.mpr (Reader.run_result_eq_error_iff.mp hbehind)

/-- A mark behind an expression quantifies its last node, if that has no quantifier. -/
theorem read_append_mark {p : String} {before : Sequence} {atom : Atom}
    (hp : Sequence.read p = .ok (before ++ [⟨atom, .once⟩])) {quantifier : Quantifier} {mark : Char}
    (hmark : quantifier.mark = [mark]) :
    Sequence.read (p ++ String.singleton mark) = .ok (before ++ [⟨atom, quantifier⟩]) := by
  have hopen : OpenText [] (⟨atom, .once⟩ :: before.reverse) p.toList := by
    refine .outside ?_
    rw [List.reverse_cons, List.reverse_reverse]
    exact spelled_of_read hp
  have hquantified : OpenText [] (⟨atom, quantifier⟩ :: before.reverse)
      (p.toList ++ quantifier.mark) := hopen.quantify
  cases hquantified with
  | outside hspelled =>
    rw [List.reverse_cons, List.reverse_reverse, hmark] at hspelled
    apply read_of_spelled
    rwa [String.toList_append, String.toList_singleton]

/-- A text that begins with a mark. -/
theorem exists_mark {q : String} (h : q.toList.head? = some '?' ∨ q.toList.head? = some '+') :
    ∃ quantifier : Quantifier, ∃ mark rest, quantifier.mark = [mark] ∧
      q = String.singleton mark ++ rest := by
  have hcut : ∀ mark, q.toList.head? = some mark → ∃ rest, q = String.singleton mark ++ rest := by
    intro mark hhead
    obtain ⟨rest, hrest⟩ := List.head?_eq_some_iff.mp hhead
    refine ⟨String.ofList rest, String.toList_inj.mp ?_⟩
    rw [hrest, String.toList_append, String.toList_singleton, String.toList_ofList]
    rfl
  rcases h with hopt | hrep
  · obtain ⟨rest, hq⟩ := hcut '?' hopt
    exact ⟨.optional, '?', rest, rfl, hq⟩
  · obtain ⟨rest, hq⟩ := hcut '+' hrep
    exact ⟨.repeated, '+', rest, rfl, hq⟩

/-- **A text is read in two parts, if the first is an expression by itself.**  If that is empty, or
its last node has a quantifier already, or no mark stands at the beginning of the rest, the nodes of
the rest follow those of the first part, and an error in the rest is further behind by the length of
the first part.  Otherwise the mark is the quantifier of the last node, and what stands behind the
mark is read in this way. -/
theorem read_append (p q : String) (s : Sequence) (hp : Sequence.read p = .ok s) :
    let apart := p = "" ∨ (q.toList.head? ≠ some '?' ∧ q.toList.head? ≠ some '+') ∨
      ∃ last ∈ s.getLast?, last.quantifier ≠ .once
    (apart → Sequence.read (p ++ q) =
      ((Sequence.read q).map (s ++ ·)).mapError (PatternError.shift p.utf8ByteSize)) ∧
    (¬ apart → ∃ before atom, ∃ quantifier : Quantifier, ∃ mark rest,
      s = before ++ [⟨atom, .once⟩] ∧ quantifier.mark = [mark] ∧
      q = String.singleton mark ++ rest ∧
      Sequence.read (p ++ q) =
        ((Sequence.read rest).map (before ++ [⟨atom, quantifier⟩] ++ ·)).mapError
          (PatternError.shift (p.utf8ByteSize + 1))) := by
  intro apart
  constructor
  · intro hapart
    apply read_append_of_apart hp
    intro last hlast honce
    rcases hapart with rfl | hhead | ⟨other, hother, hquantified⟩
    · obtain rfl : [] = s := Except.ok.inj hp
      cases hlast
    · exact hhead
    · obtain rfl : last = other := Option.mem_unique hlast hother
      exact absurd honce hquantified
  · intro hmeets
    simp only [apart, not_or, not_exists, not_and, not_not] at hmeets
    obtain ⟨hne, hmark, honce⟩ := hmeets
    have hs : s ≠ [] := by
      rintro rfl
      exact hne (String.toList_eq_nil_iff.mp (spelled_nil_iff.mp (spelled_of_read hp)))
    obtain ⟨before, ⟨atom, given⟩, rfl⟩ := (List.eq_nil_or_concat s).resolve_left hs
    rw [List.concat_eq_append] at hp honce ⊢
    obtain rfl : given = .once := honce _ (List.getLast?_concat ..)
    obtain ⟨quantifier, mark, rest, hquantifier, rfl⟩ :=
      exists_mark (Decidable.or_iff_not_imp_left.mpr hmark)
    refine ⟨before, atom, quantifier, mark, rest, rfl, hquantifier, rfl, ?_⟩
    obtain ⟨hmarked, hsingle⟩ := Quantifier.of_mark_eq hquantifier
    -- with the mark the first part has a quantifier at its end
    have hlonger := read_append_mark hp hquantifier
    have hsize : (p ++ String.singleton mark).utf8ByteSize = p.utf8ByteSize + 1 := by
      rw [String.utf8ByteSize_append, String.utf8ByteSize_singleton, hsingle]
    have hapart : ApartFrom (before ++ [⟨atom, quantifier⟩]) rest.toList := by
      intro last hlast hlastOnce
      rw [List.getLast?_concat] at hlast
      obtain rfl : _ = last := Option.some.inj hlast
      exact absurd hlastOnce hmarked
    rw [← String.append_assoc, read_append_of_apart hlonger hapart, hsize]

/-- Behind `(é)+` the `?` is a literal, and the escape at fault is six bytes from the beginning.  Behind
`(é)` the `+` is the mark of the group, and the error is that of what follows the mark. -/
theorem read_append_group_and_mark :
    let group : Atom := .group [[⟨.single (.literal 'é'), .once⟩]]
    (Sequence.read "(é)+" = .ok [⟨group, .repeated⟩] ∧
      Sequence.read ("(é)+" ++ "?\\q") = .error (.unsupportedEscape 6 'q')) ∧
    Sequence.read "(é)" = .ok [⟨group, .once⟩] ∧
      ∃ before atom, ∃ quantifier : Quantifier, ∃ mark rest,
        [⟨group, .once⟩] = before ++ [⟨atom, .once⟩] ∧ quantifier.mark = [mark] ∧
        "+\\q" = String.singleton mark ++ rest ∧
        Sequence.read ("(é)" ++ "+\\q") =
          ((Sequence.read rest).map (before ++ [⟨atom, quantifier⟩] ++ ·)).mapError
            (PatternError.shift 5) := by
  intro group
  have hmarked : Sequence.read "(é)+" = .ok [⟨group, .repeated⟩] := rfl
  have hunmarked : Sequence.read "(é)" = .ok [⟨group, .once⟩] := rfl
  obtain ⟨hapart, -⟩ := read_append "(é)+" "?\\q" _ hmarked
  obtain ⟨-, hmeets⟩ := read_append "(é)" "+\\q" _ hunmarked
  refine ⟨⟨hmarked, ?_⟩, hunmarked, ?_⟩
  · exact hapart (.inr (.inr ⟨_, rfl, nofun⟩))
  · apply hmeets
    rintro (hempty | ⟨-, hplus⟩ | ⟨last, hlast, hquantified⟩)
    · exact absurd hempty (by decide)
    · exact hplus rfl
    · obtain rfl : _ = last := Option.some.inj hlast
      exact hquantified rfl

end Sequence
end LineSearch
