import LineSearch.Proofs.Reading.Positions

/-! # Reading on behind an error

Where a reading stops can be told from its result (`StopsAt`): at the end of the text, or
behind the opening bracket of the set, or behind the escape at fault.  What is at fault begins
not before the position from which the reading began, because every construct that is open begins
between that position and the reader's (`Reader.OpenedSince`), and it begins before the position at
which the reading stops.

So the cursor can be used again: reading on from where the last reading stopped meets ever
later errors, at most as many as there are bytes, and then reads the rest of the text.  It does
not matter that a reading resumed within a group does not know of the group any more.
-/
namespace LineSearch

/-- A reading of a text of `length` bytes that has this result stops at `stop`. -/
def StopsAt (length stop : Nat) : Except PatternError Sequence → Prop
  | .ok _ => stop = length
  | .error (.unclosedGroup _) => stop = length
  | .error (.danglingEscape offset) => stop = length ∧ stop = offset + 1
  | .error (.unclosedSet offset) => stop = offset + 1
  | .error (.unsupportedEscape offset c) => stop = offset + 1 + c.utf8Size

namespace Reader

/-- All constructs that are open begin at `start` or behind it, and an escape or a set is open only
as far as its first character. -/
structure OpenedSince (start : Nat) (r : Reader) : Prop where
  le_offset : start ≤ r.offset
  groups : ∀ g ∈ r.groups, start ≤ g.start ∧ g.start < r.offset
  escape : ∀ place, r.expecting = .escape place → start ≤ place ∧ place + 1 = r.offset
  set : ∀ place seen, r.expecting = .set place seen → start ≤ place ∧ place + 1 = r.offset

variable {start : Nat} {text left : List Char} {r next last : Reader}

/-- A turn keeps this. -/
theorem OpenedSince.takes {taken : List Char} (h : r.OpenedSince start)
    (htakes : TurnTakes r taken next) : next.OpenedSince start := by
  have hle : r.offset ≤ next.offset := htakes.offset_eq ▸ Nat.le_add_right _ _
  have hgroups : ∀ g ∈ r.groups, start ≤ g.start ∧ g.start < next.offset := fun g hg =>
    ⟨(h.groups g hg).1, Nat.lt_of_lt_of_le (h.groups g hg).2 hle⟩
  have hoffset : start ≤ next.offset := Nat.le_trans h.le_offset hle
  cases htakes with
  | node hstep hnode =>
    cases hnode with
    | atom | quantify => exact ⟨hoffset, hgroups, nofun, nofun⟩
    | openGroup =>
      exact ⟨hoffset, List.forall_mem_cons.mpr ⟨⟨h.le_offset, Nat.lt_succ_self _⟩, hgroups⟩, nofun,
        nofun⟩
    | nextAlternative =>
      exact ⟨hoffset, List.forall_mem_cons.mpr (List.forall_mem_cons.mp hgroups), nofun, nofun⟩
    | closeGroup => exact ⟨hoffset, (List.forall_mem_cons.mp hgroups).2, nofun, nofun⟩
    | openSet =>
      refine ⟨hoffset, hgroups, nofun, fun place seen hset => ?_⟩
      cases hset
      exact ⟨h.le_offset, rfl⟩
    | openEscape =>
      refine ⟨hoffset, hgroups, fun place hescape => ?_, nofun⟩
      cases hescape
      exact ⟨h.le_offset, rfl⟩
  | escape | set => exact ⟨hoffset, hgroups, nofun, nofun⟩

/-- And so do turns. -/
theorem OpenedSince.visits (h : r.OpenedSince start) (hplace : InPlace text r left)
    (hvisits : Visits text r last) : last.OpenedSince start := by
  induction hvisits with
  | refl => exact h
  | tail hbefore hturn ih =>
    obtain ⟨before, hmiddle⟩ := hplace.visits hbefore
    obtain ⟨taken, later, -, htakes⟩ := hmiddle.takes_of_goesOn hturn
    exact ih.takes htakes

/-- Where a reading ends. -/
theorem OpenedSince.ends {reading : Reading} (h : r.OpenedSince start) (hplace : InPlace text r left)
    (hends : TurnEnds r left reading) :
    StopsAt (byteCount text) reading.stop reading.result ∧
      ∀ e, reading.result = .error e → start ≤ e.offset ∧ e.offset < reading.stop := by
  cases hends with
  | finish hunset =>
    have hlength : r.offset = byteCount text := (byteCount_of_dropBytes hplace.ahead).symm
    obtain ⟨offset, nodes, groups, expecting⟩ := r
    cases expecting with
    | node =>
      cases groups with
      | nil => exact ⟨hlength, nofun⟩
      | cons g outer =>
        refine ⟨hlength, fun e he => ?_⟩
        cases he
        exact h.groups g List.mem_cons_self
    | escape place =>
      obtain ⟨hle, hnext⟩ := h.escape place rfl
      refine ⟨⟨hlength, hnext.symm⟩, fun e he => ?_⟩
      cases he
      exact ⟨hle, Nat.lt_of_succ_le (Nat.le_of_eq hnext)⟩
    | set place seen => exact absurd rfl (hunset place seen)
  | @unclosedSet offset nodes groups place _ hleft =>
    obtain ⟨hle, hnext⟩ := h.set place [] rfl
    refine ⟨hnext.symm, fun e he => ?_⟩
    cases he
    exact ⟨hle, Nat.lt_of_succ_le (Nat.le_of_eq hnext)⟩
  | @unsupportedEscape offset nodes groups place c rest hd hw =>
    obtain ⟨hle, hnext⟩ := h.escape place rfl
    refine ⟨congrArg (· + c.utf8Size) hnext.symm, fun e he => ?_⟩
    cases he
    exact ⟨hle, Nat.lt_of_lt_of_le (Nat.lt_of_succ_le (Nat.le_of_eq hnext)) (Nat.le_add_right _ _)⟩

end Reader

/-! ## Reading again and again -/

namespace Cursor

/-- What comes of reading so many times, each time from where the reading before stopped, and where
the cursor stands then. -/
def readTimes : Nat → Cursor → Option (List (Except PatternError Sequence) × Cursor)
  | 0, cursor => some ([], cursor)
  | n + 1, cursor =>
    match cursor.read with
    | none => none
    | some (result, moved) =>
      (readTimes n moved).map fun (results, last) => (result :: results, last)

theorem readTimes_succ {cursor moved last : Cursor} {result : Except PatternError Sequence}
    {results : List (Except PatternError Sequence)} {n : Nat}
    (hread : cursor.read = some (result, moved)) (hmore : moved.readTimes n = some (results, last)) :
    cursor.readTimes (n + 1) = some (result :: results, last) := by
  rw [readTimes, hread]
  simp only [hmore, Option.map_some]

/-- The cursor at the end of its text. -/
def atEnd (cursor : Cursor) : Cursor := { cursor with position := cursor.text.utf8ByteSize }

/-- **A reading stops where its result says**, and an error is between the position where the reading
began and the one where it stops. -/
theorem exists_read {cursor : Cursor} {left : List Char}
    (h : dropBytes cursor.position cursor.text.toList = some left) :
    ∃ result stop later, cursor.read = some (result, { cursor with position := stop }) ∧
      StopsAt cursor.text.utf8ByteSize stop result ∧
      dropBytes stop cursor.text.toList = some later ∧ stop ≤ cursor.text.utf8ByteSize ∧
      ∀ e, result = .error e → cursor.position ≤ e.offset ∧ e.offset < stop := by
  have hplace := reader_inPlace h
  have hopened : cursor.reader.OpenedSince cursor.position := ⟨Nat.le_refl _, nofun, nofun, nofun⟩
  obtain ⟨last, rest, hvisits, hlast, -, hends⟩ := hplace.exists_last
  obtain ⟨hstops, herror⟩ := (hopened.visits hplace hvisits).ends hlast hends
  obtain ⟨later, hlater⟩ := hlast.stop hends
  rw [← utf8ByteSize_eq_byteCount] at hstops
  refine ⟨_, _, later, read_of_dropBytes h, hstops, hlater, ?_, herror⟩
  rw [utf8ByteSize_eq_byteCount, byteCount_of_dropBytes hlater]
  exact Nat.le_add_right _ _

/-- At the end of a text nothing is left to be read. -/
theorem readTimes_atEnd (cursor : Cursor) (n : Nat) :
    cursor.atEnd.readTimes n = some (List.replicate n (.ok []), cursor.atEnd) := by
  have hend : dropBytes cursor.atEnd.position cursor.text.toList = some [] := by
    refine dropBytes_eq_some_iff.mpr ⟨cursor.text.toList, (List.append_nil _).symm, ?_⟩
    exact (utf8ByteSize_eq_byteCount _).symm
  have hread : cursor.atEnd.read = some (.ok [], cursor.atEnd) := read_of_dropBytes hend
  induction n with
  | zero => rfl
  | succ n ih => exact readTimes_succ hread ih

/-- The errors of reading again and again. -/
theorem exists_errors {cursor : Cursor} {left : List Char}
    (h : dropBytes cursor.position cursor.text.toList = some left) :
    ∃ (errors : List PatternError) (s : Sequence),
      errors.length ≤ cursor.text.utf8ByteSize - cursor.position ∧
      (∀ e ∈ errors, cursor.position ≤ e.offset) ∧
      errors.Pairwise (fun e later => e.offset < later.offset) ∧
      ∀ n, cursor.readTimes (errors.length + 1 + n) =
        some (errors.map .error ++ .ok s :: List.replicate n (.ok []), cursor.atEnd) := by
  induction hroom : cursor.text.utf8ByteSize - cursor.position using Nat.strong_induction_on
    generalizing cursor left with
  | _ room ih =>
    obtain ⟨result, stop, later, hread, hstops, hlater, hle, herror⟩ := exists_read h
    cases result with
    | ok s =>
      obtain rfl : stop = cursor.text.utf8ByteSize := hstops
      refine ⟨[], s, Nat.zero_le _, nofun, .nil, fun n => ?_⟩
      rw [List.length_nil, Nat.zero_add, Nat.add_comm]
      exact readTimes_succ hread (cursor.readTimes_atEnd n)
    | error e =>
      -- the position has moved beyond the error, so there is less room for errors
      obtain ⟨hfrom, hbefore⟩ := herror e rfl
      have hless : cursor.text.utf8ByteSize - stop < room := by omega
      have hnext : dropBytes (Cursor.mk cursor.text stop).position cursor.text.toList = some later :=
        hlater
      obtain ⟨errors, s, hlength, hbehind, hincreasing, htimes⟩ := ih _ hless hnext rfl
      refine ⟨e :: errors, s, ?_, ?_, ?_, fun n => ?_⟩
      · rw [List.length_cons]
        omega
      · refine List.forall_mem_cons.mpr ⟨hfrom, fun e' he' => ?_⟩
        have := hbehind e' he'
        simp only at this
        omega
      · exact List.pairwise_cons.mpr
          ⟨fun e' he' => Nat.lt_of_lt_of_le hbefore (hbehind e' he'), hincreasing⟩
      · rw [List.length_cons, Nat.add_right_comm _ 1 n]
        exact readTimes_succ hread (htimes n)

/-- **Reading on from where reading stopped comes to the end of the text.**  From a position where a
character begins or the text ends, a reading stops where its result says, such a place again, and an
error lies between the two positions, so the second is beyond the first.  Reading again and again
gives errors at ever later places, no more than there are bytes ahead, then the rest of the text up
to its end, and from then on nothing more. -/
theorem reads_on_to_the_end (cursor : Cursor)
    (hvalid : (⟨cursor.position⟩ : String.Pos.Raw).IsValid cursor.text) :
    let length := cursor.text.utf8ByteSize
    (∃ result stop, cursor.read = some (result, { cursor with position := stop }) ∧
      StopsAt length stop result ∧
      (⟨stop⟩ : String.Pos.Raw).IsValid cursor.text ∧ stop ≤ length ∧
      ∀ e, result = .error e → cursor.position ≤ e.offset ∧ e.offset < stop) ∧
    ∃ (errors : List PatternError) (s : Sequence), errors.length ≤ length - cursor.position ∧
      errors.Pairwise (fun e later => e.offset < later.offset) ∧
      ∀ n, cursor.readTimes (errors.length + 1 + n) =
        some (errors.map .error ++ .ok s :: List.replicate n (.ok []),
          { cursor with position := length }) := by
  intro length
  obtain ⟨left, hleft⟩ := isValid_iff_dropBytes.mp hvalid
  constructor
  · obtain ⟨result, stop, later, hread, hstops, hlater, hle, herror⟩ := exists_read hleft
    exact ⟨result, stop, hread, hstops, isValid_iff_dropBytes.mpr ⟨later, hlater⟩, hle, herror⟩
  · obtain ⟨errors, s, hlength, -, hincreasing, htimes⟩ := exists_errors hleft
    exact ⟨errors, s, hlength, hincreasing, htimes⟩

/-- Behind the escape at fault the group is forgotten, so that `|` and `)` are ordinary characters,
but the set that is not closed is found. -/
theorem reads_on_to_the_end_out_of_group :
    (⟨"(\\q|[b)", 0⟩ : Cursor).readTimes 4 =
      some ([.error (.unsupportedEscape 1 'q'), .error (.unclosedSet 4),
        .ok [⟨.single (.literal 'b'), .once⟩, ⟨.single (.literal ')'), .once⟩], .ok []],
        ⟨"(\\q|[b)", 7⟩) ∧
    ∃ (errors : List PatternError) (s : Sequence), errors.length ≤ 7 ∧
      ∀ n, (⟨"(\\q|[b)", 0⟩ : Cursor).readTimes (errors.length + 1 + n) =
        some (errors.map .error ++ .ok s :: List.replicate n (.ok []), ⟨"(\\q|[b)", 7⟩) := by
  have hescape : (⟨"(\\q|[b)", 0⟩ : Cursor).read =
      some (.error (.unsupportedEscape 1 'q'), ⟨"(\\q|[b)", 3⟩) := rfl
  have hset : (⟨"(\\q|[b)", 3⟩ : Cursor).read =
      some (.error (.unclosedSet 4), ⟨"(\\q|[b)", 5⟩) := rfl
  have hrest : (⟨"(\\q|[b)", 5⟩ : Cursor).read =
      some (.ok [⟨.single (.literal 'b'), .once⟩, ⟨.single (.literal ')'), .once⟩],
        ⟨"(\\q|[b)", 7⟩) := rfl
  have hagain := readTimes_succ hescape (readTimes_succ hset (readTimes_succ hrest
    (readTimes_atEnd ⟨"(\\q|[b)", 7⟩ 1)))
  have hvalid : (⟨0⟩ : String.Pos.Raw).IsValid "(\\q|[b)" := String.Pos.Raw.isValid_zero
  obtain ⟨-, errors, s, hlength, -, htimes⟩ := reads_on_to_the_end ⟨"(\\q|[b)", 0⟩ hvalid
  exact ⟨hagain, errors, s, hlength, htimes⟩

end Cursor
end LineSearch
