import LineSearch.Proofs.Matching.Repetition

/-! # Matching does not see what is in front

From a position on, only the characters from there on are looked at, and positions are
compared with each other but not used in any other way.  So with more text in front a
sequence is matched in the same way, and all places are further behind by as much: where an
atom ends, the places that a repetition reaches (`Atom.repetitions_behind`), and where the
sequence ends (`Sequence.matchAt_behind`).

A line can thus be scanned in two ways.  Either the sequence is matched from every start
where it stands in the line, or what is in front of the start is cut off and the sequence
is matched from the beginning of the rest; the same lines match
(`Sequence.matchesLine_iff_suffix`).  And text in front of a line takes no match away from
it, unless the match is held at the start.
-/
namespace LineSearch

/-! ### More text in front -/

/-- Steps that go as far from places further behind reach places further behind by as much. -/
theorem orbit_behind {step step' : Nat → Option Nat} {offset : Nat}
    (hstep : ∀ pos, step' (offset + pos) = (step pos).map (offset + ·)) (room pos : Nat) :
    orbit step' room (offset + pos) = (orbit step room pos).map (offset + ·) := by
  induction room generalizing pos with
  | zero => rfl
  | succ room ih =>
    rw [orbit_succ, orbit_succ, hstep]
    cases step pos with
    | none => rfl
    | some next =>
      by_cases hstay : next = pos
      · simp only [hstay, Option.map_some, if_true, List.map_nil]
      · have hstay' : offset + next ≠ offset + pos := by omega
        simp only [hstay, hstay', Option.map_some, if_false, ih, List.map_cons]

variable {front back : Array Char}

theorem Atom.repetitions_behind {atom : Atom}
    (hatom : ∀ pos, atom.matchAt (front ++ back) (front.size + pos) =
      (atom.matchAt back pos).map (front.size + ·)) (pos : Nat) :
    atom.repetitions (front ++ back) (front.size + pos) =
      (atom.repetitions back pos).map (front.size + ·) := by
  have hroom : (front ++ back).size - (front.size + pos) = back.size - pos := by
    rw [Array.size_append]
    omega
  rw [repetitions, repetitions, hroom, orbit_behind hatom]

/-- With more text in front, atoms and sequences end further behind by as much. -/
theorem hereditary_matchAt_behind : Hereditary
    (fun atom => ∀ pos, atom.matchAt (front ++ back) (front.size + pos) =
      (atom.matchAt back pos).map (front.size + ·))
    (fun s => ∀ pos, Sequence.matchAt (front ++ back) s (front.size + pos) =
      (Sequence.matchAt back s pos).map (front.size + ·)) where
  single test pos := by
    rw [Atom.matchAt, Atom.matchAt, Array.getElem?_append_right (Nat.le_add_right _ _),
      Nat.add_sub_cancel_left]
    split <;> rfl
  group alternatives ih pos := by
    rw [Atom.matchAt, Atom.matchAt]
    induction alternatives with
    | nil => rfl
    | cons alternative rest ihrest =>
      obtain ⟨hfirst, hrest⟩ := List.forall_mem_cons.mp ih
      rw [firstMatchAt, firstMatchAt, hfirst]
      cases Sequence.matchAt back alternative pos with
      | none => exact ihrest hrest
      | some stop => rfl
  nil pos := by
    rw [Sequence.matchAt, Sequence.matchAt, Option.map_some]
  cons atom quantifier tail hatom htail pos := by
    -- what an atom that is taken once leads to
    have htaken : ((atom.matchAt (front ++ back) (front.size + pos)).bind
          fun next => Sequence.matchAt (front ++ back) tail next) =
        ((atom.matchAt back pos).bind fun next => Sequence.matchAt back tail next).map
          (front.size + ·) := by
      rw [hatom]
      cases atom.matchAt back pos with
      | none => rfl
      | some next => exact htail next
    cases quantifier with
    | once => rw [Sequence.matchAt, Sequence.matchAt, htaken]
    | optional =>
      rw [Sequence.matchAt, Sequence.matchAt, htaken]
      cases (atom.matchAt back pos).bind fun next => Sequence.matchAt back tail next with
      | none => exact htail pos
      | some stop => rfl
    | repeated =>
      rw [Sequence.matchAt_repeated, Sequence.matchAt_repeated, Atom.repetitions_behind hatom,
        ← List.map_reverse, List.findSome?_map, List.map_findSome?]
      exact congrArg (List.findSome? · _) (funext htail)

theorem Sequence.matchAt_behind (front back : Array Char) (s : Sequence) (pos : Nat) :
    Sequence.matchAt (front ++ back) s (front.size + pos) =
      (Sequence.matchAt back s pos).map (front.size + ·) :=
  hereditary_matchAt_behind.sequence s pos

/-- What is in front of a position can be cut off. -/
theorem Sequence.matchAt_eq_map_suffix (s : Sequence) {input : Array Char} {pos : Nat}
    (hpos : pos ≤ input.size) :
    Sequence.matchAt input s pos = (Sequence.matchAt (input.extract pos) s 0).map (pos + ·) := by
  have hsplit : input.extract 0 pos ++ input.extract pos = input := by
    rw [Array.extract_append_extract, Nat.zero_min, Nat.max_eq_right hpos, Array.extract_size]
  have hsize : (input.extract 0 pos).size = pos := by
    rw [Array.size_extract]
    omega
  have h := matchAt_behind (input.extract 0 pos) (input.extract pos) s 0
  rwa [hsplit, hsize, Nat.add_zero] at h

/-! ### Lines -/

section Lines
variable {s : Sequence} {anchors : Anchors} {line : List Char}

/-- The sequence is matched from the beginning of every rest of the line. -/
theorem Sequence.matchesLine_iff_suffix :
    s.matchesLine anchors line = true ↔
      ∃ start ≤ line.length, (anchors.atStart = true → start = 0) ∧
        ∃ stop, Sequence.matchAt (line.drop start).toArray s 0 = some stop ∧
          (anchors.atEnd = true → stop = (line.drop start).length) := by
  rw [matchesLine_iff_exists_start]
  refine exists_congr fun start => and_congr_right fun hle => and_congr_right fun _ => ?_
  have hsize : start ≤ line.toArray.size := by rwa [List.size_toArray]
  rw [matchAt_eq_map_suffix s hsize, ← List.toArray_drop, List.length_drop]
  constructor
  · rintro ⟨stop, h, hend⟩
    obtain ⟨taken, htaken, rfl⟩ := Option.map_eq_some_iff.mp h
    refine ⟨taken, htaken, fun hatEnd => ?_⟩
    have := hend hatEnd
    omega
  · rintro ⟨taken, htaken, hend⟩
    refine ⟨start + taken, by rw [htaken, Option.map_some], fun hatEnd => ?_⟩
    have := hend hatEnd
    omega

/-- Text in front of a line takes no match away from it, unless the match is held at the start. -/
theorem Sequence.matchesLine_append_left {atEnd : Bool}
    (h : s.matchesLine ⟨false, atEnd⟩ line = true) (before : List Char) :
    s.matchesLine ⟨false, atEnd⟩ (before ++ line) = true := by
  obtain ⟨start, hle, -, stop, hstop, hend⟩ := matchesLine_iff_exists_start.mp h
  rw [matchesLine_iff_exists_start]
  refine ⟨before.length + start, ?_, Bool.noConfusion, before.length + stop, ?_, ?_⟩
  · rw [List.length_append]
    omega
  · have hbehind := matchAt_behind before.toArray line.toArray s start
    rwa [List.append_toArray, List.size_toArray, hstop, Option.map_some] at hbehind
  · intro hatEnd
    rw [List.length_append, hend hatEnd]

end Lines

/-- **Matching in a suffix is matching in place.**  From a position within the text a sequence ends
where it does in the rest of the text, counted from there.  So a line matches if the sequence matches
where it stands in the line, or, which is the same, in a rest of the line, from and to places that the
anchors allow; and more text in front of a line takes no match away that is not held at the start. -/
theorem Sequence.matchAt_in_suffix (s : Sequence) :
    (∀ (input : Array Char) (pos : Nat), pos ≤ input.size →
      Sequence.matchAt input s pos =
        (Sequence.matchAt (input.extract pos) s 0).map (pos + ·)) ∧
    (∀ (anchors : Anchors) (line : List Char),
      (s.matchesLine anchors line = true ↔
        ∃ start ≤ line.length, (anchors.atStart = true → start = 0) ∧
          ∃ stop, Sequence.matchAt line.toArray s start = some stop ∧
            (anchors.atEnd = true → stop = line.length)) ∧
      (s.matchesLine anchors line = true ↔
        ∃ start ≤ line.length, (anchors.atStart = true → start = 0) ∧
          ∃ stop, Sequence.matchAt (line.drop start).toArray s 0 = some stop ∧
            (anchors.atEnd = true → stop = (line.drop start).length))) ∧
    ∀ (atEnd : Bool) (before line : List Char), s.matchesLine ⟨false, atEnd⟩ line = true →
      s.matchesLine ⟨false, atEnd⟩ (before ++ line) = true :=
  ⟨fun _ _ => matchAt_eq_map_suffix s,
    fun _ _ => ⟨matchesLine_iff_exists_start, matchesLine_iff_suffix⟩,
    fun _ before _ h => matchesLine_append_left h before⟩

/-- The repetition of `(ab?)+c` ends in `xabac` where it does in `abac`, by one further behind, and the
line matches at its end with the `x` in front as without it. -/
theorem Sequence.matchAt_in_suffix_repeated :
    let s : Sequence := [⟨.group [[⟨.single (.literal 'a'), .once⟩,
      ⟨.single (.literal 'b'), .optional⟩]], .repeated⟩, ⟨.single (.literal 'c'), .once⟩]
    (1 ≤ #['x', 'a', 'b', 'a', 'c'].size ∧
      Sequence.matchAt #['x', 'a', 'b', 'a', 'c'] s 1 =
        (Sequence.matchAt #['a', 'b', 'a', 'c'] s 0).map (1 + ·) ∧
      Sequence.matchAt #['a', 'b', 'a', 'c'] s 0 = some 4) ∧
    s.matchesLine ⟨false, true⟩ ['a', 'b', 'a', 'c'] = true ∧
      s.matchesLine ⟨false, true⟩ (['x'] ++ ['a', 'b', 'a', 'c']) = true := by
  intro s
  have hsize : 1 ≤ #['x', 'a', 'b', 'a', 'c'].size := by decide
  have hline : s.matchesLine ⟨false, true⟩ ['a', 'b', 'a', 'c'] = true := by decide
  exact ⟨⟨hsize, (matchAt_in_suffix s).1 _ 1 hsize, by decide⟩, hline,
    (matchAt_in_suffix s).2.2 true ['x'] _ hline⟩

end LineSearch
