import LineSearch.Pattern.Cursor
import LineSearch.Proofs.Reading.FlatScan
import LineSearch.Proofs.Reading.Shifting
import Mathlib.Logic.Relation

/-! # Reading by byte positions

A `Cursor` finds what lies ahead of it once and reads that to the end.  The same reading
can be done with nothing but the whole text and the reader's own byte position: at each
**turn** the reader looks at the text from its position, takes a character, or a set up to
its `]`, and moves the position behind that (`Reader.turn`).  Looking is only possible where
a character begins or the text ends, so every move must hit such a place, whatever was taken
and from wherever the reading began.

It does.  `TurnTakes` and `TurnEnds` say once what a turn can do.  From them it follows that
the position keeps apart what has been taken and what is left (`Reader.InPlace`), that no
turn gets stuck, and that the turns come to the same end as reading what is left
(`Reader.InPlace.exists_last`).
-/
namespace LineSearch

/-! ## Places in a text -/

theorem dropBytes_byteCount (before rest : List Char) :
    dropBytes (byteCount before) (before ++ rest) = some rest := by
  induction before with
  | nil => rw [byteCount_nil, dropBytes, List.nil_append]
  | cons c before ih =>
    obtain ⟨n, hn⟩ : ∃ n, c.utf8Size + byteCount before = n + 1 :=
      Nat.exists_eq_add_one.mpr (Nat.add_pos_left c.utf8Size_pos _)
    have hrest : n + 1 - c.utf8Size = byteCount before := by omega
    rw [byteCount_cons, hn, List.cons_append, dropBytes, if_pos (by omega), hrest, ih]

/-- What remains behind so many bytes is found by cutting the text into two. -/
theorem dropBytes_eq_some_iff {n : Nat} {text rest : List Char} :
    dropBytes n text = some rest ↔ ∃ before, text = before ++ rest ∧ byteCount before = n := by
  constructor
  · intro h
    fun_induction dropBytes n text with
    | case1 text => exact ⟨[], Option.some.inj h, rfl⟩
    | case2 => cases h
    | case3 n c tail hfits ih =>
      obtain ⟨before, rfl, hcount⟩ := ih h
      exact ⟨c :: before, rfl, by rw [byteCount_cons, hcount]; omega⟩
    | case4 => cases h
  · rintro ⟨before, rfl, rfl⟩
    exact dropBytes_byteCount before rest

/-- Taking more from what is left. -/
theorem dropBytes_add {n : Nat} {text taken left : List Char}
    (h : dropBytes n text = some (taken ++ left)) :
    dropBytes (n + byteCount taken) text = some left := by
  obtain ⟨before, rfl, rfl⟩ := dropBytes_eq_some_iff.mp h
  exact dropBytes_eq_some_iff.mpr
    ⟨before ++ taken, (List.append_assoc _ _ _).symm, byteCount_append _ _⟩

theorem byteCount_of_dropBytes {n : Nat} {text left : List Char}
    (h : dropBytes n text = some left) : byteCount text = n + byteCount left := by
  obtain ⟨before, rfl, rfl⟩ := dropBytes_eq_some_iff.mp h
  exact byteCount_append before left

/-- A text can be looked at from the positions at which a character begins or the text ends. -/
theorem isValid_iff_dropBytes {text : String} {n : Nat} :
    (⟨n⟩ : String.Pos.Raw).IsValid text ↔ ∃ left, dropBytes n text.toList = some left := by
  rw [String.Pos.Raw.isValid_iff_exists_append]
  constructor
  · rintro ⟨before, rest, rfl, hn⟩
    refine ⟨rest.toList, dropBytes_eq_some_iff.mpr ⟨before.toList, String.toList_append, ?_⟩⟩
    rw [← utf8ByteSize_eq_byteCount]
    exact (congrArg String.Pos.Raw.byteIdx hn).symm
  · rintro ⟨left, hleft⟩
    obtain ⟨before, htext, rfl⟩ := dropBytes_eq_some_iff.mp hleft
    refine ⟨String.ofList before, String.ofList left, ?_, ?_⟩
    · rw [← String.ofList_append, ← htext, String.ofList_toList]
    · refine String.Pos.Raw.ext ?_
      show byteCount before = (String.ofList before).utf8ByteSize
      rw [utf8ByteSize_eq_byteCount, String.toList_ofList]

/-! ## Turns -/

/-- What a reader comes to by looking at the text from its own position. -/
inductive Turn
  /-- No character begins at the position and the text does not end there. -/
  | stuck
  /-- The reading ends. -/
  | ends (reading : Reading)
  /-- The reading goes on, from where the next reader stands. -/
  | goesOn (next : Reader)

namespace Reader

/-- What a reader does with what it finds ahead.  A set is looked through for its `]`. -/
def look (r : Reader) (ahead : List Char) : Turn :=
  match r.expecting with
  | .set start _ =>
    match ahead.dropWhile (· != ']') with
    | [] => .ends ⟨.error (.unclosedSet start), r.offset⟩
    | _ :: _ =>
      let body := ahead.takeWhile (· != ']')
      .goesOn ({ r with offset := r.offset + byteCount body + 1 }.push (.single (setTest body)))
  | _ =>
    match ahead with
    | [] => .ends r.finish
    | c :: _ =>
      match r.step c with
      | .ok next => .goesOn next
      | .error reading => .ends reading

/-- One turn of a reader: it looks at the text from its position. -/
def turn (text : List Char) (r : Reader) : Turn :=
  match dropBytes r.offset text with
  | none => .stuck
  | some ahead => r.look ahead

/-- The readers that come about from one by turns. -/
def Visits (text : List Char) : Reader → Reader → Prop :=
  Relation.ReflTransGen fun r next => r.turn text = .goesOn next

/-- What a turn that goes on can do: it takes some characters. -/
inductive TurnTakes : Reader → List Char → Reader → Prop
  | node {offset nodes groups c next} :
      (⟨offset, nodes, groups, .node⟩ : Reader).step c = .ok next →
      NodeStep offset nodes groups c next → TurnTakes ⟨offset, nodes, groups, .node⟩ [c] next
  | escape {offset nodes groups start c test} : (c = 'd' ∧ test = .digit) ∨ (c = 'w' ∧ test = .word) →
      TurnTakes ⟨offset, nodes, groups, .escape start⟩ [c]
        ⟨offset + 1, ⟨.single test, .once⟩ :: nodes, groups, .node⟩
  | set {offset nodes groups start body} : ']' ∉ body →
      TurnTakes ⟨offset, nodes, groups, .set start []⟩ (body ++ [']'])
        ⟨offset + byteCount body + 1, ⟨.single (setTest body), .once⟩ :: nodes, groups, .node⟩

/-- How a turn can end the reading, with so much of the text left. -/
inductive TurnEnds : Reader → List Char → Reading → Prop
  | finish {r} : (∀ start seen, r.expecting ≠ .set start seen) → TurnEnds r [] r.finish
  | unclosedSet {offset nodes groups start left} : ']' ∉ left →
      TurnEnds ⟨offset, nodes, groups, .set start []⟩ left ⟨.error (.unclosedSet start), offset⟩
  | unsupportedEscape {offset nodes groups start c rest} : c ≠ 'd' → c ≠ 'w' →
      TurnEnds ⟨offset, nodes, groups, .escape start⟩ (c :: rest)
        ⟨.error (.unsupportedEscape start c), offset + c.utf8Size⟩

/-- A reader that has not looked into a set beyond what it has taken. -/
def Unseeing (r : Reader) : Prop := ∀ start seen, r.expecting = .set start seen → seen = []

/-- **What a turn can do.** -/
theorem look_cases {r : Reader} (hunseen : r.Unseeing) (ahead : List Char) :
    (∃ reading, r.look ahead = .ends reading ∧ TurnEnds r ahead reading) ∨
      ∃ next taken left, ahead = taken ++ left ∧ r.look ahead = .goesOn next ∧
        TurnTakes r taken next := by
  obtain ⟨offset, nodes, groups, expecting⟩ := r
  cases expecting with
  | node =>
    cases ahead with
    | nil => exact .inl ⟨_, rfl, .finish fun _ _ h => by cases h⟩
    | cons c rest =>
      obtain ⟨next, hstep, hnode⟩ := step_node offset nodes groups c
      refine .inr ⟨next, [c], rest, rfl, ?_, .node hstep hnode⟩
      simp only [look, hstep]
  | escape start =>
    cases ahead with
    | nil => exact .inl ⟨_, rfl, .finish fun _ _ h => by cases h⟩
    | cons c rest =>
      by_cases hd : c = 'd'
      · subst hd
        exact .inr ⟨_, ['d'], rest, rfl, rfl, .escape (.inl ⟨rfl, rfl⟩)⟩
      by_cases hw : c = 'w'
      · subst hw
        exact .inr ⟨_, ['w'], rest, rfl, rfl, .escape (.inr ⟨rfl, rfl⟩)⟩
      have hfail : (⟨offset, nodes, groups, .escape start⟩ : Reader).step c =
          .error ⟨.error (.unsupportedEscape start c), offset + c.utf8Size⟩ := by
        simp only [step]
        rfl
      exact .inl ⟨_, by simp only [look, hfail], .unsupportedEscape hd hw⟩
  | set start seen =>
    obtain rfl := hunseen start seen rfl
    cases hdrop : ahead.dropWhile (· != ']') with
    | nil =>
      refine .inl ⟨_, by simp only [look, hdrop], .unclosedSet fun hmem => ?_⟩
      simpa using List.dropWhile_eq_nil_iff.mp hdrop ']' hmem
    | cons close after =>
      obtain ⟨hahead, hbody⟩ := eq_of_dropWhile_eq_cons hdrop
      refine .inr ⟨_, ahead.takeWhile (· != ']') ++ [']'], after, ?_, ?_, .set hbody⟩
      · rw [List.append_assoc]
        exact hahead
      · simp only [look, hdrop]
        rfl

/-! ## What a turn keeps -/

namespace TurnTakes
variable {r next : Reader} {taken : List Char}

theorem ne_nil (h : TurnTakes r taken next) : taken ≠ [] := by
  cases h with
  | node | escape => exact List.cons_ne_nil _ _
  | set => exact List.append_ne_nil_of_right_ne_nil _ (List.cons_ne_nil _ _)

/-- The position moves by what is taken. -/
theorem offset_eq (h : TurnTakes r taken next) : next.offset = r.offset + byteCount taken := by
  cases h with
  | node hstep hnode => cases hnode <;> rfl
  | escape hc => rcases hc with ⟨rfl, -⟩ | ⟨rfl, -⟩ <;> rfl
  | set hbody =>
    rw [byteCount_append, ← Nat.add_assoc]
    rfl

theorem unseeing (h : TurnTakes r taken next) : next.Unseeing := by
  intro start seen hset
  cases h with
  | node hstep hnode =>
    cases hnode with
    | openSet =>
      cases hset
      rfl
    | _ => cases hset
  | escape | set => cases hset

/-- Reading takes the same characters one by one. -/
theorem through (h : TurnTakes r taken next) : r.through taken = .ok next := by
  cases h with
  | node hstep _ => rw [through_singleton, hstep]
  | @escape offset nodes groups start c test hc =>
    rw [through_singleton]
    rcases hc with ⟨rfl, rfl⟩ | ⟨rfl, rfl⟩ <;> rfl
  | @set offset nodes groups start body hbody =>
    have hclose : (⟨offset, nodes, groups, .set start (body.reverse ++ [])⟩ : Reader).step ']' =
        .ok ⟨offset + 1 + byteCount (body.reverse ++ []),
          ⟨.single (setTest (body.reverse ++ []).reverse), .once⟩ :: nodes, groups, .node⟩ := rfl
    rw [through_append (through_set hbody), through_singleton, hclose, List.append_nil,
      List.reverse_reverse, byteCount_reverse, Nat.add_right_comm]

end TurnTakes

/-- A turn that ends a reading ends it as reading does what is left. -/
theorem TurnEnds.run_eq {r : Reader} {left : List Char} {reading : Reading}
    (h : TurnEnds r left reading) : r.run left = reading := by
  cases h with
  | finish => rfl
  | unclosedSet hleft =>
    rw [run_eq_through, through_set hleft]
    rfl
  | unsupportedEscape hd hw =>
    simp only [run, step]
    rfl

/-- The reader stands in the text in front of what is left. -/
structure InPlace (text : List Char) (r : Reader) (left : List Char) : Prop where
  ahead : dropBytes r.offset text = some left
  unseeing : r.Unseeing

variable {text left : List Char} {r last : Reader}

theorem InPlace.takes {next : Reader} {taken : List Char} (h : InPlace text r (taken ++ left))
    (htakes : TurnTakes r taken next) : InPlace text next left :=
  ⟨htakes.offset_eq ▸ dropBytes_add h.ahead, htakes.unseeing⟩

/-- A reader in its place does not get stuck. -/
theorem InPlace.turn_cases (h : InPlace text r left) :
    (∃ reading, r.turn text = .ends reading ∧ TurnEnds r left reading) ∨
      ∃ next taken later, left = taken ++ later ∧ r.turn text = .goesOn next ∧
        TurnTakes r taken next := by
  rw [turn, h.ahead]
  exact look_cases h.unseeing left

/-! ## What turns keep -/

theorem InPlace.takes_of_goesOn {next : Reader} (h : InPlace text r left)
    (hturn : r.turn text = .goesOn next) :
    ∃ taken later, left = taken ++ later ∧ TurnTakes r taken next := by
  rcases h.turn_cases with ⟨reading, hends, -⟩ | ⟨other, taken, later, hleft, hgoesOn, htakes⟩
  · rw [hends] at hturn
    cases hturn
  · rw [hgoesOn] at hturn
    cases hturn
    exact ⟨taken, later, hleft, htakes⟩

/-- Turns keep the reader in its place. -/
theorem InPlace.visits (h : InPlace text r left) (hvisits : Visits text r last) :
    ∃ later, InPlace text last later := by
  induction hvisits with
  | refl => exact ⟨left, h⟩
  | tail _ hturn ih =>
    obtain ⟨before, hbefore⟩ := ih
    obtain ⟨taken, later, rfl, htakes⟩ := hbefore.takes_of_goesOn hturn
    exact ⟨later, hbefore.takes htakes⟩

/-- **The turns come to the end of the reading.** -/
theorem InPlace.exists_last (h : InPlace text r left) :
    ∃ last later, Visits text r last ∧ InPlace text last later ∧
      last.turn text = .ends (r.run left) ∧ TurnEnds last later (r.run left) := by
  induction hlength : left.length using Nat.strong_induction_on generalizing r left with
  | _ n ih =>
    rcases h.turn_cases with ⟨reading, hends, hcase⟩ | ⟨next, taken, later, rfl, hgoesOn, htakes⟩
    · rw [hcase.run_eq]
      exact ⟨r, left, .refl, h, hends, hcase⟩
    · have hshorter : later.length < n := by
        have hpos := List.length_pos_iff.mpr htakes.ne_nil
        rw [← hlength, List.length_append]
        omega
      obtain ⟨last, rest, hvisits, hlast⟩ := ih _ hshorter (h.takes htakes) rfl
      rw [run_of_through htakes.through]
      exact ⟨last, rest, .head hgoesOn hvisits, hlast⟩

theorem finish_stop (r : Reader) : r.finish.stop = r.offset := by
  unfold finish
  split <;> rfl

/-- Where a reading stops a character begins or the text ends. -/
theorem InPlace.stop {reading : Reading} (h : InPlace text r left)
    (hends : TurnEnds r left reading) : ∃ later, dropBytes reading.stop text = some later := by
  cases hends with
  | finish =>
    rw [finish_stop]
    exact ⟨[], h.ahead⟩
  | unclosedSet => exact ⟨left, h.ahead⟩
  | @unsupportedEscape offset nodes groups start c rest =>
    refine ⟨rest, ?_⟩
    have htaken : byteCount [c] = c.utf8Size := rfl
    rw [← htaken]
    exact dropBytes_add h.ahead

end Reader

/-! ## From anywhere -/

namespace Cursor

/-- The reader with which a reading begins. -/
def reader (cursor : Cursor) : Reader := { offset := cursor.position }

theorem reader_inPlace {cursor : Cursor} {left : List Char}
    (h : dropBytes cursor.position cursor.text.toList = some left) :
    cursor.reader.InPlace cursor.text.toList left := ⟨h, fun _ _ hset => by cases hset⟩

theorem read_of_dropBytes {cursor : Cursor} {left : List Char}
    (h : dropBytes cursor.position cursor.text.toList = some left) :
    cursor.read = some ((cursor.reader.run left).result,
      { cursor with position := (cursor.reader.run left).stop }) := by
  rw [read, ahead, h]
  rfl

/-- **A reading that begins anywhere is a fresh reading of the rest of the text.**  Where no character
begins and the text does not end, already the first look at the text fails, before the position has
moved.  From any other position no look ever fails: the position always stands where a character
begins or the text ends, and the result is that of reading the rest by itself, with the places of
errors counted from the beginning of the text. -/
theorem read_from_anywhere (cursor : Cursor) :
    let text := cursor.text.toList
    (¬ (⟨cursor.position⟩ : String.Pos.Raw).IsValid cursor.text →
      cursor.read = none ∧ cursor.reader.turn text = .stuck ∧
        ∀ r, cursor.reader.Visits text r → r.offset = cursor.position) ∧
    ∀ before rest : String, cursor.text = before ++ rest → before.utf8ByteSize = cursor.position →
      (∀ r, cursor.reader.Visits text r → r.turn text ≠ .stuck ∧
        (⟨r.offset⟩ : String.Pos.Raw).IsValid cursor.text ∧ r.offset ≤ cursor.text.utf8ByteSize) ∧
      ∃ last reading, cursor.reader.Visits text last ∧ last.turn text = .ends reading ∧
        cursor.read = some (reading.result, { cursor with position := reading.stop }) ∧
        (⟨reading.stop⟩ : String.Pos.Raw).IsValid cursor.text ∧
        reading.result = (Sequence.read rest).mapError (PatternError.shift cursor.position) := by
  intro text
  constructor
  · intro hinvalid
    have hnone : dropBytes cursor.position text = none := by
      cases hdrop : dropBytes cursor.position text with
      | none => rfl
      | some left => exact absurd (isValid_iff_dropBytes.mpr ⟨left, hdrop⟩) hinvalid
    have hstuck : cursor.reader.turn text = .stuck := by
      rw [Reader.turn, reader, hnone]
    refine ⟨by rw [read, ahead, hnone]; rfl, hstuck, fun r hvisits => ?_⟩
    -- the first turn gets stuck, so there is no second one
    rcases Relation.ReflTransGen.cases_head hvisits with rfl | ⟨next, hgoesOn, -⟩
    · rfl
    · rw [hstuck] at hgoesOn
      cases hgoesOn
  · intro before rest htext hbefore
    have hdrop : dropBytes cursor.position text = some rest.toList := by
      refine dropBytes_eq_some_iff.mpr ⟨before.toList, ?_, ?_⟩
      · rw [← String.toList_append, ← htext]
      · rw [← hbefore, utf8ByteSize_eq_byteCount]
    have hplace : cursor.reader.InPlace text rest.toList := reader_inPlace hdrop
    constructor
    · intro r hvisits
      obtain ⟨left, hr⟩ := hplace.visits hvisits
      have hvalid := isValid_iff_dropBytes.mpr ⟨left, hr.ahead⟩
      refine ⟨fun hstuck => ?_, hvalid, hvalid.le_rawEndPos⟩
      rcases hr.turn_cases with ⟨reading, hends, -⟩ | ⟨next, taken, later, -, hgoesOn, -⟩
      · rw [hends] at hstuck
        cases hstuck
      · rw [hgoesOn] at hstuck
        cases hstuck
    · obtain ⟨last, left, hvisits, hlast, hends, hcase⟩ := hplace.exists_last
      refine ⟨last, _, hvisits, hends, read_of_dropBytes hdrop,
        isValid_iff_dropBytes.mpr (hlast.stop hcase), ?_⟩
      have hshift := Reading.startingAt_eq_shift cursor.position rest.toList
      exact congrArg Reading.result hshift

/-- Inside the two bytes of `é` nothing is read.  In front of it the backslash is at fault, three
bytes from the beginning of the text, and the group that is opened before counts no more. -/
theorem read_from_anywhere_behind_group :
    (⟨"(é\\q", 2⟩ : Cursor).read = none ∧
      ∃ moved, (⟨"(é\\q", 1⟩ : Cursor).read = some (.error (.unsupportedEscape 3 'q'), moved) ∧
        (⟨moved.position⟩ : String.Pos.Raw).IsValid "(é\\q" := by
  have hinside : ¬ (⟨2⟩ : String.Pos.Raw).IsValid "(é\\q" := by
    rw [isValid_iff_dropBytes]
    rintro ⟨left, hleft⟩
    have hnone : dropBytes 2 ['(', 'é', '\\', 'q'] = none := by decide
    rw [show "(é\\q".toList = ['(', 'é', '\\', 'q'] from rfl, hnone] at hleft
    cases hleft
  obtain ⟨hinvalid, -⟩ := read_from_anywhere ⟨"(é\\q", 2⟩
  obtain ⟨-, hvalid⟩ := read_from_anywhere ⟨"(é\\q", 1⟩
  obtain ⟨-, last, reading, -, -, hread, hstop, hresult⟩ := hvalid "(" "é\\q" rfl rfl
  have hfresh : Sequence.read "é\\q" = .error (.unsupportedEscape 2 'q') := rfl
  rw [hresult, hfresh] at hread
  exact ⟨(hinvalid hinside).1, _, hread, hstop⟩

end Cursor
end LineSearch
