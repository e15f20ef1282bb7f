import LineSearch.Proofs.Reading.Steps

/-! # Reading knows its place by the position it began with

A reader does not see what is in front of the text that it reads; it only counts on from the
position with which it began.  So with more in front a text is read in the same way, and
all places, those of the open groups, of errors, and where reading stops, are further behind
by as much (`Reader.run_shift`).
-/
namespace LineSearch

/-- The same error with `n` more bytes in front. -/
def PatternError.shift (n : Nat) : PatternError → PatternError
  | unclosedSet offset => unclosedSet (n + offset)
  | unclosedGroup offset => unclosedGroup (n + offset)
  | unsupportedEscape offset c => unsupportedEscape (n + offset) c
  | danglingEscape offset => danglingEscape (n + offset)

/-- The same reading with `n` more bytes in front. -/
def Reading.shift (n : Nat) (reading : Reading) : Reading :=
  ⟨reading.result.mapError (PatternError.shift n), n + reading.stop⟩

/-- The same group with `n` more bytes in front. -/
def OpenGroup.shift (n : Nat) (g : OpenGroup) : OpenGroup := { g with start := n + g.start }

/-- The same construct with `n` more bytes in front. -/
def Expecting.shift (n : Nat) : Expecting → Expecting
  | node => node
  | escape start => escape (n + start)
  | set start body => set (n + start) body

namespace Reader

/-- The same reader with `n` more bytes in front. -/
def shift (n : Nat) (r : Reader) : Reader :=
  ⟨n + r.offset, r.nodes, r.groups.map (OpenGroup.shift n), r.expecting.shift n⟩

variable (n : Nat) (r : Reader)

theorem take_shift (c : Char) : (r.shift n).take c = (r.take c).shift n := by
  rw [take, take, shift, shift, Nat.add_assoc]

theorem quantify_shift (q : Quantifier) (mark : Char) :
    (r.shift n).quantify q mark = (r.quantify q mark).shift n := by
  obtain ⟨offset, nodes, groups, expecting⟩ := r
  rcases nodes with _ | ⟨⟨atom, _ | _ | _⟩, before⟩ <;> rfl

theorem nextAlternative_shift : (r.shift n).nextAlternative = r.nextAlternative.shift n := by
  obtain ⟨offset, nodes, groups, expecting⟩ := r
  cases groups <;> rfl

theorem closeGroup_shift : (r.shift n).closeGroup = r.closeGroup.shift n := by
  obtain ⟨offset, nodes, groups, expecting⟩ := r
  cases groups <;> rfl

/-- A step is the same with more in front. -/
theorem step_shift (c : Char) : (r.shift n).step c =
    match r.step c with
    | .ok next => .ok (next.shift n)
    | .error reading => .error (reading.shift n) := by
  have hexpecting : (r.shift n).expecting = r.expecting.shift n := rfl
  unfold step
  rw [hexpecting, take_shift]
  cases r.expecting with
  | node =>
    simp only [Expecting.shift]
    split
    · rfl
    · rfl
    · rfl
    · rfl
    · rw [quantify_shift]
    · rw [quantify_shift]
    · rw [nextAlternative_shift]
    · rw [closeGroup_shift]
    · rfl
  | escape start =>
    simp only [Expecting.shift]
    split
    · rfl
    · rfl
    · rfl
  | set start body =>
    simp only [Expecting.shift]
    split
    · simp only [push, shift, Expecting.shift, Nat.add_assoc]
    · rfl

theorem finish_shift : (r.shift n).finish = r.finish.shift n := by
  obtain ⟨offset, nodes, groups, expecting⟩ := r
  cases expecting <;> cases groups <;> rfl

/-- **With more in front a text is read in the same way.** -/
theorem run_shift (text : List Char) : (r.shift n).run text = (r.run text).shift n := by
  induction text generalizing r with
  | nil => exact finish_shift n r
  | cons c rest ih =>
    rw [run, run, step_shift]
    cases r.step c with
    | ok next => exact ih next
    | error reading => rfl

end Reader

theorem Reading.startingAt_eq_shift (n : Nat) (text : List Char) :
    Reading.startingAt n text = (Reading.startingAt 0 text).shift n :=
  Reader.run_shift n { offset := 0 } text

end LineSearch
