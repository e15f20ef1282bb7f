import LineSearch.Proofs.Reading.Steps
import Mathlib.Data.List.TakeWhile

/-! # The error a flat scan finds

Whether a text is an expression, and if not, why and where, can be found without
reading it: a scan from left to right that keeps nothing but its position and the
positions of the groups that are open, the innermost first (`flatScan`).  It jumps
over sets, takes escapes in pairs, and looks at no other character than `(` and `)`.

Reading fails exactly where the scan does, with the same error
(`Reader.run_result_eq_flatScan`).  What the reader keeps besides has no influence:
the scan's stack is the list of the places where the open groups begin.  And the place
that an error names is where the bracket or the backslash at fault stands
(`flatScan_error`).
-/
namespace LineSearch

/-- Scan a text that begins at `offset`, inside groups that begin at the places in `stack`. -/
def flatScan : (offset : Nat) → (stack : List Nat) → List Char → Except PatternError Unit
  | _, [], [] => .ok ()
  | _, top :: _, [] => .error (.unclosedGroup top)
  | offset, stack, '[' :: rest =>
    match h : rest.dropWhile (· != ']') with
    | [] => .error (.unclosedSet offset)
    | _ :: after =>
      flatScan (offset + 1 + byteCount (rest.takeWhile (· != ']')) + 1) stack after
  | offset, _, ['\\'] => .error (.danglingEscape offset)
  | offset, stack, '\\' :: c :: rest =>
    if c = 'd' ∨ c = 'w' then flatScan (offset + 2) stack rest
    else .error (.unsupportedEscape offset c)
  | offset, stack, '(' :: rest => flatScan (offset + 1) (offset :: stack) rest
  | offset, stack, ')' :: rest => flatScan (offset + 1) stack.tail rest
  | offset, stack, c :: rest => flatScan (offset + c.utf8Size) stack rest
termination_by _ _ text => text.length
decreasing_by
  all_goals simp only [List.length_cons]
  · have := (List.dropWhile_sublist (fun c => c != ']') (l := rest)).length_le
    rw [h, List.length_cons] at this
    omega
  all_goals omega

/-- What lies before the next `]`. -/
theorem eq_of_dropWhile_eq_cons {rest after : List Char} {close : Char}
    (h : rest.dropWhile (· != ']') = close :: after) :
    rest = rest.takeWhile (· != ']') ++ ']' :: after ∧ ']' ∉ rest.takeWhile (· != ']') := by
  constructor
  · have hclose := List.head?_dropWhile_not (· != ']') rest
    rw [h] at hclose
    obtain rfl : close = ']' := by simpa using hclose
    rw [← h, List.takeWhile_append_dropWhile]
  · intro hmem
    simpa using List.mem_takeWhile_imp hmem

/-! ### Reading and scanning -/

namespace Reader

/-- A set without `]` takes the rest of the text. -/
theorem run_unclosedSet {offset : Nat} {nodes : List Node} {groups : List OpenGroup}
    {rest : List Char} (h : ']' ∉ rest) :
    ((⟨offset, nodes, groups, .node⟩ : Reader).run ('[' :: rest)).result =
      .error (.unclosedSet offset) := by
  rw [run_cons_of_step step_openSet, run_eq_through, through_set h]
  rfl

/-- **Reading fails where the scan does.** -/
theorem run_result_eq_flatScan (offset : Nat) (stack : List Nat) (text : List Char)
    {nodes : List Node} {groups : List OpenGroup} (hstack : groups.map OpenGroup.start = stack) :
    ((⟨offset, nodes, groups, .node⟩ : Reader).run text).result.map (fun _ => ()) =
      flatScan offset stack text := by
  fun_induction flatScan offset stack text generalizing nodes groups with
  | case1 offset =>
    obtain rfl := List.map_eq_nil_iff.mp hstack
    rfl
  | case2 offset top tail =>
    obtain ⟨g, outer, rfl, rfl, -⟩ := List.map_eq_cons_iff.mp hstack
    rfl
  | case3 offset stack rest hdrop =>
    have hset : ']' ∉ rest := fun hmem => by
      simpa using List.dropWhile_eq_nil_iff.mp hdrop ']' hmem
    rw [run_unclosedSet hset]
    rfl
  | case4 offset stack rest close after hdrop ih =>
    -- what the scan jumps over is the text of one set
    obtain ⟨hrest, hbody⟩ := eq_of_dropWhile_eq_cons hdrop
    generalize rest.takeWhile (· != ']') = body at hrest hbody ih
    have htext : '[' :: rest = ('[' :: (body ++ [']'])) ++ after := by simp [hrest]
    have hoffset : offset + byteCount ('[' :: (body ++ [']'])) =
        offset + 1 + byteCount body + 1 := by
      rw [byteCount_wholeSet]
      omega
    rw [htext, run_of_through (through_wholeSet hbody), hoffset]
    exact ih hstack
  | case5 stack offset => rfl
  | case6 offset stack c rest hc ih =>
    rcases hc with rfl | rfl
    · exact ih hstack
    · exact ih hstack
  | case7 offset stack c rest hc =>
    have hopen : (⟨offset, nodes, groups, .node⟩ : Reader).step '\\' =
        .ok ⟨offset + 1, nodes, groups, .escape offset⟩ := rfl
    have hfail : (⟨offset + 1, nodes, groups, .escape offset⟩ : Reader).step c =
        .error ⟨.error (.unsupportedEscape offset c), offset + 1 + c.utf8Size⟩ := by
      simp only [step]
      split
      · exact absurd (.inl rfl) hc
      · exact absurd (.inr rfl) hc
      · rfl
    rw [run_cons_of_step hopen, run, hfail]
    rfl
  | case8 offset stack rest ih =>
    subst hstack
    exact ih rfl
  | case9 offset stack rest ih =>
    cases groups with
    | nil =>
      subst hstack
      exact ih rfl
    | cons g outer =>
      subst hstack
      exact ih rfl
  | case10 offset stack c rest hset hlast hpair hgroup hclose ih =>
    obtain ⟨next, hstep, h⟩ := step_node offset nodes groups c
    rw [run_cons_of_step hstep]
    cases h with
    | atom | quantify => exact ih hstack
    | nextAlternative => exact ih hstack
    | openGroup => exact absurd rfl hgroup
    | closeGroup => exact absurd rfl hclose
    | openSet => exact absurd rfl hset
    | openEscape =>
      cases rest with
      | nil => exact (hlast rfl rfl).elim
      | cons d rest => exact (hpair d rest rfl rfl).elim

end Reader

/-! ### What stands where an error points -/

/-- The character `c` stands at byte position `n` of a text. -/
def StandsAt (text : List Char) (c : Char) (n : Nat) : Prop :=
  ∃ before after, text = before ++ c :: after ∧ byteCount before = n

theorem StandsAt.behind {before : List Char} {c : Char} {n : Nat} (h : byteCount before = n)
    (after : List Char) : StandsAt (before ++ c :: after) c n :=
  ⟨before, after, rfl, h⟩

theorem StandsAt.append {text : List Char} {c : Char} {n : Nat} (h : StandsAt text c n)
    (more : List Char) : StandsAt (text ++ more) c n := by
  obtain ⟨before, after, rfl, hn⟩ := h
  exact ⟨before, after ++ more, by rw [List.append_assoc, List.cons_append], hn⟩

/-- The character with which the construct at fault begins. -/
def PatternError.opener : PatternError → Char
  | .unclosedSet _ => '['
  | .unclosedGroup _ => '('
  | .unsupportedEscape _ _ => '\\'
  | .danglingEscape _ => '\\'

/-- Behind the text it has seen the scan is at `offset`, and has opened groups at the places in
`stack`. -/
structure HasScanned (seen : List Char) (offset : Nat) (stack : List Nat) : Prop where
  byteCount_eq : byteCount seen = offset
  opened : ∀ start ∈ stack, StandsAt seen '(' start

/-- Going on over more text opens no group. -/
theorem HasScanned.over {seen more : List Char} {offset offset' : Nat} {stack stack' : List Nat}
    (h : HasScanned seen offset stack) (hoffset : offset + byteCount more = offset')
    (hstack : ∀ start ∈ stack', start ∈ stack) : HasScanned (seen ++ more) offset' stack' := by
  constructor
  · rw [byteCount_append, h.byteCount_eq, hoffset]
  · intro start hmem
    exact (h.opened start (hstack start hmem)).append more

/-- The scan points at a bracket or a backslash behind what it has seen, or at a parenthesis that
it holds open. -/
theorem flatScan_error (seen : List Char) (offset : Nat) (stack : List Nat) (text : List Char)
    {e : PatternError} (h : HasScanned seen offset stack)
    (herror : flatScan offset stack text = .error e) :
    StandsAt (seen ++ text) e.opener e.offset := by
  fun_induction flatScan offset stack text generalizing seen with
  | case1 => cases herror
  | case2 offset top tail =>
    obtain rfl := Except.error.inj herror
    rw [List.append_nil]
    exact h.opened top List.mem_cons_self
  | case3 | case5 | case7 =>
    obtain rfl := Except.error.inj herror
    exact .behind h.byteCount_eq _
  | case4 offset stack rest close after hdrop ih =>
    obtain ⟨hrest, -⟩ := eq_of_dropWhile_eq_cons hdrop
    generalize rest.takeWhile (· != ']') = body at hrest ih herror
    have htext : seen ++ '[' :: rest = seen ++ '[' :: (body ++ [']']) ++ after := by
      simp [hrest]
    rw [htext]
    refine ih _ (h.over ?_ fun _ hmem => hmem) herror
    rw [Reader.byteCount_wholeSet]
    omega
  | case6 offset stack c rest hc ih =>
    have htext : seen ++ '\\' :: c :: rest = seen ++ ['\\', c] ++ rest := by simp
    have hsize : byteCount ['\\', c] = 2 := by
      rcases hc with rfl | rfl
      · rfl
      · rfl
    rw [htext]
    exact ih _ (h.over (by rw [hsize]) fun _ hmem => hmem) herror
  | case8 offset stack rest ih =>
    rw [List.append_cons]
    have hopened : HasScanned (seen ++ ['(']) (offset + 1) stack := h.over rfl fun _ hmem => hmem
    refine ih _ ⟨hopened.byteCount_eq, ?_⟩ herror
    intro start hmem
    rcases List.mem_cons.mp hmem with rfl | hmem
    · exact .behind h.byteCount_eq []
    · exact hopened.opened start hmem
  | case9 offset stack rest ih =>
    rw [List.append_cons]
    exact ih _ (h.over rfl fun _ hmem => List.mem_of_mem_tail hmem) herror
  | case10 offset stack c rest _ _ _ _ _ ih =>
    rw [List.append_cons]
    exact ih _ (h.over rfl fun _ hmem => hmem) herror

theorem utf8ByteSize_eq_byteCount (text : String) : text.utf8ByteSize = byteCount text.toList := by
  obtain ⟨cs, rfl⟩ : ∃ cs, text = String.ofList cs := ⟨text.toList, String.ofList_toList.symm⟩
  rw [String.toList_ofList]
  induction cs with
  | nil => rfl
  | cons c cs ih =>
    rw [← List.singleton_append, String.ofList_append, String.utf8ByteSize_append, ih,
      ← String.singleton_eq_ofList, String.utf8ByteSize_singleton]
    rfl

theorem StandsAt.lt_byteCount {text : List Char} {c : Char} {n : Nat} (h : StandsAt text c n) :
    n < byteCount text := by
  obtain ⟨before, after, rfl, rfl⟩ := h
  have := c.utf8Size_pos
  rw [byteCount_append, byteCount_cons]
  omega

/-- **A text that is no expression has the error that the scan finds.**  And the error names the
place in the text where its bracket or backslash stands. -/
theorem Sequence.read_fails_as_flatScan (text : String) :
    (Sequence.read text).map (fun _ => ()) = flatScan 0 [] text.toList ∧
      ∀ e, Sequence.read text = .error e →
        StandsAt text.toList e.opener e.offset ∧ e.offset < text.utf8ByteSize := by
  have hscan : (Sequence.read text).map (fun _ => ()) = flatScan 0 [] text.toList :=
    Reader.run_result_eq_flatScan 0 [] text.toList rfl
  refine ⟨hscan, fun e herror => ?_⟩
  rw [herror] at hscan
  have hstands : StandsAt text.toList e.opener e.offset :=
    flatScan_error [] 0 [] text.toList ⟨rfl, fun _ hmem => absurd hmem List.not_mem_nil⟩ hscan.symm
  exact ⟨hstands, utf8ByteSize_eq_byteCount text ▸ hstands.lt_byteCount⟩

/-- The first group that is open is not the one at fault, and `é` takes two bytes. -/
theorem Sequence.read_fails_as_flatScan_innermost :
    flatScan 0 [] ['é', '(', '(', 'a', ')', '(', 'b'] = .error (.unclosedGroup 6) ∧
      StandsAt ['é', '(', '(', 'a', ')', '(', 'b'] '(' 6 ∧ 6 < "é((a)(b".utf8ByteSize := by
  have hread : Sequence.read "é((a)(b" = .error (.unclosedGroup 6) := rfl
  obtain ⟨hscan, hplace⟩ := Sequence.read_fails_as_flatScan "é((a)(b"
  rw [hread] at hscan
  exact ⟨hscan.symm, hplace _ hread⟩

end LineSearch
