import LineSearch.Pattern.Cursor
import LineSearch.Proofs.Reading.Parts

/-! # Reading by recursive descent

An expression can also be read top down.  A sequence is node after node, up to the end of the text
or, inside a group, up to a `|` or a `)`; a node is an atom and the mark behind it, if there is one;
an atom is a character, an escape, a set, or a group, which is sequence after sequence
(`Descent.sequence`, `node`, `atom`, `group`, `set`).

The reader, which takes one character at a time and keeps a stack of open groups, does the same: it
comes to the same sequence or the same error and stops at the same place, whatever the text and
wherever it begins (`Reading.startingAt_eq_descent`).  Each part of the descent takes the reader
from its beginning to its end, and there is one lemma for each part, proved by the recursion of the
descent.  What the reader keeps besides is what the calls in progress hold: the nodes of the
current sequence and, for each open group, what stands before it and its alternatives.
-/
namespace LineSearch

namespace Descent

/-- A place in a text: its position and what lies ahead. -/
structure Place where
  /-- The position, in bytes. -/
  offset : Nat
  /-- The text from there. -/
  ahead : List Char

/-- A place with at most `n` characters ahead. -/
abbrev PlaceWithin (n : Nat) := { p : Place // p.ahead.length ≤ n }

namespace PlaceWithin
variable {n m : Nat}

/-- The same place. -/
def widen (p : PlaceWithin n) (h : n ≤ m) : PlaceWithin m := ⟨p.1, Nat.le_trans p.2 h⟩

theorem length_lt (p : PlaceWithin n) {c : Char} {rest : List Char} (h : p.1.ahead = c :: rest) :
    rest.length < n := by
  have hlength := p.2
  rwa [h, List.length_cons] at hlength

/-- The place behind the next character. -/
def behind (p : PlaceWithin n) {c : Char} {rest : List Char} (h : p.1.ahead = c :: rest) :
    PlaceWithin n :=
  ⟨⟨p.1.offset + c.utf8Size, rest⟩, Nat.le_of_lt (p.length_lt h)⟩

end PlaceWithin

/-- What comes of reading a part of a text: the part and the place behind it, or the error and where
reading stopped. -/
abbrev Outcome (α : Type) (n : Nat) := Except (PatternError × Nat) (α × PlaceWithin n)

theorem length_le_of_dropWhile {text after : List Char} {c : Char}
    (h : text.dropWhile (· != ']') = c :: after) : after.length ≤ text.length := by
  have hlength := (List.dropWhile_sublist (fun c => c != ']') (l := text)).length_le
  rw [h, List.length_cons] at hlength
  exact Nat.le_of_succ_le hlength

/-- Read a set behind its `[`. -/
def set (start offset : Nat) (text : List Char) : Outcome Atom text.length :=
  match h : text.dropWhile (· != ']') with
  | [] => .error (.unclosedSet start, offset)
  | _ :: after =>
    let body := text.takeWhile (· != ']')
    .ok (.single (Reader.setTest body),
      ⟨⟨offset + byteCount body + 1, after⟩, length_le_of_dropWhile h⟩)

/-- Read the letter of an escape behind its backslash. -/
def escape (start offset : Nat) (text : List Char) : Outcome Atom text.length :=
  match text with
  | [] => .error (.danglingEscape start, offset)
  | c :: rest =>
    let place : PlaceWithin (rest.length + 1) := ⟨⟨offset + c.utf8Size, rest⟩, Nat.le_succ _⟩
    if c = 'd' then .ok (.single .digit, place)
    else if c = 'w' then .ok (.single .word, place)
    else .error (.unsupportedEscape start c, offset + c.utf8Size)

/-- Read the mark behind an atom, if there is one. -/
def mark {n : Nat} (a : Atom) (p : PlaceWithin n) : Node × PlaceWithin n :=
  match h : p.1.ahead with
  | '?' :: _ => (⟨a, .optional⟩, p.behind h)
  | '+' :: _ => (⟨a, .repeated⟩, p.behind h)
  | _ => (⟨a, .once⟩, p)

mutual

/-- Read nodes up to the end of the text or, inside a group, up to a `|` or a `)`. -/
def sequence (inside : Bool) (offset : Nat) (text : List Char) : Outcome Sequence text.length :=
  match text with
  | [] => .ok ([], ⟨⟨offset, []⟩, Nat.le_refl _⟩)
  | c :: rest =>
    if inside && (c = ')' || c = '|') then .ok ([], ⟨⟨offset, c :: rest⟩, Nat.le_refl _⟩)
    else do
      let (first, ⟨p, hp⟩) ← node offset c rest
      let (nodes, p') ← sequence inside p.offset p.ahead
      .ok (first :: nodes, p'.widen (Nat.le_succ_of_le hp))
termination_by (text.length, 2)

/-- Read an atom that begins with `c`, the character at `start`, and the mark behind it. -/
def node (start : Nat) (c : Char) (rest : List Char) : Outcome Node rest.length := do
  let (a, p) ← atom start c rest
  .ok (mark a p)
termination_by (rest.length + 1, 1)

/-- Read an atom that begins with `c`, the character at `start`. -/
def atom (start : Nat) (c : Char) (rest : List Char) : Outcome Atom rest.length :=
  let offset := start + c.utf8Size
  match c with
  | '(' => do
    let (alternatives, p) ← group start offset rest
    .ok (.group alternatives, p)
  | '[' => set start offset rest
  | '\\' => escape start offset rest
  | '.' => .ok (.single .any, ⟨⟨offset, rest⟩, Nat.le_refl _⟩)
  | c => .ok (.single (.literal c), ⟨⟨offset, rest⟩, Nat.le_refl _⟩)
termination_by (rest.length + 1, 0)

/-- Read the alternatives of a group behind its `(`, which stands at `start`, or behind a `|`. -/
def group (start offset : Nat) (text : List Char) : Outcome (List Sequence) text.length := do
  let (first, p) ← sequence true offset text
  match h : p.1.ahead with
  | '|' :: rest =>
    have hrest : rest.length < text.length := p.length_lt h
    let (more, p') ← group start (p.behind h).1.offset rest
    .ok (first :: more, p'.widen (Nat.le_of_lt hrest))
  | ')' :: _ => .ok ([first], p.behind h)
  | _ :: _ => .error (.unclosedGroup start, (p.behind h).1.offset)
  | [] => .error (.unclosedGroup start, p.1.offset)
termination_by (text.length, 3)

end

/-- Read a whole text that begins at `offset`. -/
def read (offset : Nat) (text : List Char) : Reading :=
  match sequence false offset text with
  | .ok (s, p) => ⟨.ok s, p.1.offset⟩
  | .error (e, stop) => ⟨.error e, stop⟩

/-! ## The reader beside the descent -/

/-- What the reader reads from a place on, inside groups and behind nodes. -/
def readFrom (groups : List OpenGroup) (s : Sequence) (p : Place) : Reading :=
  (⟨p.offset, s.reverse, groups, .node⟩ : Reader).run p.ahead

/-- The reading if it goes on behind a part so. -/
def Outcome.goOn {α : Type} {n : Nat} (next : α → Place → Reading) : Outcome α n → Reading
  | .ok (a, p) => next a p.1
  | .error (e, stop) => ⟨.error e, stop⟩

/-- What comes of two steps comes of the first and then of the second. -/
theorem exists_of_bind_eq_ok {ε α β : Type} {x : Except ε α} {f : α → Except ε β} {b : β}
    (h : x >>= f = .ok b) : ∃ a, x = .ok a ∧ f a = .ok b := by
  cases x with
  | error e => cases h
  | ok a => exact ⟨a, rfl, h⟩

variable {groups : List OpenGroup} {s : Sequence} {offset start : Nat} {c : Char}

theorem readFrom_of_step {next : Reader} {rest : List Char}
    (h : (⟨offset, s.reverse, groups, .node⟩ : Reader).step c = .ok next) :
    readFrom groups s ⟨offset, c :: rest⟩ = next.run rest :=
  Reader.run_cons_of_step h rest

/-- An atom is put behind the nodes. -/
theorem run_push (a : Atom) (p : Place) :
    (⟨p.offset, ⟨a, .once⟩ :: s.reverse, groups, .node⟩ : Reader).run p.ahead =
      readFrom groups (s ++ [⟨a, .once⟩]) p := by
  rw [readFrom, List.reverse_concat]

theorem readFrom_set (text : List Char) :
    readFrom groups s ⟨start, '[' :: text⟩ = (set start (start + 1) text).goOn fun a p =>
      readFrom groups (s ++ [⟨a, .once⟩]) p := by
  rw [set]
  split
  · rename_i hdrop
    have hset : ']' ∉ text := fun hmem => by
      simpa using List.dropWhile_eq_nil_iff.mp hdrop ']' hmem
    rw [readFrom_of_step Reader.step_openSet, Reader.run_eq_through, Reader.through_set hset]
    rfl
  · rename_i after hdrop
    obtain ⟨htext, hbody⟩ := eq_of_dropWhile_eq_cons hdrop
    have hwhole : '[' :: text = ('[' :: (text.takeWhile (· != ']') ++ [']'])) ++ after :=
      (congrArg ('[' :: ·) htext).trans (by simp)
    have hoffset : start + byteCount ('[' :: (text.takeWhile (· != ']') ++ [']'])) =
        start + 1 + byteCount (text.takeWhile (· != ']')) + 1 := by
      rw [Reader.byteCount_wholeSet]
      omega
    rw [readFrom, hwhole, Reader.run_of_through (Reader.through_wholeSet hbody), hoffset]
    exact run_push _ ⟨_, after⟩

theorem readFrom_escape (text : List Char) :
    readFrom groups s ⟨start, '\\' :: text⟩ = (escape start (start + 1) text).goOn fun a p =>
      readFrom groups (s ++ [⟨a, .once⟩]) p := by
  have hopen : (⟨start, s.reverse, groups, .node⟩ : Reader).step '\\' =
      .ok ⟨start + 1, s.reverse, groups, .escape start⟩ := rfl
  rw [readFrom_of_step hopen]
  cases text with
  | nil => rfl
  | cons c rest =>
    rw [escape]
    by_cases hd : c = 'd'
    · subst hd
      exact run_push _ ⟨_, rest⟩
    by_cases hw : c = 'w'
    · subst hw
      exact run_push _ ⟨_, rest⟩
    have hfail : (⟨start + 1, s.reverse, groups, .escape start⟩ : Reader).step c =
        .error ⟨.error (.unsupportedEscape start c), start + 1 + c.utf8Size⟩ := by
      simp only [Reader.step]
      rfl
    rw [if_neg hd, if_neg hw, Reader.run, hfail]
    rfl

/-- A character that is an atom by itself where it stands. -/
theorem step_literal {rest : List Char} (hinside : groups ≠ [] → c ≠ ')' ∧ c ≠ '|')
    (hapart : s.ApartFrom (c :: rest)) (hc : c ≠ '(' ∧ c ≠ '[' ∧ c ≠ '\\' ∧ c ≠ '.') :
    (⟨offset, s.reverse, groups, .node⟩ : Reader).step c =
      .ok ⟨offset + c.utf8Size, ⟨.single (.literal c), .once⟩ :: s.reverse, groups, .node⟩ := by
  -- no node before it can take a mark
  have hmark : ∀ a before, s.reverse = ⟨a, .once⟩ :: before → c ≠ '?' ∧ c ≠ '+' := by
    intro a before hs
    have hlast : s.getLast? = some ⟨a, .once⟩ := by rw [← List.head?_reverse, hs, List.head?_cons]
    simpa using hapart _ hlast rfl
  have hliteral : ∀ q, ((⟨offset, s.reverse, groups, .node⟩ : Reader).take c).quantify q c =
      ((⟨offset, s.reverse, groups, .node⟩ : Reader).take c).push (.single (.literal c)) ∨
        c ≠ '?' ∧ c ≠ '+' := by
    intro q
    rw [Reader.quantify]
    split
    · rename_i a before hs
      exact .inr (hmark a before hs)
    · exact .inl rfl
  simp only [Reader.step]
  split
  · exact absurd rfl hc.1
  · exact absurd rfl hc.2.1
  · exact absurd rfl hc.2.2.1
  · exact absurd rfl hc.2.2.2
  · exact congrArg Except.ok ((hliteral .optional).resolve_right fun h => h.1 rfl)
  · exact congrArg Except.ok ((hliteral .repeated).resolve_right fun h => h.2 rfl)
  · cases groups with
    | nil => rfl
    | cons g outer => exact absurd rfl (hinside (List.cons_ne_nil g outer)).2
  · cases groups with
    | nil => rfl
    | cons g outer => exact absurd rfl (hinside (List.cons_ne_nil g outer)).1
  · rfl

/-- What follows a mark that was read, or was not there, is no mark of the same node. -/
theorem apartFrom_mark {n : Nat} (a : Atom) (p : PlaceWithin n) :
    (s ++ [(mark a p).1]).ApartFrom (mark a p).2.1.ahead := by
  intro last hlast honce
  obtain rfl : (mark a p).1 = last := by simpa using hlast
  revert honce
  fun_cases mark a p with
  | case1 => nofun
  | case2 => nofun
  | case3 hopt hrep =>
    intro _
    constructor
    · intro hhead
      obtain ⟨rest, hrest⟩ := List.head?_eq_some_iff.mp hhead
      exact hopt rest hrest
    · intro hhead
      obtain ⟨rest, hrest⟩ := List.head?_eq_some_iff.mp hhead
      exact hrep rest hrest

theorem apartFrom_of_node {rest : List Char} {n : Node} {p : PlaceWithin rest.length}
    (h : node offset c rest = .ok (n, p)) : (s ++ [n]).ApartFrom p.1.ahead := by
  rw [node] at h
  obtain ⟨⟨a, q⟩, -, h⟩ := exists_of_bind_eq_ok h
  obtain ⟨rfl, rfl⟩ := Prod.mk.inj (Except.ok.inj h)
  exact apartFrom_mark a q

/-- The reader takes a mark to be that of the node before it. -/
theorem readFrom_mark {n : Nat} (a : Atom) (p : PlaceWithin n) :
    readFrom groups (s ++ [⟨a, .once⟩]) p.1 =
      readFrom groups (s ++ [(mark a p).1]) (mark a p).2.1 := by
  -- the step for a mark changes the last node
  have hstep : ∀ (q : Quantifier) (c : Char) (rest : List Char) (h : p.1.ahead = c :: rest),
      q.mark = [c] → readFrom groups (s ++ [⟨a, .once⟩]) p.1 =
        readFrom groups (s ++ [⟨a, q⟩]) (p.behind h).1 := by
    intro q c rest h hmark
    rw [readFrom, readFrom, h, List.reverse_concat, List.reverse_concat]
    cases q with
    | once => cases hmark
    | optional =>
      cases hmark
      rfl
    | repeated =>
      cases hmark
      rfl
  fun_cases mark a p with
  | case1 rest h => exact hstep .optional '?' rest h rfl
  | case2 rest h => exact hstep .repeated '+' rest h rfl
  | case3 => rfl

section
variable {g : OpenGroup} {outer : List OpenGroup} {p : Place} {rest : List Char}

/-- At a `|` the sequence is one more alternative. -/
theorem readFrom_bar (h : p.ahead = '|' :: rest) : readFrom (g :: outer) s p = readFrom
    ({ g with alternatives := s :: g.alternatives } :: outer) [] ⟨p.offset + 1, rest⟩ := by
  rw [readFrom, h]
  show (⟨p.offset + 1, [], ⟨g.start, g.before, s.reverse.reverse :: g.alternatives⟩ :: outer,
    .node⟩ : Reader).run rest = _
  rw [List.reverse_reverse]
  rfl

/-- At a `)` the sequence is the last alternative. -/
theorem readFrom_close (h : p.ahead = ')' :: rest) : readFrom (g :: outer) s p = readFrom outer
    (g.before.reverse ++ [⟨.group (g.alternatives.reverse ++ [s]), .once⟩])
      ⟨p.offset + 1, rest⟩ := by
  rw [readFrom, h, readFrom, List.reverse_concat, List.reverse_reverse]
  show (⟨p.offset + 1, ⟨.group (s.reverse.reverse :: g.alternatives).reverse, .once⟩ :: g.before,
    outer, .node⟩ : Reader).run rest = _
  rw [List.reverse_reverse, List.reverse_cons]

end

/-- A sequence ends where the text does, or inside a group at a `|` or a `)`. -/
theorem ahead_of_sequence {inside : Bool} : ∀ {offset : Nat} {text : List Char} {s : Sequence}
    {p : PlaceWithin text.length}, sequence inside offset text = .ok (s, p) →
    p.1.ahead = [] ∨ inside = true ∧ ∃ c rest, p.1.ahead = c :: rest ∧ (c = ')' ∨ c = '|')
  | offset, [], s, p, h => by
      rw [sequence] at h
      cases h
      exact .inl rfl
  | offset, c :: rest, s, p, h => by
      rw [sequence] at h
      split at h
      · rename_i hend
        cases h
        simp only [Bool.and_eq_true, Bool.or_eq_true, decide_eq_true_eq] at hend
        exact .inr ⟨hend.1, c, rest, rfl, hend.2⟩
      · obtain ⟨⟨first, q, hq⟩, -, h⟩ := exists_of_bind_eq_ok h
        obtain ⟨⟨nodes, p'⟩, hmore, h⟩ := exists_of_bind_eq_ok h
        have hend := ahead_of_sequence hmore
        cases h
        exact hend
termination_by _ text => text.length

mutual

/-- The reader takes a sequence. -/
theorem readFrom_sequence {groups : List OpenGroup} : ∀ {s : Sequence} (offset : Nat)
    (text : List Char), s.ApartFrom text → readFrom groups s ⟨offset, text⟩ =
      (sequence (!groups.isEmpty) offset text).goOn fun t p => readFrom groups (s ++ t) p
  | s, offset, [], _ => by rw [sequence, Outcome.goOn, List.append_nil]
  | s, offset, c :: rest, hapart => by
      rw [sequence]
      split
      · rw [Outcome.goOn, List.append_nil]
      · rename_i hgoes
        have hinside : groups ≠ [] → c ≠ ')' ∧ c ≠ '|' := fun hne => by simpa [hne] using hgoes
        rw [readFrom_node offset c rest hinside hapart]
        cases hnode : node offset c rest with
        | error failed => rfl
        | ok read =>
          obtain ⟨first, q, hq⟩ := read
          show readFrom groups (s ++ [first]) q = _
          rw [readFrom_sequence q.offset q.ahead (apartFrom_of_node hnode)]
          show _ = Outcome.goOn _ (sequence (!groups.isEmpty) q.offset q.ahead >>= _)
          cases sequence (!groups.isEmpty) q.offset q.ahead with
          | error failed => rfl
          | ok more => exact congrArg (readFrom groups · _) (List.append_assoc s [first] more.1)
termination_by _ _ text => (text.length, 2)

/-- The reader takes an atom and the mark behind it. -/
theorem readFrom_node {groups : List OpenGroup} {s : Sequence} (offset : Nat) (c : Char)
    (rest : List Char) (hinside : groups ≠ [] → c ≠ ')' ∧ c ≠ '|')
    (hapart : s.ApartFrom (c :: rest)) : readFrom groups s ⟨offset, c :: rest⟩ =
      (node offset c rest).goOn fun n p => readFrom groups (s ++ [n]) p := by
  rw [readFrom_atom offset c rest hinside hapart, node]
  cases atom offset c rest with
  | error failed => rfl
  | ok read => exact readFrom_mark read.1 read.2
termination_by (rest.length + 1, 1)

/-- The reader takes an atom. -/
theorem readFrom_atom {groups : List OpenGroup} {s : Sequence} (start : Nat) (c : Char)
    (rest : List Char) (hinside : groups ≠ [] → c ≠ ')' ∧ c ≠ '|')
    (hapart : s.ApartFrom (c :: rest)) : readFrom groups s ⟨start, c :: rest⟩ =
      (atom start c rest).goOn fun a p => readFrom groups (s ++ [⟨a, .once⟩]) p := by
  rw [atom.eq_def]
  split
  · show readFrom (⟨start, s.reverse, []⟩ :: groups) [] ⟨start + 1, rest⟩ = _
    rw [readFrom_group, List.reverse_reverse]
    show (group start (start + 1) rest).goOn _ = Outcome.goOn _ (group start (start + 1) rest >>= _)
    cases group start (start + 1) rest with
    | error failed => rfl
    | ok read => rfl
  · exact readFrom_set rest
  · exact readFrom_escape rest
  · exact run_push _ ⟨_, rest⟩
  · rename_i hgroup hset hescape hany
    rw [readFrom_of_step (step_literal hinside hapart ⟨hgroup, hset, hescape, hany⟩)]
    exact run_push _ ⟨_, rest⟩
termination_by (rest.length + 1, 0)

/-- The reader takes the alternatives of a group and closes it. -/
theorem readFrom_group (g : OpenGroup) (outer : List OpenGroup) (offset : Nat) (text : List Char) :
    readFrom (g :: outer) [] ⟨offset, text⟩ = (group g.start offset text).goOn fun more p =>
      readFrom outer
        (g.before.reverse ++ [⟨.group (g.alternatives.reverse ++ more), .once⟩]) p := by
  have hapart : Sequence.ApartFrom [] text := nofun
  rw [readFrom_sequence offset text hapart, group]
  show (sequence true offset text).goOn _ = _
  cases hfirst : sequence true offset text with
  | error failed => rfl
  | ok read =>
    obtain ⟨first, p⟩ := read
    have hahead := ahead_of_sequence hfirst
    show readFrom (g :: outer) first p.1 = Outcome.goOn _ (match h : p.1.ahead with
      | '|' :: rest => _
      | ')' :: _ => _
      | _ :: _ => _
      | [] => _)
    split
    · rename_i rest h
      have hrest := p.length_lt h
      rw [readFrom_bar h, readFrom_group]
      show _ = Outcome.goOn _ (group g.start (p.1.offset + 1) rest >>= _)
      cases group g.start (p.1.offset + 1) rest with
      | error failed => rfl
      | ok read =>
        obtain ⟨more, p'⟩ := read
        show readFrom outer (g.before.reverse ++
          [⟨.group ((first :: g.alternatives).reverse ++ more), .once⟩]) p'.1 = _
        rw [List.reverse_cons, List.append_assoc]
        rfl
    · rename_i rest h
      exact readFrom_close h
    · rename_i c rest hbar hclose h
      rw [h] at hahead
      -- a sequence in a group stops at no other character
      obtain hend | ⟨-, c', rest', hcons, hstops⟩ := hahead
      · cases hend
      · obtain rfl : c = c' := (List.cons.inj hcons).1
        exact absurd hstops (not_or.mpr ⟨hclose, hbar⟩)
    · rename_i h
      rw [readFrom, h]
      rfl
termination_by (text.length, 3)

end

end Descent
/-- **The reader reads as the descent does.** -/
theorem Reading.startingAt_eq_descent (offset : Nat) (text : List Char) :
    Reading.startingAt offset text = Descent.read offset text := by
  have hapart : Sequence.ApartFrom [] text := nofun
  have hread : Reading.startingAt offset text = (Descent.sequence false offset text).goOn fun s p =>
      Descent.readFrom [] s p := Descent.readFrom_sequence offset text hapart
  rw [hread, Descent.read]
  cases hsequence : Descent.sequence false offset text with
  | error failed => rfl
  | ok read =>
    obtain ⟨s, p⟩ := read
    obtain hend | ⟨hinside, -⟩ := Descent.ahead_of_sequence hsequence
    · show Descent.readFrom [] s p.1 = _
      rw [Descent.readFrom, hend]
      exact congrArg (Reading.mk · _) (congrArg Except.ok (List.reverse_reverse s))
    · cases hinside

/-- And so a cursor reads what lies ahead. -/
theorem Cursor.read_eq_descent (cursor : Cursor) :
    cursor.read = cursor.ahead.map fun rest =>
      let reading := Descent.read cursor.position rest
      (reading.result, { cursor with position := reading.stop }) := by
  simp only [Cursor.read, Reading.startingAt_eq_descent]

end LineSearch
