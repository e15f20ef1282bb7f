import LineSearch.Proofs.Matching.Commitment

/-! # Which alignment is found

Where groups leave no choice, an alignment is told by how often each node takes its
atom: once, once or not at all, once or more (`Sequence.Takes`).  These numbers order
the alignments that begin in one place.  The first node at which two of them differ
decides, and there the greater number is preferred, wherever the alignments end.

`Sequence.matchAt` finds the alignment with the greatest numbers
(`Sequence.LeavesNoChoice.matchAt_eq_some_iff`).  Greed at a node thus comes before
everything that the nodes behind it could do; in particular before the length of the
whole.
-/
namespace LineSearch

/-- The atom is taken `count` times, and every take advances. -/
inductive Atom.Copies (input : Array Char) (atom : Atom) : (count : Nat) → Nat → Nat → Prop
  | zero {pos} : Atom.Copies input atom 0 pos pos
  | succ {count pos next stop} : atom.Aligns input pos next → pos < next →
      Atom.Copies input atom count next stop → Atom.Copies input atom (count + 1) pos stop

/-- The node takes its atom `count` times, as its quantifier allows. -/
inductive Node.Takes (input : Array Char) : Node → (count : Nat) → Nat → Nat → Prop
  | once {atom pos stop} : Atom.Aligns input atom pos stop →
      Node.Takes input ⟨atom, .once⟩ 1 pos stop
  | taken {atom pos stop} : Atom.Aligns input atom pos stop →
      Node.Takes input ⟨atom, .optional⟩ 1 pos stop
  | skipped {atom pos} : Node.Takes input ⟨atom, .optional⟩ 0 pos pos
  | repeated {atom count pos stop} : Atom.Copies input atom (count + 1) pos stop →
      Node.Takes input ⟨atom, .repeated⟩ (count + 1) pos stop

/-- The nodes of the sequence, in order, take their atoms as often as `counts` says. -/
inductive Sequence.Takes (input : Array Char) : Sequence → (counts : List Nat) → Nat → Nat → Prop
  | nil {pos} : Sequence.Takes input [] [] pos pos
  | cons {node tail count counts pos next stop} : Node.Takes input node count pos next →
      Sequence.Takes input tail counts next stop →
      Sequence.Takes input (node :: tail) (count :: counts) pos stop

/-- No alignment of the sequence from `pos` on takes an atom more often than `counts` at the first
node where it differs. -/
def Sequence.Greediest (input : Array Char) (s : Sequence) (pos : Nat) (counts : List Nat) : Prop :=
  ∀ others stop, s.Takes input others pos stop → ¬ List.Lex (· < ·) counts others

variable {input : Array Char}

/-! ### Alignments with their numbers -/

theorem Atom.Repeats.copies {atom : Atom} : ∀ {pos stop : Nat}, atom.Repeats input pos stop →
    ∃ count, atom.Copies input (count + 1) pos stop
  | _, _, .last halign hlt => ⟨0, .succ halign hlt .zero⟩
  | _, _, .more halign hlt hrest => by
      obtain ⟨count, h⟩ := hrest.copies
      exact ⟨count + 1, .succ halign hlt h⟩

theorem Atom.Copies.repeats {atom : Atom} {count pos stop : Nat}
    (h : atom.Copies input (count + 1) pos stop) : atom.Repeats input pos stop := by
  induction count generalizing pos with
  | zero =>
    obtain _ | ⟨halign, hlt, ⟨⟩⟩ := h
    exact .last halign hlt
  | succ count ih =>
    obtain _ | ⟨halign, hlt, hrest⟩ := h
    exact .more halign hlt (ih hrest)

theorem Atom.Copies.le {atom : Atom} {count pos stop : Nat} (h : atom.Copies input count pos stop) :
    pos ≤ stop := by
  induction h with
  | zero => exact Nat.le_refl _
  | succ _ hlt _ ih => exact Nat.le_trans (Nat.le_of_lt hlt) ih

theorem Node.aligns_iff_takes {node : Node} {pos stop : Nat} :
    node.Aligns input pos stop ↔ ∃ count, node.Takes input count pos stop := by
  constructor
  · rintro (h | h | _ | h)
    · exact ⟨1, .once h⟩
    · exact ⟨1, .taken h⟩
    · exact ⟨0, .skipped⟩
    · obtain ⟨count, hcopies⟩ := h.copies
      exact ⟨count + 1, .repeated hcopies⟩
  · rintro ⟨_, h | h | _ | h⟩
    · exact .once h
    · exact .taken h
    · exact .skipped
    · exact .repeated h.repeats

theorem Sequence.aligns_iff_takes {s : Sequence} {pos stop : Nat} :
    Sequence.Aligns input s pos stop ↔ ∃ counts, s.Takes input counts pos stop := by
  induction s generalizing pos with
  | nil =>
    rw [aligns_nil_iff]
    constructor
    · rintro rfl
      exact ⟨[], .nil⟩
    · rintro ⟨_, ⟨⟩⟩
      rfl
  | cons node tail ih =>
    rw [aligns_cons_iff]
    constructor
    · rintro ⟨next, hnode, htail⟩
      obtain ⟨count, hcount⟩ := Node.aligns_iff_takes.mp hnode
      obtain ⟨counts, hcounts⟩ := ih.mp htail
      exact ⟨count :: counts, .cons hcount hcounts⟩
    · rintro ⟨_, _ | ⟨hcount, hcounts⟩⟩
      exact ⟨_, Node.aligns_iff_takes.mpr ⟨_, hcount⟩, ih.mpr ⟨_, hcounts⟩⟩

/-! ### Atoms that report: the numbers determine the end -/

section Reports
variable {atom : Atom} (hatom : atom.Reports input)
include hatom

theorem Atom.Reports.unique {pos e f : Nat} (he : atom.Aligns input pos e)
    (hf : atom.Aligns input pos f) : e = f :=
  Option.some.inj ((hatom he).symm.trans (hatom hf))

theorem Atom.Reports.copies_unique {count pos e f : Nat} (he : atom.Copies input count pos e)
    (hf : atom.Copies input count pos f) : e = f := by
  induction he with
  | zero =>
    obtain ⟨⟩ := hf
    rfl
  | succ halign _ _ ih =>
    obtain _ | ⟨halign', _, hrest⟩ := hf
    obtain rfl := hatom.unique halign halign'
    exact ih hrest

/-- More copies reach further. -/
theorem Atom.Reports.lt_of_copies {m n pos e f : Nat} (he : atom.Copies input m pos e)
    (hf : atom.Copies input n pos f) (hmn : m < n) : e < f := by
  induction he generalizing n with
  | zero =>
    obtain _ | ⟨halign, hlt, hrest⟩ := hf
    · omega
    · exact Nat.lt_of_lt_of_le hlt hrest.le
  | succ halign _ _ ih =>
    obtain _ | ⟨halign', _, hrest⟩ := hf
    · omega
    · obtain rfl := hatom.unique halign halign'
      exact ih hrest (by omega)

end Reports

theorem Node.takes_unique {node : Node} (hatom : node.atom.Reports input) {count pos e f : Nat}
    (he : node.Takes input count pos e) (hf : node.Takes input count pos f) : e = f := by
  cases he with
  | once he =>
    obtain ⟨hf⟩ := hf
    exact hatom.unique he hf
  | taken he =>
    obtain _ | hf := hf
    exact hatom.unique he hf
  | skipped =>
    obtain ⟨⟩ := hf
    rfl
  | repeated he =>
    obtain _ | _ | _ | hf := hf
    exact hatom.copies_unique he hf

theorem Sequence.takes_unique {s : Sequence} (hs : ∀ node ∈ s, node.atom.Reports input)
    {counts : List Nat} {pos e f : Nat} (he : s.Takes input counts pos e)
    (hf : s.Takes input counts pos f) : e = f := by
  induction he with
  | nil =>
    obtain ⟨⟩ := hf
    rfl
  | cons hnode _ ih =>
    obtain ⟨hatom, hrest⟩ := List.forall_mem_cons.mp hs
    obtain _ | ⟨hnode', htail⟩ := hf
    obtain rfl := Node.takes_unique hatom hnode hnode'
    exact ih hrest htail

/-! ### The greatest numbers are found -/

/-- What is found behind a repeated node is found from the furthest place from which it can be. -/
theorem Sequence.furthest_of_matchAt_repeated {atom : Atom} {tail : Sequence} {pos stop : Nat}
    (h : Sequence.matchAt input (⟨atom, .repeated⟩ :: tail) pos = some stop) :
    ∃ place ∈ atom.repetitions input pos, Sequence.matchAt input tail place = some stop ∧
      ∀ further ∈ atom.repetitions input pos, place < further →
        Sequence.matchAt input tail further = none := by
  rw [matchAt_repeated] at h
  obtain ⟨before, place, behind, hsplit, hplace, hbefore⟩ := List.findSome?_eq_some_iff.mp h
  have hdecreasing : (before ++ place :: behind).Pairwise (· > ·) := by
    rw [← hsplit, List.pairwise_reverse]
    exact (List.pairwise_cons.mp (atom.repetitions_increasing pos)).2
  have hmem : ∀ further, further ∈ atom.repetitions input pos ↔
      further ∈ before ∨ further = place ∨ further ∈ behind := by
    intro further
    rw [← List.mem_reverse, hsplit, List.mem_append, List.mem_cons]
  refine ⟨place, (hmem place).mpr (.inr (.inl rfl)), hplace, ?_⟩
  intro further hfurther hlt
  rcases (hmem further).mp hfurther with hin | rfl | hin
  · exact hbefore further hin
  · exact absurd hlt (Nat.lt_irrefl _)
  · have := (List.pairwise_cons.mp (List.pairwise_append.mp hdecreasing).2.1).1 further hin
    omega

/-- Numbers are the greatest if the nodes behind the first cannot follow when that takes its atom
more often, and have the greatest numbers when it takes it as often. -/
theorem Sequence.greediest_cons {atom : Atom} {quantifier : Quantifier} {tail : Sequence}
    {count pos next : Nat} {counts : List Nat} (hatom : atom.Reports input)
    (hnode : Node.Takes input ⟨atom, quantifier⟩ count pos next)
    (hmore : ∀ more other, Node.Takes input ⟨atom, quantifier⟩ more pos other → count < more →
      ∀ stop, ¬ Sequence.Aligns input tail other stop)
    (htail : Sequence.Greediest input tail next counts) :
    Sequence.Greediest input (⟨atom, quantifier⟩ :: tail) pos (count :: counts) := by
  intro others stop h hlex
  obtain _ | ⟨hother, hothers⟩ := h
  rcases List.cons_lex_cons_iff.mp hlex with hlt | ⟨rfl, hrest⟩
  · exact hmore _ _ hother hlt stop (aligns_iff_takes.mpr ⟨_, hothers⟩)
  · obtain rfl := Node.takes_unique hatom hnode hother
    exact htail _ stop hothers hrest

/-- What is found has the greatest numbers. -/
theorem Sequence.greediest_of_matchAt {s : Sequence} (hs : ∀ node ∈ s, node.atom.Reports input)
    {pos stop : Nat} (h : Sequence.matchAt input s pos = some stop) :
    ∃ counts, s.Takes input counts pos stop ∧ s.Greediest input pos counts := by
  induction s generalizing pos stop with
  | nil =>
    rw [matchAt] at h
    obtain rfl : pos = stop := Option.some.inj h
    refine ⟨[], .nil, ?_⟩
    intro others other hothers hlex
    obtain ⟨⟩ := hothers
    cases hlex
  | cons node tail ih =>
    obtain ⟨hatom, hrest⟩ := List.forall_mem_cons.mp hs
    obtain ⟨atom, quantifier⟩ := node
    cases quantifier with
    | once =>
      rw [matchAt] at h
      obtain ⟨next, hhead, htail⟩ := Option.bind_eq_some_iff.mp h
      obtain ⟨counts, htakes, hgreediest⟩ := ih hrest htail
      have hnode : Node.Takes input ⟨atom, .once⟩ 1 pos next := .once (Atom.aligns_of_matchAt hhead)
      refine ⟨1 :: counts, .cons hnode htakes, greediest_cons hatom hnode ?_ hgreediest⟩
      intro more other hother hlt
      obtain ⟨_⟩ := hother
      exact absurd hlt (Nat.lt_irrefl 1)
    | optional =>
      rw [matchAt] at h
      cases htaken : (atom.matchAt input pos).bind fun next => Sequence.matchAt input tail next with
      | some found =>
        rw [htaken] at h
        obtain rfl : found = stop := Option.some.inj h
        obtain ⟨next, hhead, htail⟩ := Option.bind_eq_some_iff.mp htaken
        obtain ⟨counts, htakes, hgreediest⟩ := ih hrest htail
        have hnode : Node.Takes input ⟨atom, .optional⟩ 1 pos next :=
          .taken (Atom.aligns_of_matchAt hhead)
        refine ⟨1 :: counts, .cons hnode htakes, greediest_cons hatom hnode ?_ hgreediest⟩
        intro more other hother hlt
        obtain _ | _ | _ := hother
        · exact absurd hlt (Nat.lt_irrefl 1)
        · exact absurd hlt (Nat.not_lt_zero 1)
      | none =>
        rw [htaken] at h
        obtain ⟨counts, htakes, hgreediest⟩ := ih hrest h
        refine ⟨0 :: counts, .cons .skipped htakes, greediest_cons hatom .skipped ?_ hgreediest⟩
        intro more other hother hlt
        obtain _ | halign | _ := hother
        · rw [hatom halign, Option.bind_some] at htaken
          exact (finds_of_reports hrest).matchAt_eq_none_iff.mp htaken
        · exact absurd hlt (Nat.lt_irrefl 0)
    | repeated =>
      obtain ⟨place, hplace, htail, hfurthest⟩ := furthest_of_matchAt_repeated h
      obtain ⟨counts, htakes, hgreediest⟩ := ih hrest htail
      obtain ⟨count, hcopies⟩ :=
        (Atom.repeats_of_mem_orbit (fun _ _ => Atom.aligns_of_matchAt) hplace).copies
      refine ⟨(count + 1) :: counts, .cons (.repeated hcopies) htakes,
        greediest_cons hatom (.repeated hcopies) ?_ hgreediest⟩
      intro more other hother hlt
      obtain _ | _ | _ | hmore := hother
      have hfurther : place < other := hatom.lt_of_copies hcopies hmore hlt
      have hmem := hatom.mem_repetitions hmore.repeats
      exact (finds_of_reports hrest).matchAt_eq_none_iff.mp (hfurthest other hmem hfurther)

/-- **The alignment with the greatest numbers is found**, where groups leave no choice. -/
theorem Sequence.LeavesNoChoice.matchAt_eq_some_iff {s : Sequence} (hs : s.LeavesNoChoice input)
    {pos stop : Nat} :
    Sequence.matchAt input s pos = some stop ↔
      ∃ counts, s.Takes input counts pos stop ∧ s.Greediest input pos counts := by
  have hreports : ∀ node ∈ s, node.atom.Reports input := fun node hmem => (hs node hmem).reports
  constructor
  · exact greediest_of_matchAt hreports
  · rintro ⟨counts, htakes, hgreediest⟩
    obtain ⟨found, hfound⟩ := hs.finds (aligns_iff_takes.mpr ⟨counts, htakes⟩)
    obtain ⟨counts', htakes', hgreediest'⟩ := greediest_of_matchAt hreports hfound
    -- neither list of numbers comes before the other, so they are the same
    obtain rfl : counts = counts' :=
      List.le_antisymm (hgreediest' counts stop htakes) (hgreediest counts' found htakes')
    rw [hfound, takes_unique hreports htakes htakes']

end LineSearch
