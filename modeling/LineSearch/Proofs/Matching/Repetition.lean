import LineSearch.Proofs.Matching.Alignment

/-! # Repetition

The places a repeated node can end at are found by stepping on from its beginning
(`orbit`), for as many steps as there is room before the end of the text.  No step
goes back or leaves the text, so the room always suffices: the places behind the
first one are those of a repetition that begins there (`Atom.repetitions_eq`), they
come in increasing order, and a repeated node that has to fall back does so to the
furthest place from which the nodes behind it match
(`Sequence.matchAt_repeated_of_mem`).
-/
namespace LineSearch

/-! ### Steps within a limit -/

section Steps
variable {step : Nat → Option Nat} {limit : Nat}
  (hstep : ∀ {place next}, step place = some next → place ≤ next ∧ next ≤ max place limit)
include hstep

theorem orbit_of_limit_le {room pos : Nat} (h : limit ≤ pos) : orbit step room pos = [] := by
  cases room with
  | zero => rfl
  | succ room =>
    rw [orbit_succ]
    split
    · rfl
    · next next hnext =>
      have := hstep hnext
      exact if_pos (by omega)

/-- Room beyond the limit is not used. -/
theorem orbit_eq_of_room {room room' pos : Nat} (h : limit - pos ≤ room)
    (h' : limit - pos ≤ room') : orbit step room pos = orbit step room' pos := by
  induction room generalizing room' pos with
  | zero =>
    have hle : limit ≤ pos := by omega
    rw [orbit_of_limit_le hstep hle, orbit_of_limit_le hstep hle]
  | succ room ih =>
    cases room' with
    | zero =>
      have hle : limit ≤ pos := by omega
      rw [orbit_of_limit_le hstep hle, orbit_of_limit_le hstep hle]
    | succ room' =>
      rw [orbit_succ, orbit_succ]
      split
      · rfl
      · next next hnext =>
        have := hstep hnext
        split
        · rfl
        · have hrest : orbit step room next = orbit step room' next := ih (by omega) (by omega)
          rw [hrest]

/-- The places of an orbit increase, and the first is further on than its beginning. -/
theorem orbit_increasing : ∀ {room pos : Nat}, (pos :: orbit step room pos).Pairwise (· < ·)
  | 0, _ => List.pairwise_singleton _ _
  | room + 1, pos => by
      rw [orbit_succ]
      split
      · exact List.pairwise_singleton _ _
      · next next hnext =>
        split
        · exact List.pairwise_singleton _ _
        · have hlt : pos < next := by
            have := hstep hnext
            omega
          have hrest : (next :: orbit step room next).Pairwise (· < ·) := orbit_increasing
          refine List.pairwise_cons.mpr ⟨fun place hplace => ?_, hrest⟩
          rcases List.mem_cons.mp hplace with rfl | hplace
          · exact hlt
          · exact Nat.lt_trans hlt ((List.pairwise_cons.mp hrest).1 place hplace)

end Steps

/-! ### Repetitions of an atom -/

variable {input : Array Char}

/-- An atom steps within the text. -/
theorem Atom.matchAt_bounds {atom : Atom} {pos next : Nat} (h : atom.matchAt input pos = some next) :
    pos ≤ next ∧ next ≤ max pos input.size := (aligns_of_matchAt h).bounds

/-- After a first step that advances, a repetition goes on as one that begins there. -/
theorem Atom.repetitions_eq (atom : Atom) (pos : Nat) :
    atom.repetitions input pos =
      match atom.matchAt input pos with
      | none => []
      | some next => if next = pos then [] else next :: atom.repetitions input next := by
  have hroom : atom.repetitions input pos =
      orbit (atom.matchAt input) (input.size - pos + 1) pos :=
    orbit_eq_of_room matchAt_bounds (Nat.le_refl _) (Nat.le_succ _)
  rw [hroom, orbit_succ]
  cases hstep : atom.matchAt input pos with
  | none => rfl
  | some next =>
    by_cases hstay : next = pos
    · simp only [hstay, if_true]
    · have := matchAt_bounds hstep
      have hrest : orbit (atom.matchAt input) (input.size - pos) next =
          atom.repetitions input next :=
        orbit_eq_of_room matchAt_bounds (by omega) (Nat.le_refl _)
      simp only [hstay, if_false, hrest]

theorem Atom.repetitions_of_matchAt {atom : Atom} {pos next : Nat}
    (h : atom.matchAt input pos = some next) (hlt : pos < next) :
    atom.repetitions input pos = next :: atom.repetitions input next := by
  rw [repetitions_eq, h]
  exact if_neg (by omega)

theorem Atom.repetitions_increasing (atom : Atom) (pos : Nat) :
    (pos :: atom.repetitions input pos).Pairwise (· < ·) := orbit_increasing matchAt_bounds

/-- Wherever the atom can end, it is found to end. -/
def Atom.Reports (input : Array Char) (atom : Atom) : Prop :=
  ∀ ⦃pos stop⦄, atom.Aligns input pos stop → atom.matchAt input pos = some stop

/-- If an atom reports every place it can end at, its repetitions reach every place they can end
at. -/
theorem Atom.Reports.mem_repetitions {atom : Atom} (hatom : atom.Reports input) :
    ∀ {pos stop : Nat}, atom.Repeats input pos stop → stop ∈ atom.repetitions input pos
  | _, _, .last h hlt => by
      rw [repetitions_of_matchAt (hatom h) hlt]
      exact List.mem_cons_self
  | _, _, .more h hlt hrest => by
      rw [repetitions_of_matchAt (hatom h) hlt]
      exact List.mem_cons_of_mem _ (hatom.mem_repetitions hrest)

/-- In a decreasing list nothing before a success is smaller. -/
theorem findSome?_of_decreasing {f : Nat → Option Nat} {a stop : Nat} (hf : f a = some stop) :
    ∀ {l : List Nat}, l.Pairwise (· > ·) → a ∈ l →
      ∃ b found, a ≤ b ∧ f b = some found ∧ l.findSome? f = some found
  | [], _, ha => absurd ha List.not_mem_nil
  | b :: rest, hl, ha => by
      obtain ⟨hb, hrest⟩ := List.pairwise_cons.mp hl
      have hle : a ≤ b := by
        rcases List.mem_cons.mp ha with rfl | ha
        · exact Nat.le_refl _
        · exact Nat.le_of_lt (hb a ha)
      cases hfb : f b with
      | some found => exact ⟨b, found, hle, hfb, by rw [List.findSome?_cons, hfb]⟩
      | none =>
        have ha' : a ∈ rest := by
          rcases List.mem_cons.mp ha with rfl | ha
          · rw [hf] at hfb; cases hfb
          · exact ha
        rw [List.findSome?_cons, hfb]
        exact findSome?_of_decreasing hf hrest ha'

/-- Where the nodes behind a repeated node match from one of its places, the node ends at such a
place and at none nearer. -/
theorem Sequence.matchAt_repeated_of_mem {atom : Atom} {tail : Sequence} {pos place stop : Nat}
    (hmem : place ∈ atom.repetitions input pos)
    (htail : Sequence.matchAt input tail place = some stop) :
    ∃ further found, place ≤ further ∧ Sequence.matchAt input tail further = some found ∧
      Sequence.matchAt input (⟨atom, .repeated⟩ :: tail) pos = some found := by
  rw [matchAt_repeated]
  refine findSome?_of_decreasing htail (List.pairwise_reverse.mpr ?_) (List.mem_reverse.mpr hmem)
  exact (List.pairwise_cons.mp (atom.repetitions_increasing pos)).2

/-! ### Sequences that find a match where they have one -/

/-- Wherever the sequence is aligned it is found to match. -/
def Sequence.Finds (input : Array Char) (s : Sequence) : Prop :=
  ∀ ⦃pos stop⦄, Sequence.Aligns input s pos stop →
    ∃ found, Sequence.matchAt input s pos = some found

theorem Sequence.Finds.matchAt_eq_none_iff {s : Sequence} (h : s.Finds input) {pos : Nat} :
    Sequence.matchAt input s pos = none ↔ ∀ stop, ¬ Sequence.Aligns input s pos stop := by
  constructor
  · intro hnone stop halign
    obtain ⟨found, hfound⟩ := h halign
    rw [hnone] at hfound
    cases hfound
  · intro hno
    apply Option.eq_none_iff_forall_ne_some.mpr
    intro stop hstop
    exact hno stop (aligns_of_matchAt hstop)

end LineSearch
