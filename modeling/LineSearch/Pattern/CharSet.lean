/-! # Finite sets of characters

A bracket expression such as `[abc]` names a finite set of characters.  The set
is kept as the list of its members in strictly increasing order, so it is
determined by its members: two sets with the same members are equal
(`CharSet.ext_mem`), whatever the order and the repetitions of the text they
were read from.
-/
namespace LineSearch

/-- A finite set of characters: its members, in strictly increasing order. -/
structure CharSet where
  /-- The members, each once. -/
  members : List Char
  /-- The members increase strictly. -/
  increasing : members.Pairwise (· < ·)
deriving DecidableEq

namespace CharSet

/-! ### Inserting into an increasing list -/

/-- Put `c` at its place in an increasing list that may hold it already. -/
def place (c : Char) : List Char → List Char
  | [] => [c]
  | d :: rest =>
    if c < d then c :: d :: rest
    else if c = d then d :: rest
    else d :: place c rest

theorem mem_place {c x : Char} : ∀ {l : List Char}, x ∈ place c l ↔ x = c ∨ x ∈ l
  | [] => by simp [place]
  | d :: rest => by
      unfold place
      split
      · simp
      · split
        · next h => subst h; simp
        · simp only [List.mem_cons, mem_place (l := rest)]
          grind

theorem pairwise_place {c : Char} :
    ∀ {l : List Char}, l.Pairwise (· < ·) → (place c l).Pairwise (· < ·)
  | [], _ => by simp [place]
  | d :: rest, h => by
      have hd := List.pairwise_cons.mp h
      unfold place
      split
      · next hlt =>
        refine List.pairwise_cons.mpr ⟨fun x hx => ?_, h⟩
        rcases List.mem_cons.mp hx with rfl | hx
        · exact hlt
        · exact Char.lt_trans hlt (hd.1 x hx)
      · split
        · exact h
        · next hlt hne =>
          refine List.pairwise_cons.mpr ⟨fun x hx => ?_, pairwise_place hd.2⟩
          rcases mem_place.mp hx with rfl | hx
          · exact Char.not_le.mp fun hle => hne (Char.le_antisymm hle (Char.not_lt.mp hlt))
          · exact hd.1 x hx

/-! ### The operations -/

/-- The set without members. -/
def empty : CharSet := ⟨[], .nil⟩

/-- The set `s` with `c` as a further member. -/
def insert (s : CharSet) (c : Char) : CharSet :=
  ⟨place c s.members, pairwise_place s.increasing⟩

/-- The set of the characters of a list. -/
def ofList (cs : List Char) : CharSet := cs.foldl insert empty

/-- Whether `c` is a member. -/
def contains (s : CharSet) (c : Char) : Bool := s.members.contains c

instance : Membership Char CharSet := ⟨fun s c => c ∈ s.members⟩

theorem contains_iff {s : CharSet} {c : Char} : s.contains c = true ↔ c ∈ s :=
  List.contains_iff_mem

@[simp] theorem mem_insert {s : CharSet} {c x : Char} : x ∈ s.insert c ↔ x = c ∨ x ∈ s :=
  mem_place

@[simp] theorem mem_ofList {cs : List Char} {x : Char} : x ∈ ofList cs ↔ x ∈ cs := by
  suffices h : ∀ s : CharSet, x ∈ cs.foldl insert s ↔ x ∈ cs ∨ x ∈ s by
    have he : ¬ x ∈ empty := List.not_mem_nil
    simpa [ofList, he] using h empty
  induction cs with
  | nil => simp
  | cons c cs ih => intro s; rw [List.foldl_cons, ih]; simp; grind

/-- An increasing list is determined by its members. -/
theorem eq_of_mem_iff : ∀ {l m : List Char}, l.Pairwise (· < ·) → m.Pairwise (· < ·) →
    (∀ x, x ∈ l ↔ x ∈ m) → l = m
  | [], [], _, _, _ => rfl
  | [], d :: _, _, _, h => absurd ((h d).mpr List.mem_cons_self) List.not_mem_nil
  | c :: _, [], _, _, h => absurd ((h c).mp List.mem_cons_self) List.not_mem_nil
  | c :: l, d :: m, hl, hm, h => by
      have hc := List.pairwise_cons.mp hl
      have hd := List.pairwise_cons.mp hm
      have least : c = d := by
        rcases List.mem_cons.mp ((h c).mp List.mem_cons_self) with e | hcm
        · exact e
        · rcases List.mem_cons.mp ((h d).mpr List.mem_cons_self) with e | hdl
          · exact e.symm
          · exact absurd (hc.1 d hdl) (Char.lt_asymm (hd.1 c hcm))
      subst least
      refine congrArg (c :: ·) (eq_of_mem_iff hc.2 hd.2 fun x => ⟨fun hx => ?_, fun hx => ?_⟩)
      · rcases List.mem_cons.mp ((h x).mp (List.mem_cons_of_mem _ hx)) with rfl | hx'
        · exact absurd (hc.1 x hx) (Char.lt_irrefl x)
        · exact hx'
      · rcases List.mem_cons.mp ((h x).mpr (List.mem_cons_of_mem _ hx)) with rfl | hx'
        · exact absurd (hd.1 x hx) (Char.lt_irrefl x)
        · exact hx'

/-- Sets with the same members are equal. -/
theorem ext_mem {s t : CharSet} (h : ∀ x, x ∈ s ↔ x ∈ t) : s = t := by
  cases s with
  | mk l hl =>
    cases t with
    | mk m hm => congr; exact eq_of_mem_iff hl hm h

end CharSet
end LineSearch
