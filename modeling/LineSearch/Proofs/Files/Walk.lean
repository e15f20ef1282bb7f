import LineSearch.Files.Walk
import LineSearch.Proofs.Files.Tree

/-! # The stops of a walk

A walk through a well-formed tree comes to everything that names lead to, once, in the
order of the names, compared one after the other and byte by byte (`Entry.exists_stops`).
Each directory puts only its own entries in order, but whatever is inside an entry has that
entry's name in front, so the entries' shares are in order as a whole if each of them is and
they stand in the order of their names (`Entry.exists_stops_inside`).  A link, or what is
special, is a stop without a visit.
-/
namespace LineSearch
namespace Listing

/-- The entries in the order of their names. -/
def inOrder (entries : Listing) : Listing := entries.mergeSort fun a b => nameLe a.1 b.1

theorem mem_inOrder {entries : Listing} {x : Bytes × Entry} : x ∈ entries.inOrder ↔ x ∈ entries :=
  (List.mergeSort_perm entries _).mem_iff

theorem pairwise_inOrder {entries : Listing} (hdistinct : (entries.map Prod.fst).Nodup) :
    entries.inOrder.Pairwise fun a b => a.1 < b.1 := by
  have hle : entries.inOrder.Pairwise fun a b => nameLe a.1 b.1 = true := by
    refine List.pairwise_mergeSort ?_ ?_ entries
    · intro a b c hab hbc
      exact decide_eq_true (List.le_trans (of_decide_eq_true hab) (of_decide_eq_true hbc))
    · intro a b
      rw [Bool.or_eq_true, nameLe, nameLe, decide_eq_true_iff, decide_eq_true_iff]
      exact List.le_total _ _
  have hne : entries.inOrder.Pairwise fun a b => a.1 ≠ b.1 :=
    List.pairwise_map.mp (((List.mergeSort_perm entries _).map Prod.fst).nodup_iff.mpr hdistinct)
  refine (hle.and hne).imp fun {a b} hab => ?_
  rcases List.le_iff_lt_or_eq.mp (of_decide_eq_true hab.1) with hlt | heq
  · exact hlt
  · exact absurd heq hab.2

/-- There is one order of the names. -/
theorem inOrder_eq {entries ordered : Listing} (hperm : ordered.Perm entries)
    (hordered : ordered.Pairwise fun a b => a.1 < b.1) : entries.inOrder = ordered := by
  have hdistinct : (ordered.map Prod.fst).Nodup :=
    List.pairwise_map.mpr (hordered.imp fun {a b} hlt (heq : a.1 = b.1) =>
      List.lt_irrefl b.1 (heq ▸ hlt))
  refine List.Perm.eq_of_pairwise (fun a b _ _ hab hba => ?_)
    (pairwise_inOrder ((hperm.map Prod.fst).nodup hdistinct)) hordered
    ((List.mergeSort_perm entries _).trans hperm.symm)
  exact absurd (List.lt_trans hab hba) (List.lt_irrefl _)

end Listing

theorem sharesOf_eq_map (path : Bytes) (entries : Listing) : sharesOf path entries =
    entries.map fun x => (x.1, x.2.visits (Path.join path x.1)) := by
  induction entries with
  | nil => rw [sharesOf, List.map_nil]
  | cons x rest ih => rw [sharesOf, ih, List.map_cons]

namespace Entry

@[simp] theorem visits_file (path : Bytes) (contents : Except AccessError Bytes) :
    (Entry.file contents).visits path = [.file path] := by rw [visits]

@[simp] theorem visits_special (path : Bytes) (contents : Except AccessError Bytes) :
    (Entry.special contents).visits path = [] := by rw [visits]

@[simp] theorem visits_link (path target : Bytes) : (Entry.link target).visits path = [] := by
  rw [visits]

/-- A walk visits a directory and then walks through its entries in the order of their names. -/
theorem visits_directory (path : Bytes) (locks : Locks) (entries : Listing) :
    (Entry.directory locks entries).visits path = .directory path ::
      entries.inOrder.flatMap fun x => x.2.visits (Path.join path x.1) := by
  have hsorted : (sharesOf path entries).mergeSort (fun a b => nameLe a.1 b.1) =
      entries.inOrder.map fun x => (x.1, x.2.visits (Path.join path x.1)) := by
    rw [sharesOf_eq_map]
    exact (List.map_mergeSort (f := fun x : Bytes × Entry =>
      (x.1, x.2.visits (Path.join path x.1))) fun _ _ _ _ => rfl).symm
  rw [visits, inNameOrder, hsorted, List.flatMap_map]

/-- What a walk visits of an entry with this path, apart from what is inside it. -/
def visit? (path : Bytes) : Entry → Option Visit
  | .file _ => some (.file path)
  | .special _ => none
  | .link _ => none
  | .directory _ _ => some (.directory path)

/-- The stops, entries under the names that lead to them, are all that `Reached` says, in the order
of the names, and `visits` are the visits to them, whatever the path is that the names begin at. -/
structure Stops (visits : Bytes → List Visit) (Reached : List Bytes → Entry → Prop)
    (stops : List (List Bytes × Entry)) : Prop where
  /-- A visit is shown as the names below the path. -/
  shown : ∀ path, visits path =
    stops.filterMap fun stop => stop.2.visit? (stop.1.foldl Path.join path)
  /-- Nothing else is a stop, and nothing is left out. -/
  complete : ∀ names inner, (names, inner) ∈ stops ↔ Reached names inner
  /-- The names increase from stop to stop. -/
  ordered : stops.Pairwise fun a b => a.1 < b.1

/-- The stops of entries in the order of their names, one entry's share behind the other. -/
theorem exists_stops_inside {entries : Listing}
    (hordered : entries.Pairwise fun a b => a.1 < b.1)
    (hinside : ∀ x ∈ entries, ∃ stops, Stops x.2.visits x.2.Leads stops) :
    ∃ stops, Stops (fun path => entries.flatMap fun x => x.2.visits (Path.join path x.1))
      (fun names inner => ∃ x ∈ entries, ∃ rest, names = x.1 :: rest ∧ x.2.Leads rest inner)
      stops := by
  induction entries with
  | nil =>
    refine ⟨[], fun _ => rfl, fun names inner => ?_, .nil⟩
    exact iff_of_false List.not_mem_nil fun ⟨_, hmem, _⟩ => List.not_mem_nil hmem
  | cons x more ih =>
    obtain ⟨hx, hmore⟩ := List.pairwise_cons.mp hordered
    obtain ⟨⟨share, hshare⟩, hinside⟩ := List.forall_mem_cons.mp hinside
    obtain ⟨rest, hrest⟩ := ih hmore hinside
    -- the first entry's share, each stop with the entry's name in front, and the other shares
    refine ⟨share.map (fun stop => (x.1 :: stop.1, stop.2)) ++ rest, ?_, ?_, ?_⟩
    · intro path
      rw [List.flatMap_cons, List.filterMap_append, List.filterMap_map, ← hrest.shown path,
        hshare.shown]
      rfl
    · intro names inner
      rw [List.mem_append, hrest.complete, List.mem_map]
      constructor
      · rintro (⟨stop, hstop, heq⟩ | ⟨y, hy, hreached⟩)
        · cases heq
          exact ⟨x, List.mem_cons_self, stop.1, rfl, (hshare.complete _ _).mp hstop⟩
        · exact ⟨y, List.mem_cons_of_mem x hy, hreached⟩
      · rintro ⟨y, hy, below, rfl, hleads⟩
        rcases List.mem_cons.mp hy with rfl | hy
        · exact .inl ⟨(below, inner), (hshare.complete _ _).mpr hleads, rfl⟩
        · exact .inr ⟨y, hy, below, rfl, hleads⟩
    · rw [List.pairwise_append]
      -- within the share the first names agree, towards the other shares they decide
      refine ⟨?_, hrest.ordered, ?_⟩
      · refine List.pairwise_map.mpr (hshare.ordered.imp fun hlt => ?_)
        exact List.cons_lt_cons_iff.mpr (.inr ⟨rfl, hlt⟩)
      · intro a ha b hb
        obtain ⟨stop, -, rfl⟩ := List.mem_map.mp ha
        obtain ⟨y, hy, below, hnames, -⟩ := (hrest.complete b.1 b.2).mp hb
        rw [hnames]
        exact List.cons_lt_cons_iff.mpr (.inl (hx y hy))

/-- **A walk comes to all that names lead to, in the order of the names.** -/
theorem exists_stops {entry : Entry} (h : entry.WellFormed) :
    ∃ stops, Stops entry.visits entry.Leads stops := by
  induction entry using Entry.induction with
  | file contents =>
    refine ⟨[([], .file contents)], fun path => ?_, fun names inner => ?_,
      List.pairwise_singleton _ _⟩
    · rw [visits_file]
      rfl
    · rw [List.mem_singleton, leads_iff_of_leaf (fun _ _ h => by cases h), Prod.mk.injEq]
  | special contents =>
    refine ⟨[([], .special contents)], fun path => ?_, fun names inner => ?_,
      List.pairwise_singleton _ _⟩
    · rw [visits_special]
      rfl
    · rw [List.mem_singleton, leads_iff_of_leaf (fun _ _ h => by cases h), Prod.mk.injEq]
  | link target =>
    refine ⟨[([], .link target)], fun path => ?_, fun names inner => ?_,
      List.pairwise_singleton _ _⟩
    · rw [visits_link]
      rfl
    · rw [List.mem_singleton, leads_iff_of_leaf (fun _ _ h => by cases h), Prod.mk.injEq]
  | directory locks entries ih =>
    cases h with
    | directory _ hdistinct _ hinside =>
      have hshares : ∀ x ∈ Listing.inOrder entries, ∃ stops, Stops x.2.visits x.2.Leads stops :=
        fun x hx => ih x (Listing.mem_inOrder.mp hx) (hinside x (Listing.mem_inOrder.mp hx))
      obtain ⟨inside, hstops⟩ := exists_stops_inside (Listing.pairwise_inOrder hdistinct) hshares
      refine ⟨([], .directory locks entries) :: inside, fun path => ?_, fun names inner => ?_, ?_⟩
      · rw [visits_directory, List.filterMap_cons]
        exact congrArg (Visit.directory path :: ·) (hstops.shown path)
      · rw [List.mem_cons, hstops.complete, Prod.mk.injEq]
        cases names with
        | nil =>
          rw [leads_nil_iff]
          constructor
          · rintro (⟨-, heq⟩ | ⟨x, -, below, hnames, -⟩)
            · exact heq
            · cases hnames
          · exact fun heq => .inl ⟨rfl, heq⟩
        | cons name rest =>
          rw [leads_cons_iff]
          constructor
          · rintro (⟨hnames, -⟩ | ⟨x, hx, below, hnames, hleads⟩)
            · cases hnames
            · cases hnames
              exact ⟨x.2, Listing.mem_inOrder.mp hx, hleads⟩
          · rintro ⟨next, hmem, hleads⟩
            exact .inr ⟨(name, next), Listing.mem_inOrder.mpr hmem, rest, rfl, hleads⟩
      · refine List.pairwise_cons.mpr ⟨fun b hb => ?_, hstops.ordered⟩
        obtain ⟨x, -, below, hnames, -⟩ := (hstops.complete b.1 b.2).mp hb
        rw [hnames]
        exact List.nil_lt_cons _ _

end Entry
end LineSearch
