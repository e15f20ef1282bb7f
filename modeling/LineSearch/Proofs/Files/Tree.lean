import LineSearch.Files.Lookup
import LineSearch.Proofs.Files.Paths

/-! # What names lead to in a tree

In a tree of files the names in each directory differ and each of them is one that a directory
can hold an entry under (`Entry.WellFormed`).  `Entry.Leads` is reachability through real
directories: names are looked up in one directory after the other, and a link, like a file, leads
nowhere.  What is locked or unreadable is still there, so `Leads` does not ask for it.  In a
well-formed tree names lead to one entry at most, and all of them can stand in a path.
-/
namespace LineSearch
namespace Entry

/-- Induction on a tree, with the hypothesis for all entries of a directory. -/
@[elab_as_elim]
theorem induction {motive : Entry → Prop} (file : ∀ contents, motive (.file contents))
    (special : ∀ contents, motive (.special contents)) (link : ∀ target, motive (.link target))
    (directory : ∀ locks entries, (∀ x ∈ entries, motive x.2) → motive (.directory locks entries))
    (entry : Entry) : motive entry :=
  match entry with
  | .file contents => file contents
  | .special contents => special contents
  | .link target => link target
  | .directory locks entries =>
    directory locks entries fun x _ => Entry.induction file special link directory x.2
termination_by entry
decreasing_by
  rename_i hmem
  have hsize := List.sizeOf_lt_of_mem hmem
  cases x
  simp only [Prod.mk.sizeOf_spec, Entry.directory.sizeOf_spec] at hsize ⊢
  omega

/-- The names in each directory differ and can stand for entries. -/
inductive WellFormed : Entry → Prop
  | file (contents : Except AccessError Bytes) : WellFormed (.file contents)
  | special (contents : Except AccessError Bytes) : WellFormed (.special contents)
  | link (target : Bytes) : WellFormed (.link target)
  | directory (locks : Locks) {entries : Listing} (distinct : (entries.map Prod.fst).Nodup)
      (named : ∀ x ∈ entries, Path.IsEntryName x.1) (inside : ∀ x ∈ entries, WellFormed x.2) :
      WellFormed (.directory locks entries)

/-- Names lead from an entry to another one through real directories. -/
inductive Leads : Entry → List Bytes → Entry → Prop
  | here (entry : Entry) : Leads entry [] entry
  | inside {locks : Locks} {entries : Listing} {name : Bytes} {inner last : Entry}
      {names : List Bytes} (mem : (name, inner) ∈ entries) (leads : Leads inner names last) :
      Leads (.directory locks entries) (name :: names) last

theorem leads_nil_iff {entry last : Entry} : entry.Leads [] last ↔ last = entry := by
  constructor
  · rintro (_ | _)
    rfl
  · rintro rfl
    exact .here last

theorem leads_cons_iff {locks : Locks} {entries : Listing} {name : Bytes} {names : List Bytes}
    {last : Entry} : (directory locks entries).Leads (name :: names) last ↔
      ∃ inner, (name, inner) ∈ entries ∧ inner.Leads names last := by
  constructor
  · rintro (_ | ⟨hmem, hleads⟩)
    exact ⟨_, hmem, hleads⟩
  · rintro ⟨inner, hmem, hleads⟩
    exact .inside hmem hleads

/-- No names lead on from what is no directory. -/
theorem leads_iff_of_leaf {entry last : Entry}
    (hleaf : ∀ locks entries, entry ≠ .directory locks entries) {names : List Bytes} :
    entry.Leads names last ↔ names = [] ∧ last = entry := by
  constructor
  · intro hleads
    cases hleads with
    | here => exact ⟨rfl, rfl⟩
    | inside => exact absurd rfl (hleaf _ _)
  · rintro ⟨rfl, rfl⟩
    exact .here last

/-- A name stands for one entry of a directory. -/
theorem eq_of_mem_of_mem {entries : Listing} (hdistinct : (entries.map Prod.fst).Nodup)
    {name : Bytes} {first second : Entry} (hfirst : (name, first) ∈ entries)
    (hsecond : (name, second) ∈ entries) : first = second := by
  induction entries with
  | nil => exact absurd hfirst List.not_mem_nil
  | cons x more ih =>
    obtain ⟨hhead, hmore⟩ := List.nodup_cons.mp hdistinct
    have hname : ∀ {entry : Entry}, (name, entry) ∈ more → x.1 ≠ name := fun hmem heq =>
      hhead (heq ▸ List.mem_map_of_mem hmem)
    rcases List.mem_cons.mp hfirst with heq | hlater
    · rcases List.mem_cons.mp hsecond with heq' | hlater'
      · exact congrArg Prod.snd (heq.trans heq'.symm)
      · exact absurd (congrArg Prod.fst heq).symm (hname hlater')
    · rcases List.mem_cons.mp hsecond with heq' | hlater'
      · exact absurd (congrArg Prod.fst heq').symm (hname hlater)
      · exact ih hmore hlater hlater'

/-- A name is looked up among the entries. -/
theorem mem_of_lookup {entries : Listing} {name : Bytes} {entry : Entry}
    (h : entries.lookup name = some entry) : (name, entry) ∈ entries := by
  obtain ⟨before, after, rfl, -⟩ := List.lookup_eq_some_iff.mp h
  exact List.mem_append_right _ List.mem_cons_self

/-- What a name stands for is found by looking it up. -/
theorem lookup_eq_some {entries : Listing} (hdistinct : (entries.map Prod.fst).Nodup)
    {name : Bytes} {entry : Entry} (hmem : (name, entry) ∈ entries) :
    entries.lookup name = some entry := by
  cases hlookup : entries.lookup name with
  | none =>
    have hne := List.lookup_eq_none_iff.mp hlookup (name, entry) hmem
    exact absurd rfl (bne_iff_ne.mp hne)
  | some other => rw [eq_of_mem_of_mem hdistinct hmem (mem_of_lookup hlookup)]

/-- Names that go on behind others lead on from where these lead. -/
theorem Leads.append_iff {entry middle last : Entry} {names more : List Bytes}
    (hleads : entry.Leads names middle) (hentry : entry.WellFormed) :
    entry.Leads (names ++ more) last ↔ middle.Leads more last := by
  induction hleads with
  | here => exact Iff.rfl
  | inside hmem _ ih =>
    cases hentry with
    | directory _ hdistinct _ hinside =>
      rw [List.cons_append, leads_cons_iff, ← ih (hinside _ hmem)]
      -- the first name stands for one entry only, so both ways go through it
      constructor
      · rintro ⟨other, hother, hleads⟩
        rwa [← eq_of_mem_of_mem hdistinct hother hmem]
      · exact fun hleads => ⟨_, hmem, hleads⟩

/-- All names that are followed in a well-formed tree can stand for entries. -/
theorem Leads.named {entry last : Entry} {names : List Bytes} (hleads : entry.Leads names last)
    (hentry : entry.WellFormed) : ∀ name ∈ names, Path.IsEntryName name := by
  induction hleads with
  | here => exact fun _ hname => absurd hname List.not_mem_nil
  | inside hmem _ ih =>
    cases hentry with
    | directory _ _ hnamed hinside =>
      exact List.forall_mem_cons.mpr ⟨hnamed _ hmem, ih (hinside _ hmem)⟩

end Entry

/-- The trees of all directories are well formed. -/
structure FileSystem.WellFormed (fs : FileSystem) : Prop where
  root : fs.root.entry.WellFormed
  current : ∀ d ∈ fs.current, d.entry.WellFormed

end LineSearch
