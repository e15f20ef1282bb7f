import LineSearch.Proofs.Files.Tree

/-! # Where following names leads

What one name does does not depend on the names behind it (`Lookup.follow_cases`): it fails,
or it leads to a place, or it comes to a file or to a link.  So what passes from a directory to
its entries holds wherever names lead, links on the way included (`FileSystem.look_wellFormed`),
and names that lead to a place can be followed further from there
(`Lookup.followWithin_append`).
-/
namespace LineSearch
namespace Lookup
variable {root : Directory}

/-- **What a name can do.** -/
theorem follow_cases (root : Directory) (onLink : List Bytes → Place → Except AccessError Goal)
    (name : Bytes) (here : Place) :
    (∃ error, ∀ rest, follow root onLink (name :: rest) here = .error error) ∨
    (∃ next, (next = here ∨ next = here.tail ∨ ∃ locks entries,
        (directoryAt root here).entries.lookup name = some (.directory locks entries) ∧
        next = ⟨locks, entries⟩ :: here) ∧
      ∀ rest, follow root onLink (name :: rest) here = follow root onLink rest next) ∨
    (∃ contents, ∀ rest, follow root onLink (name :: rest) here =
      if rest.isEmpty then .ok (.file contents) else .error .notADirectory) ∨
    ∃ target, ∀ rest, follow root onLink (name :: rest) here =
      onLink (Path.names target ++ rest) (startOf target here) := by
  by_cases hempty : name = []
  · exact .inr (.inl ⟨here, .inl rfl, fun rest => by rw [follow, if_pos hempty]⟩)
  cases hpassing : (directoryAt root here).locks.passing with
  | some cause => exact .inl ⟨cause, fun rest => by rw [follow, if_neg hempty, hpassing]⟩
  | none =>
    by_cases hdot : name = Path.dot
    · refine .inr (.inl ⟨here, .inl rfl, fun rest => ?_⟩)
      simp only [follow, if_neg hempty, hpassing, if_pos hdot]
    by_cases hdots : name = Path.dots
    · refine .inr (.inl ⟨here.tail, .inr (.inl rfl), fun rest => ?_⟩)
      simp only [follow, if_neg hempty, hpassing, if_neg hdot, if_pos hdots]
    by_cases hlong : Path.nameLimit < name.length
    · refine .inl ⟨.nameTooLong, fun rest => ?_⟩
      simp only [follow, if_neg hempty, hpassing, if_neg hdot, if_neg hdots, if_pos hlong]
    -- the name is looked up
    have hfollow := fun rest => follow.eq_2 root onLink here name rest
    simp only [if_neg hempty, hpassing, if_neg hdot, if_neg hdots, if_neg hlong] at hfollow
    cases hlookup : (directoryAt root here).entries.lookup name with
    | none => exact .inl ⟨.notFound, fun rest => by rw [hfollow, hlookup]⟩
    | some entry =>
      cases entry with
      | file contents =>
        exact .inr (.inr (.inl ⟨contents, fun rest => by rw [hfollow, hlookup]⟩))
      | special contents =>
        exact .inr (.inr (.inl ⟨contents, fun rest => by rw [hfollow, hlookup]⟩))
      | link target => exact .inr (.inr (.inr ⟨target, fun rest => by rw [hfollow, hlookup]⟩))
      | directory locks entries =>
        exact .inr (.inl ⟨_, .inr (.inr ⟨locks, entries, rfl, rfl⟩), fun rest => by
          rw [hfollow, hlookup]⟩)

/-- No name can be followed in a locked directory. -/
theorem follow_locked {here : Place} {name : Bytes} (hname : name ≠ []) {cause : AccessError}
    (hpassing : (directoryAt root here).locks.passing = some cause)
    (onLink : List Bytes → Place → Except AccessError Goal) (rest : List Bytes) :
    follow root onLink (name :: rest) here = .error cause := by
  rw [follow, if_neg hname, hpassing]

/-- The name of an entry leads to it, whatever is done with links, unless it is a link itself. -/
theorem follow_entry {here : Place} {name : Bytes} {entry : Entry} (hname : Path.IsEntryName name)
    (hpassing : (directoryAt root here).locks.passing = none)
    (hlookup : (directoryAt root here).entries.lookup name = some entry)
    (onLink : List Bytes → Place → Except AccessError Goal) :
    (∀ contents, entry = .file contents ∨ entry = .special contents →
      follow root onLink [name] here = .ok (.file contents)) ∧
    ∀ locks entries, entry = .directory locks entries → ∀ rest,
      follow root onLink (name :: rest) here =
        follow root onLink rest (⟨locks, entries⟩ :: here) := by
  have hshort : ¬ Path.nameLimit < name.length := Nat.not_lt.mpr hname.length_le
  constructor
  · rintro contents (rfl | rfl)
    all_goals
      simp only [follow, if_neg hname.isName.1, hpassing, if_neg hname.ne_dot, if_neg hname.ne_dots,
        if_neg hshort, hlookup]
      rfl
  · rintro locks entries rfl rest
    simp only [follow, if_neg hname.isName.1, hpassing, if_neg hname.ne_dot, if_neg hname.ne_dots,
      if_neg hshort, hlookup]

/-! ## Well-formed trees -/

/-- The trees of all directories of a place are well formed. -/
def Place.WellFormed (place : Place) : Prop := ∀ d ∈ place, d.entry.WellFormed

/-- The tree of what is found is well formed. -/
def Goal.WellFormed : Goal → Prop
  | .file _ => True
  | .place here => Place.WellFormed here

theorem directoryAt_wellFormed (hroot : root.entry.WellFormed) {here : Place}
    (hhere : Place.WellFormed here) : (directoryAt root here).entry.WellFormed := by
  cases here with
  | nil => exact hroot
  | cons d above => exact hhere d List.mem_cons_self

theorem startOf_wellFormed {here : Place} (hhere : Place.WellFormed here) (path : Bytes) :
    Place.WellFormed (startOf path here) := by
  rw [startOf]
  split
  · exact fun _ hmem => absurd hmem List.not_mem_nil
  · exact hhere

/-- Names lead from well-formed trees to well-formed trees, if links do. -/
theorem follow_wellFormed (hroot : root.entry.WellFormed)
    {onLink : List Bytes → Place → Except AccessError Goal}
    (honLink : ∀ names here goal, Place.WellFormed here → onLink names here = .ok goal →
      goal.WellFormed)
    (names : List Bytes) {here : Place} (hhere : Place.WellFormed here)
    {goal : Goal} (h : follow root onLink names here = .ok goal) : goal.WellFormed := by
  induction names generalizing here with
  | nil =>
    cases h
    exact hhere
  | cons name rest ih =>
    rcases follow_cases root onLink name here with
      ⟨error, herror⟩ | ⟨next, hnext, hgoesOn⟩ | ⟨contents, hfile⟩ | ⟨target, hlink⟩
    · rw [herror] at h
      cases h
    · rw [hgoesOn] at h
      rcases hnext with rfl | rfl | ⟨locks, entries, hlookup, rfl⟩
      · exact ih hhere h
      · exact ih (fun d hmem => hhere d (List.mem_of_mem_tail hmem)) h
      · have hinner : (Directory.mk locks entries).entry.WellFormed := by
          cases directoryAt_wellFormed hroot hhere with
          | directory _ _ _ hinside => exact hinside _ (Entry.mem_of_lookup hlookup)
        exact ih (List.forall_mem_cons.mpr ⟨hinner, hhere⟩) h
    · rw [hfile] at h
      split at h
      · cases h
        trivial
      · cases h
    -- the target is followed from the same place or from the root
    · rw [hlink] at h
      exact honLink _ _ _ (startOf_wellFormed hhere target) h

theorem followWithin_wellFormed (hroot : root.entry.WellFormed) (links : Nat) {names : List Bytes}
    {here : Place} (hhere : Place.WellFormed here) {goal : Goal}
    (h : followWithin root links names here = .ok goal) : goal.WellFormed := by
  induction links generalizing names here goal with
  | zero => exact follow_wellFormed hroot (fun _ _ _ _ h => by cases h) names hhere h
  | succ links ih => exact follow_wellFormed hroot (fun _ _ _ hhere h => ih hhere h) names hhere h

/-! ## Following names further -/

section
variable {tail more : List Bytes} {place : Place} {result : Except AccessError Goal}

/-- Names that lead to a place can be followed further from there, if this is so behind links.
Names `tail` at their end that lead nowhere else may be left out. -/
theorem follow_append {onLink : List Bytes → Place → Except AccessError Goal}
    (htail : ∀ here, follow root onLink tail here = .ok (.place here))
    (honLink : ∀ names here, onLink (names ++ tail) here = .ok (.place place) →
      onLink (names ++ more) here = result)
    (hmore : follow root onLink more place = result) {names : List Bytes} {here : Place}
    (h : follow root onLink (names ++ tail) here = .ok (.place place)) :
    follow root onLink (names ++ more) here = result := by
  induction names generalizing here with
  | nil =>
    obtain rfl : here = place := Goal.place.inj (Except.ok.inj ((htail here).symm.trans h))
    exact hmore
  | cons name rest ih =>
    rw [List.cons_append] at h ⊢
    rcases follow_cases root onLink name here with
      ⟨error, herror⟩ | ⟨next, -, hgoesOn⟩ | ⟨contents, hfile⟩ | ⟨target, hlink⟩
    · rw [herror] at h
      cases h
    · rw [hgoesOn] at h ⊢
      exact ih h
    · -- a file is no place
      rw [hfile] at h
      split at h <;> cases h
    · rw [hlink, ← List.append_assoc] at h ⊢
      exact honLink _ _ h

theorem followWithin_append
    (htail : ∀ onLink here, follow root onLink tail here = .ok (.place here))
    (hmore : ∀ onLink, follow root onLink more place = result) (links : Nat) {names : List Bytes}
    {here : Place} (h : followWithin root links (names ++ tail) here = .ok (.place place)) :
    followWithin root links (names ++ more) here = result := by
  induction links generalizing names here with
  | zero => exact follow_append (htail _) (fun _ _ h => by cases h) (hmore _) h
  | succ links ih => exact follow_append (htail _) (fun _ _ h => ih h) (hmore _) h

end
end Lookup

namespace FileSystem
variable {fs : FileSystem} {path : Bytes} {d : Directory}

/-- What a path leads to is found in a place.  The path is one that can be followed. -/
theorem look_eq_directory (h : fs.look path = .ok (.directory d)) :
    0 ∉ path ∧ path ≠ [] ∧ ∃ place,
      Lookup.followWithin fs.root Lookup.linkLimit (Path.names path)
        (Lookup.startOf path fs.current) = .ok (.place place) ∧
      Lookup.directoryAt fs.root place = d := by
  rw [look] at h
  split at h
  · cases h
  next hnul =>
  split at h
  · cases h
  next hempty =>
  split at h
  · cases h
  refine ⟨hnul, fun heq => hempty (List.isEmpty_iff.mpr heq), ?_⟩
  cases hfollow : Lookup.followWithin fs.root Lookup.linkLimit (Path.names path)
      (Lookup.startOf path fs.current) with
  | error error =>
    rw [hfollow] at h
    cases h
  | ok goal =>
    rw [hfollow] at h
    cases goal with
    | file contents => cases h
    | place place =>
      cases h
      exact ⟨place, rfl, rfl⟩

/-- A path leads to well-formed directories in a well-formed file system. -/
theorem look_wellFormed (hfs : fs.WellFormed) (h : fs.look path = .ok (.directory d)) :
    d.entry.WellFormed := by
  obtain ⟨-, -, place, hfollow, rfl⟩ := look_eq_directory h
  exact Lookup.directoryAt_wellFormed hfs.root
    (Lookup.followWithin_wellFormed hfs.root _ (Lookup.startOf_wellFormed hfs.current path) hfollow)

end FileSystem
end LineSearch
