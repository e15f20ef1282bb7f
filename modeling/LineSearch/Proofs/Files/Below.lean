import LineSearch.Proofs.Files.Following

/-! # Following the paths that a walk writes

A walk shows what it comes to under the path with which it began, joined with names
(`Path.join`).  Such a path can itself be followed, and it leads to what was shown or nowhere
(`FileSystem.look_under`): whatever links and dots are on the way to the directory where the
walk began, the joined path goes the same way, and from there on it meets real directories
only, under names that stand for nothing else than an entry (`Path.IsEntryName`).  An empty
name behind a slash at the end of the first path is left out.  The joined path leads nowhere if
it is too long, or if a directory behind the first is locked.
-/
namespace LineSearch

/-- What a path to the entry leads to; a link leads to what it stands for. -/
def Entry.found? : Entry → Option Found
  | .file contents => some (.file contents)
  | .special contents => some (.file contents)
  | .link _ => none
  | .directory locks entries => some (.directory ⟨locks, entries⟩)

/-- Names that lead from a directory to an entry are followed there from a place of that directory,
unless a directory on the way is locked. -/
theorem Lookup.follow_leads {root : Directory} {entry last : Entry} {names : List Bytes}
    (hleads : entry.Leads names last) (hentry : entry.WellFormed) {place : Place}
    (hplace : (directoryAt root place).entry = entry) {found : Found}
    (hfound : last.found? = some found) :
    (∃ cause, ∀ onLink, follow root onLink names place = .error cause) ∨
      ∃ goal : Goal, (∀ onLink, follow root onLink names place = .ok goal) ∧
        goal.found root = found := by
  induction hleads generalizing place with
  | here =>
    subst hplace
    exact .inr ⟨.place place, fun _ => rfl, Option.some.inj hfound⟩
  | @inside locks entries name inner last rest hmem hleads ih =>
    cases hentry with
    | directory _ hdistinct hnamed hinside =>
      have hname := hnamed _ hmem
      obtain ⟨hlocks, hentries⟩ := Entry.directory.inj hplace
      cases hpassing : locks.passing with
      | some cause =>
        exact .inl ⟨cause, fun onLink => follow_locked hname.isName.1 (hlocks ▸ hpassing) onLink _⟩
      | none =>
        have hlookup : (directoryAt root place).entries.lookup name = some inner :=
          hentries ▸ Entry.lookup_eq_some hdistinct hmem
        have hstep := follow_entry hname (hlocks ▸ hpassing) hlookup
        cases inner with
        | directory locks' entries' =>
          have hon := fun onLink => (hstep onLink).2 locks' entries' rfl rest
          have hinner : (directoryAt root (⟨locks', entries'⟩ :: place)).entry =
              .directory locks' entries' := rfl
          rcases ih (hinside _ hmem) hinner hfound with
            ⟨cause, hcause⟩ | ⟨goal, hgoal, hgoalFound⟩
          · exact .inl ⟨cause, fun onLink => (hon onLink).trans (hcause onLink)⟩
          · exact .inr ⟨goal, fun onLink => (hon onLink).trans (hgoal onLink), hgoalFound⟩
        -- nothing is behind what is no directory
        | file contents =>
          obtain ⟨rfl, rfl⟩ := (Entry.leads_iff_of_leaf fun _ _ h => by cases h).mp hleads
          exact .inr ⟨.file contents, fun onLink => (hstep onLink).1 contents (.inl rfl),
            Option.some.inj hfound⟩
        | special contents =>
          obtain ⟨rfl, rfl⟩ := (Entry.leads_iff_of_leaf fun _ _ h => by cases h).mp hleads
          exact .inr ⟨.file contents, fun onLink => (hstep onLink).1 contents (.inr rfl),
            Option.some.inj hfound⟩
        | link target =>
          obtain ⟨rfl, rfl⟩ := (Entry.leads_iff_of_leaf fun _ _ h => by cases h).mp hleads
          cases hfound

namespace FileSystem
variable {fs : FileSystem} {path : Bytes} {d : Directory} {names : List Bytes} {last : Entry}

/-- **A path joined with names leads where the names lead**, or nowhere. -/
theorem look_under (hlook : fs.look path = .ok (.directory d)) (hd : d.entry.WellFormed)
    (hleads : d.entry.Leads names last) {found : Found} (hfound : last.found? = some found) :
    fs.look (Path.under path names) = .ok found ∨
      ∃ cause, fs.look (Path.under path names) = .error cause := by
  cases names with
  | nil =>
    obtain rfl := Entry.leads_nil_iff.mp hleads
    exact .inl (hlook.trans (congrArg Except.ok (Option.some.inj hfound)))
  | cons name rest =>
    obtain ⟨hnul, hempty, place, hfollow, hplace⟩ := look_eq_directory hlook
    have hnamed := hleads.named hd
    have hnames := fun name hname => (hnamed name hname).isName
    have hunder : Path.under path (name :: rest) =
        Path.join path ([Path.slash].intercalate (name :: rest)) := rfl
    have hjoinNul : 0 ∉ Path.under path (name :: rest) := by
      rw [← Path.foldl_join hnames]
      exact Path.not_mem_foldl_join (by decide) (fun name hname => (hnamed name hname).nul_not_mem)
        hnul
    have hjoinEmpty : ¬ (Path.under path (name :: rest)).isEmpty = true := by
      obtain ⟨more, hmore⟩ := Path.exists_join_eq path ([Path.slash].intercalate (name :: rest))
      rw [hunder, hmore, List.isEmpty_iff, List.append_eq_nil_iff]
      exact fun h => hempty h.1
    rw [look, if_neg hjoinNul, if_neg hjoinEmpty]
    split
    · exact .inr ⟨_, rfl⟩
    obtain ⟨front, tail, htail, hfront, hjoined⟩ :=
      Path.exists_names_join path ([Path.slash].intercalate (name :: rest))
    have hgoesOn : ∀ result,
        (∀ onLink, Lookup.follow fs.root onLink (name :: rest) place = result) →
        Lookup.followWithin fs.root Lookup.linkLimit (Path.names (Path.under path (name :: rest)))
          (Lookup.startOf (Path.under path (name :: rest)) fs.current) = result := by
      intro result hmore
      rw [hunder, hjoined, Path.names_intercalate hnames, Lookup.startOf,
        Path.isAbsolute_join hempty]
      rw [hfront] at hfollow
      refine Lookup.followWithin_append (fun onLink here => ?_) hmore _ hfollow
      rcases htail with rfl | rfl <;> rfl
    rcases Lookup.follow_leads hleads hd (congrArg Directory.entry hplace) hfound with
      ⟨cause, hcause⟩ | ⟨goal, hgoal, rfl⟩
    · exact .inr ⟨cause, by rw [hgoesOn _ hcause]; rfl⟩
    · exact .inl (by rw [hgoesOn _ hgoal]; rfl)

/-- A directory on a walk is read by its path, or it cannot be. -/
theorem list_under (hlook : fs.look path = .ok (.directory d)) (hd : d.entry.WellFormed)
    {locks : Locks} {entries : Listing} (hleads : d.entry.Leads names (.directory locks entries)) :
    fs.list (Path.under path names) = .ok entries ∨
      ∃ cause, fs.list (Path.under path names) = .error cause := by
  rw [list]
  rcases look_under hlook hd hleads rfl with hfound | ⟨cause, hcause⟩
  · rw [hfound]
    cases hlisting : locks.listing with
    | none => exact .inl (by simp only [hlisting])
    | some cause => exact .inr ⟨cause, by simp only [hlisting]⟩
  · rw [hcause]
    exact .inr ⟨cause, rfl⟩

/-- What is read of a directory on a walk is what it holds, so all depends on whether it can be
read. -/
theorem list_under_of_isOk (hlook : fs.look path = .ok (.directory d)) (hd : d.entry.WellFormed)
    {locks : Locks} {entries : Listing} (hleads : d.entry.Leads names (.directory locks entries))
    (h : (fs.list (Path.under path names)).isOk = true) :
    fs.list (Path.under path names) = .ok entries := by
  rcases list_under hlook hd hleads with hlist | ⟨cause, hcause⟩
  · exact hlist
  · rw [hcause] at h
    cases h

end FileSystem
end LineSearch
