import LineSearch.Proofs.Files.Below
import LineSearch.Proofs.Files.Walk
import LineSearch.Search.Inputs
import Mathlib.Data.List.Basic

/-! # The files that a recursive search collects

`FileSystem.walk_lists_files` is the whole story of a path that leads to a directory: the files
that names lead to from there, each once, in the order of their names, unless a directory on
the walk cannot be read.  It is read by its own path, so what counts is not only whether that
directory is locked, but also what is on the way to it, and the length of the path as it is
written: a path of many slashes that leads to a small directory can have files below it that
no recursive search finds (`FileSystem.walk_misses_file_behind_slashes`).
-/
namespace LineSearch
namespace Entry
variable {entry : Entry}

/-- Whether the entry is a regular file. -/
def isFile : Entry → Bool
  | .file _ => true
  | _ => false

/-- Whether the entry is a directory. -/
def isDirectory : Entry → Bool
  | .directory _ _ => true
  | _ => false

theorem isFile_iff : entry.isFile = true ↔ ∃ contents, entry = .file contents := by
  cases entry <;> simp [isFile]

theorem isDirectory_iff : entry.isDirectory = true ↔ ∃ locks entries,
    entry = .directory locks entries := by
  cases entry <;> simp [isDirectory]

/-- The visits of one kind on a walk.  `pick` tells the entries that are visited so, and `see` finds
these visits among all of them. -/
theorem exists_picked (h : entry.WellFormed) (pick : Entry → Bool) (see : Visit → Option Bytes)
    (hsee : ∀ path inner, (visit? path inner).bind see = if pick inner then some path else none) :
    ∃ picked : List (List Bytes),
      (∀ path, (entry.visits path).filterMap see = picked.map (Path.under path)) ∧
      (∀ names, names ∈ picked ↔ ∃ inner, entry.Leads names inner ∧ pick inner = true) ∧
      picked.Pairwise (· < ·) := by
  obtain ⟨stops, hstops⟩ := exists_stops h
  refine ⟨stops.filterMap fun stop => if pick stop.2 then some stop.1 else none, fun path => ?_,
    fun names => ?_, ?_⟩
  · rw [hstops.shown path, List.filterMap_filterMap, List.map_filterMap]
    refine List.filterMap_congr fun stop hstop => ?_
    -- only names that can stand in a path are joined one by one as they are all at once
    have hnames := ((hstops.complete stop.1 stop.2).mp hstop).named h
    rw [hsee, Path.foldl_join fun name hname => (hnames name hname).isName]
    split <;> rfl
  · simp only [List.mem_filterMap, Option.ite_none_right_eq_some, Option.some.injEq, Prod.exists,
      hstops.complete]
    constructor
    · rintro ⟨_, inner, hleads, hpick, rfl⟩
      exact ⟨inner, hleads, hpick⟩
    · rintro ⟨inner, hleads, hpick⟩
      exact ⟨names, inner, hleads, hpick, rfl⟩
  · refine List.pairwise_filterMap.mpr
      (hstops.ordered.imp fun hlt names hnames others hothers => ?_)
    rw [Option.ite_none_right_eq_some] at hnames hothers
    rwa [Option.some.inj hnames.2, Option.some.inj hothers.2] at hlt

/-- The files on a walk, under the names that lead to them. -/
theorem exists_files (h : entry.WellFormed) : ∃ rels : List (List Bytes),
    (∀ path, entry.files path = rels.map (Path.under path)) ∧
    (∀ names, names ∈ rels ↔ ∃ contents, entry.Leads names (.file contents)) ∧
    rels.Pairwise (· < ·) := by
  obtain ⟨rels, hshown, hrels, hordered⟩ := exists_picked h isFile Visit.file?
    fun path inner => by cases inner <;> rfl
  refine ⟨rels, hshown, fun names => ?_, hordered⟩
  rw [hrels]
  simp only [isFile_iff]
  exact ⟨fun ⟨_, hleads, contents, heq⟩ => ⟨contents, heq ▸ hleads⟩,
    fun ⟨contents, hleads⟩ => ⟨_, hleads, contents, rfl⟩⟩

/-- The directories on a walk, under the names that lead to them. -/
theorem exists_directories (h : entry.WellFormed) : ∃ dirs : List (List Bytes),
    (∀ path, entry.directories path = dirs.map (Path.under path)) ∧
    (∀ names, names ∈ dirs ↔ ∃ locks entries, entry.Leads names (.directory locks entries)) ∧
    dirs.Pairwise (· < ·) := by
  obtain ⟨dirs, hshown, hdirs, hordered⟩ := exists_picked h isDirectory Visit.directory?
    fun path inner => by cases inner <;> rfl
  refine ⟨dirs, hshown, fun names => ?_, hordered⟩
  rw [hdirs]
  simp only [isDirectory_iff]
  exact ⟨fun ⟨_, hleads, locks, entries, heq⟩ => ⟨locks, entries, heq ▸ hleads⟩,
    fun ⟨locks, entries, hleads⟩ => ⟨_, hleads, locks, entries, rfl⟩⟩

/-- Names at a link or behind it lead to no file and to no directory. -/
theorem Leads.not_behind_link {names more : List Bytes} {target : Bytes} {last : Entry}
    (hlink : entry.Leads names (.link target)) (h : entry.WellFormed)
    (hlast : entry.Leads more last) (hne : ∀ target, last ≠ .link target) : ¬ names <+: more := by
  rintro ⟨behind, rfl⟩
  obtain ⟨-, rfl⟩ := (leads_iff_of_leaf fun _ _ h => by cases h).mp ((hlink.append_iff h).mp hlast)
  exact hne target rfl

end Entry

namespace FileSystem
variable {fs : FileSystem} {standardInput : Except AccessError Bytes} {path : Bytes} {d : Directory}

theorem obstacle_of_ok {entries : Listing} (h : fs.list path = .ok entries) :
    (fs.inputs standardInput).obstacle path = none := by
  simp only [Inputs.obstacle, inputs, h, Option.map_none]

theorem obstacle_of_error {cause : AccessError} (h : fs.list path = .error cause) :
    (fs.inputs standardInput).obstacle path = some (.cannotReadDirectory path cause) := by
  simp only [Inputs.obstacle, inputs, h, Option.map_some]

theorem filesNamed_directory (hlook : fs.look path = .ok (.directory d)) :
    (fs.inputs standardInput).filesNamed true path =
      (fs.inputs standardInput).filesInside path d := by
  simp only [Inputs.filesNamed, inputs, hlook, if_pos]

/-- A walk that meets only paths of directories that can be read goes on to its end. -/
theorem filesInside_of_directories
    (hread : ∀ shown ∈ d.entry.directories path, (fs.list shown).isOk = true) :
    (fs.inputs standardInput).filesInside path d = .ok (d.entry.files path) := by
  have hnone : (d.entry.directories path).findSome? (fs.inputs standardInput).obstacle = none := by
    rw [List.findSome?_eq_none_iff]
    intro shown hmem
    cases hlist : fs.list shown with
    | ok entries => exact obstacle_of_ok hlist
    | error cause =>
      have hok := hread shown hmem
      rw [hlist] at hok
      cases hok
  rw [Inputs.filesInside, hnone]

/-- What a recursive search collects, read off the visits of its walk. -/
theorem filesNamed_of_visits (hlook : fs.look path = .ok (.directory d)) {visits : List Visit}
    (hvisits : d.entry.visits path = visits)
    (hread : ∀ shown ∈ visits.filterMap Visit.directory?, (fs.list shown).isOk = true) :
    (fs.inputs standardInput).filesNamed true path = .ok (visits.filterMap Visit.file?) := by
  subst hvisits
  exact (filesNamed_directory hlook).trans (filesInside_of_directories hread)

/-- A directory whose walk meets only directories that can be read. -/
theorem filesInside_of_readable (hd : d.entry.WellFormed)
    (hread : ∀ names locks entries, d.entry.Leads names (.directory locks entries) →
      fs.list (Path.under path names) = .ok entries) :
    (fs.inputs standardInput).filesInside path d = .ok (d.entry.files path) := by
  obtain ⟨dirs, hshown, hdirs, -⟩ := Entry.exists_directories hd
  refine filesInside_of_directories fun shown hmem => ?_
  rw [hshown path] at hmem
  obtain ⟨names, hnames, rfl⟩ := List.mem_map.mp hmem
  obtain ⟨locks, entries, hleads⟩ := (hdirs names).mp hnames
  rw [hread names locks entries hleads]
  rfl

/-- If each path of a directory on a walk can be read, each directory is read by its path. -/
theorem list_under_of_directories (hlook : fs.look path = .ok (.directory d))
    (hd : d.entry.WellFormed) (h : ∀ shown ∈ d.entry.directories path, (fs.list shown).isOk = true)
    (names : List Bytes) (locks : Locks) (entries : Listing)
    (hleads : d.entry.Leads names (.directory locks entries)) :
    fs.list (Path.under path names) = .ok entries := by
  obtain ⟨dirs, hshown, hdirs, -⟩ := Entry.exists_directories hd
  refine list_under_of_isOk hlook hd hleads (h _ ?_)
  rw [hshown path]
  exact List.mem_map_of_mem ((hdirs names).mpr ⟨locks, entries, hleads⟩)

/-- The first directory on a walk that cannot be read, and why it cannot. -/
structure FirstUnreadable (fs : FileSystem) (path : Bytes) (d : Directory) (names : List Bytes)
    (cause : AccessError) : Prop where
  /-- It is a directory. -/
  leads : ∃ locks entries, d.entry.Leads names (.directory locks entries)
  /-- It cannot be read. -/
  unreadable : fs.list (Path.under path names) = .error cause
  /-- All those before it can. -/
  first : ∀ others locks entries, d.entry.Leads others (.directory locks entries) →
    others < names → fs.list (Path.under path others) = .ok entries

/-- The first directory that cannot be read ends the walk. -/
theorem FirstUnreadable.filesInside {names : List Bytes} {cause : AccessError}
    (h : fs.FirstUnreadable path d names cause) (hd : d.entry.WellFormed) :
    (fs.inputs standardInput).filesInside path d =
      .error (.cannotReadDirectory (Path.under path names) cause) := by
  obtain ⟨dirs, hshown, hdirs, hordered⟩ := Entry.exists_directories hd
  obtain ⟨before, after, rfl⟩ := List.append_of_mem ((hdirs names).mpr h.leads)
  have hbefore : (before.map (Path.under path)).findSome? (fs.inputs standardInput).obstacle =
      none := by
    rw [List.findSome?_eq_none_iff]
    intro shown hmem
    obtain ⟨others, hothers, rfl⟩ := List.mem_map.mp hmem
    obtain ⟨locks, entries, hleads⟩ := (hdirs others).mp (List.mem_append_left _ hothers)
    have hlt := (List.pairwise_append.mp hordered).2.2 others hothers names List.mem_cons_self
    exact obstacle_of_ok (h.first others locks entries hleads hlt)
  rw [Inputs.filesInside, hshown path, List.map_append, List.findSome?_append, hbefore,
    List.map_cons, List.findSome?_cons, obstacle_of_error h.unreadable]
  rfl

/-- If not all directories on a walk can be read, there is a first one that cannot. -/
theorem exists_firstUnreadable (hlook : fs.look path = .ok (.directory d)) (hd : d.entry.WellFormed)
    (hunread : ∃ names locks entries, d.entry.Leads names (.directory locks entries) ∧
      fs.list (Path.under path names) ≠ .ok entries) :
    ∃ names cause, fs.FirstUnreadable path d names cause := by
  obtain ⟨dirs, -, hdirs, hordered⟩ := Entry.exists_directories hd
  cases hfind : dirs.find? fun names => !(fs.list (Path.under path names)).isOk with
  | none =>
    obtain ⟨names, locks, entries, hleads, hne⟩ := hunread
    have hok := List.find?_eq_none.mp hfind names ((hdirs names).mpr ⟨locks, entries, hleads⟩)
    exact absurd (list_under_of_isOk hlook hd hleads (by simpa using hok)) hne
  | some names =>
    obtain ⟨hbad, before, after, rfl, hbefore⟩ := List.find?_eq_some_iff_append.mp hfind
    cases hlist : fs.list (Path.under path names) with
    | ok entries =>
      rw [hlist] at hbad
      cases hbad
    | error cause =>
      refine ⟨names, cause, (hdirs names).mp (List.mem_append_right _ List.mem_cons_self), hlist,
        fun others locks entries hleads hlt => ?_⟩
      rcases List.mem_append.mp ((hdirs others).mpr ⟨locks, entries, hleads⟩) with hmem | hmem
      · exact list_under_of_isOk hlook hd hleads (by simpa using hbefore others hmem)
      · -- from the first such directory on the names only increase
        obtain ⟨hafter, -⟩ := List.pairwise_cons.mp (List.pairwise_append.mp hordered).2.1
        rcases List.mem_cons.mp hmem with rfl | hmem
        · exact absurd hlt (List.lt_irrefl _)
        · exact absurd (List.lt_trans hlt (hafter _ hmem)) (List.lt_irrefl _)

/-- **A recursive search collects the files that names lead to, in the order of the names.**  From a
path that leads to a directory of a well-formed file system, whatever order directories list their
entries in, it collects the files reached through real directories, each once and shown as the path
joined with its names, in strictly increasing order of the names' bytes; no link is passed or
collected.  That is, provided that every directory reached so, the first included, can be read by
its own path.  If not, the first of them that cannot be read is told, and why. -/
theorem walk_lists_files (hfs : fs.WellFormed) (standardInput : Except AccessError Bytes)
    (hlook : fs.look path = .ok (.directory d)) :
    let named := (fs.inputs standardInput).filesNamed true path
    ((∀ names locks entries, d.entry.Leads names (.directory locks entries) →
        fs.list (Path.under path names) = .ok entries) →
      ∃ rels : List (List Bytes),
        named = .ok (rels.map fun names => Path.join path ([Path.slash].intercalate names)) ∧
        (∀ names, names ∈ rels ↔ ∃ contents, d.entry.Leads names (.file contents)) ∧
        rels.Pairwise (· < ·) ∧
        ∀ names target, d.entry.Leads names (.link target) → ∀ others ∈ rels, ¬ names <+: others) ∧
    ((∃ names locks entries, d.entry.Leads names (.directory locks entries) ∧
        fs.list (Path.under path names) ≠ .ok entries) →
      ∃ names cause, fs.FirstUnreadable path d names cause ∧
        named = .error (.cannotReadDirectory (Path.under path names) cause)) := by
  intro named
  have hd := look_wellFormed hfs hlook
  have hnamed : named = (fs.inputs standardInput).filesInside path d := filesNamed_directory hlook
  constructor
  · intro hread
    obtain ⟨rels, hshown, hrels, hordered⟩ := Entry.exists_files hd
    refine ⟨rels, ?_, hrels, hordered, ?_⟩
    · rw [hnamed, filesInside_of_readable hd hread, hshown path]
      refine congrArg Except.ok (List.map_congr_left fun names hnames => ?_)
      cases names with
      | nil =>
        -- the directory itself is no file
        obtain ⟨contents, hleads⟩ := (hrels []).mp hnames
        cases Entry.leads_nil_iff.mp hleads
      | cons name rest => rfl
    · intro names target hlink others hothers
      obtain ⟨contents, hleads⟩ := (hrels others).mp hothers
      exact hlink.not_behind_link hd hleads fun _ heq => by cases heq
  · intro hunread
    obtain ⟨names, cause, hfirst⟩ := exists_firstUnreadable hlook hd hunread
    exact ⟨names, cause, hfirst, hnamed.trans (hfirst.filesInside hd)⟩

/-- What is in the directory `a` comes before `a.t`, although the full stop is less than the slash.
The link that leads back to the root is neither followed nor collected.  A locked directory `b` ends
the same walk. -/
theorem walk_lists_files_from_root :
    let listing : Listing := [([0x6C], .link [0x2F]), ([0x61, 0x2E, 0x74], .file (.ok [0x62])),
      ([0x61], .directory {} [([0x78], .file (.ok []))])]
    let locked : Entry := .directory { listing := some .permissionDenied } []
    let fs : FileSystem := ⟨{ entries := listing }, []⟩
    let fs' : FileSystem := ⟨{ entries := ([0x62], locked) :: listing }, []⟩
    let named := (fs.inputs (.ok [])).filesNamed true [0x2F]
    named = .ok [[0x2F, 0x61, 0x2F, 0x78], [0x2F, 0x61, 0x2E, 0x74]] ∧
      (∃ rels : List (List Bytes),
        named = .ok (rels.map fun names => Path.join [0x2F] ([Path.slash].intercalate names)) ∧
        [[0x61], [0x78]] ∈ rels ∧ [[0x61, 0x2E, 0x74]] ∈ rels ∧
        ∀ others ∈ rels, ¬ [[0x6C]] <+: others) ∧
      ∃ names cause, fs'.FirstUnreadable [0x2F] fs'.root names cause ∧
        (fs'.inputs (.ok [])).filesNamed true [0x2F] =
          .error (.cannotReadDirectory (Path.under [0x2F] names) cause) := by
  intro listing locked fs fs' named
  have hinside : ∀ x ∈ listing, x.2.WellFormed := by
    simp only [listing, List.forall_mem_cons]
    refine ⟨.link _, .file _, .directory _ (by decide) (by decide) ?_, nofun⟩
    simp only [List.forall_mem_cons]
    exact ⟨.file _, nofun⟩
  have hroot : fs.root.entry.WellFormed := .directory _ (by decide) (by decide) hinside
  have hroot' : fs'.root.entry.WellFormed := by
    refine .directory _ (by decide) (by decide) (List.forall_mem_cons.mpr ⟨?_, hinside⟩)
    exact .directory _ List.nodup_nil nofun nofun
  have hlook : fs.look [0x2F] = .ok (.directory fs.root) := rfl
  have hlook' : fs'.look [0x2F] = .ok (.directory fs'.root) := rfl
  have hl : ([0x6C], Entry.link [0x2F]) ∈ listing := List.mem_cons_self
  have ht : ([0x61, 0x2E, 0x74], Entry.file (.ok [0x62])) ∈ listing := by simp [listing]
  have ha : ([0x61], Entry.directory {} [([0x78], .file (.ok []))]) ∈ listing := by simp [listing]
  have hordered : Listing.inOrder listing = listing.reverse :=
    Listing.inOrder_eq (List.reverse_perm _) (by decide)
  have hvisits : fs.root.entry.visits [0x2F] = [.directory [0x2F], .directory [0x2F, 0x61],
      .file [0x2F, 0x61, 0x2F, 0x78], .file [0x2F, 0x61, 0x2E, 0x74]] := by
    rw [Directory.entry, Entry.visits_directory, hordered]
    simp [listing, Entry.visits_directory, Listing.inOrder, Path.join, Path.slash]
  have hread := list_under_of_directories hlook hroot (by
    rw [Entry.directories, hvisits]
    decide)
  have hcurrent : ∀ d ∈ ([] : List Directory), d.entry.WellFormed := List.forall_mem_nil _
  obtain ⟨hfiles, -⟩ := walk_lists_files ⟨hroot, hcurrent⟩ (.ok []) hlook
  obtain ⟨-, hfails⟩ := walk_lists_files ⟨hroot', hcurrent⟩ (.ok []) hlook'
  obtain ⟨rels, hrels, hmem, -, hlinks⟩ := hfiles hread
  have hunread : fs'.list (Path.under [0x2F] [[0x62]]) ≠ .ok [] := fun h => by cases h
  have hnamed : named = .ok [[0x2F, 0x61, 0x2F, 0x78], [0x2F, 0x61, 0x2E, 0x74]] :=
    filesNamed_of_visits hlook hvisits (by decide)
  exact ⟨hnamed, ⟨rels, hrels, (hmem _).mpr ⟨_, .inside ha (.inside List.mem_cons_self (.here _))⟩,
    (hmem _).mpr ⟨_, .inside ht (.here _)⟩, hlinks _ _ (.inside hl (.here _))⟩,
    hfails ⟨[[0x62]], _, [], .inside List.mem_cons_self (.here _), hunread⟩⟩

/-! ## Paths of many slashes -/

/-- A path that is too long leads nowhere. -/
theorem look_of_isTooLong (hnul : 0 ∉ path) (hlong : Path.isTooLong path = true) :
    fs.look path = .error .nameTooLong := by
  have hempty : ¬ path.isEmpty = true := by
    rw [List.isEmpty_iff]
    rintro rfl
    cases hlong
  rw [look, if_neg hnul, if_neg hempty, if_pos hlong]

/-- Slashes behind the name of a directory lead there, until they are too many. -/
theorem look_append_slashes {name : Bytes} (hname : Path.IsEntryName name)
    (hpassing : (Lookup.directoryAt fs.root fs.current).locks.passing = none)
    (hlookup : (Lookup.directoryAt fs.root fs.current).entries.lookup name = some d.entry) {n : Nat}
    (hshort : name.length + n ≤ Path.lengthLimit) :
    fs.look (name ++ List.replicate n Path.slash) = .ok (.directory d) := by
  obtain ⟨b, rest, hcons⟩ := List.exists_cons_of_ne_nil hname.isName.1
  have hnul : 0 ∉ name ++ List.replicate n Path.slash := by
    rw [List.mem_append, List.mem_replicate]
    exact fun h => h.elim hname.nul_not_mem fun h => absurd h.2 (by decide)
  have hempty : ¬ (name ++ List.replicate n Path.slash).isEmpty = true := by
    rw [hcons]
    exact Bool.false_ne_true
  have hlength : ¬ Path.isTooLong (name ++ List.replicate n Path.slash) = true := by
    rw [Path.isTooLong, decide_eq_true_iff, List.length_append, List.length_replicate]
    exact Nat.not_lt.mpr hshort
  have hrelative : Path.isAbsolute (name ++ List.replicate n Path.slash) = false := by
    have hb : b ≠ Path.slash := fun h => hname.isName.2 (h ▸ hcons ▸ List.mem_cons_self)
    rw [Path.isAbsolute, hcons]
    simpa using hb
  have hslashes : ∀ (n : Nat) (onLink) (here : Lookup.Place),
      Lookup.follow fs.root onLink (List.replicate n []) here = .ok (.place here) := by
    intro n onLink here
    induction n with
    | zero => rfl
    | succ n ih => rw [List.replicate_succ, Lookup.follow, if_pos rfl, ih]
  have hfollow : Lookup.followWithin fs.root Lookup.linkLimit (name :: List.replicate n [])
      fs.current = .ok (.place (d :: fs.current)) := by
    obtain ⟨-, hdirectory⟩ := Lookup.follow_entry hname hpassing hlookup _
    exact (hdirectory d.locks d.entries rfl _).trans (hslashes n _ _)
  rw [look, if_neg hnul, if_neg hempty, if_neg hlength, Path.names_append_slashes hname.isName,
    Lookup.startOf, hrelative, if_neg Bool.false_ne_true, hfollow]
  rfl

/-- A directory whose path just can be read has no directory that can be. -/
theorem filesInside_of_full (hlook : fs.look path = .ok (.directory d))
    (hlisting : d.locks.listing = none) {name : Bytes} {locks : Locks} {entries : Listing}
    (hentries : d.entries = [(name, .directory locks entries)]) (hname : Path.IsEntryName name)
    (hfull : path.length = Path.lengthLimit) :
    (fs.inputs standardInput).filesInside path d =
      .error (.cannotReadDirectory (Path.join path name) .nameTooLong) := by
  obtain ⟨hnul, -⟩ := look_eq_directory hlook
  have hlist : fs.list path = .ok d.entries := by
    rw [list, hlook]
    simp only [hlisting]
  have hlong : fs.list (Path.join path name) = .error .nameTooLong := by
    have hnul' : 0 ∉ Path.join path name := fun hmem =>
      (Path.mem_join hmem).elim hnul fun hmem => hmem.elim (by decide) hname.nul_not_mem
    have htooLong : Path.isTooLong (Path.join path name) = true :=
      decide_eq_true (hfull ▸ Path.length_lt_join hname.isName.1 path)
    rw [list, look_of_isTooLong hnul' htooLong]
  obtain ⟨more, hdirectories⟩ : ∃ more,
      d.entry.directories path = path :: Path.join path name :: more := by
    simp [Entry.directories, Directory.entry, hentries, Entry.visits_directory, Listing.inOrder,
      Visit.directory?]
  rw [Inputs.filesInside, hdirectories, List.findSome?_cons, obstacle_of_ok hlist,
    List.findSome?_cons, obstacle_of_error hlong]

/-- The directory `d` is read by a path of 4095 bytes, slashes for the most part, so the path of the
directory `e` in it is too long, and the file `h` in there is not collected. -/
theorem walk_misses_file_behind_slashes :
    let inner : Directory := { entries := [([0x65], .directory {} [([0x68], .file (.ok []))])] }
    let fs : FileSystem := ⟨{ entries := [([0x64], inner.entry)] }, []⟩
    let path := [0x64] ++ List.replicate 4094 Path.slash
    let named := (fs.inputs (.ok [])).filesNamed true path
    fs.WellFormed ∧ fs.look path = .ok (.directory inner) ∧
      inner.entry.Leads [[0x65], [0x68]] (.file (.ok [])) ∧
      named = .error (.cannotReadDirectory (Path.join path [0x65]) .nameTooLong) ∧
      ∀ files, named ≠ .ok files := by
  intro inner fs path named
  have hlook : fs.look path = .ok (.directory inner) :=
    look_append_slashes (by decide) rfl rfl (by decide)
  have hlength : path.length = 4095 := by
    rw [List.length_append, List.length_replicate]
    rfl
  have hinner : inner.entry.WellFormed := by
    refine .directory _ (by decide) (by decide) (List.forall_mem_cons.mpr ⟨?_, nofun⟩)
    exact .directory _ (by decide) (by decide) (List.forall_mem_cons.mpr ⟨.file _, nofun⟩)
  have herror : named = .error (.cannotReadDirectory (Path.join path [0x65]) .nameTooLong) :=
    (filesNamed_directory hlook).trans (filesInside_of_full hlook rfl rfl (by decide) hlength)
  refine ⟨⟨.directory _ (by decide) (by decide) (List.forall_mem_cons.mpr ⟨hinner, nofun⟩), nofun⟩,
    hlook, .inside List.mem_cons_self (.inside List.mem_cons_self (.here _)), herror,
    fun files hfiles => ?_⟩
  rw [herror] at hfiles
  cases hfiles

end FileSystem
end LineSearch
