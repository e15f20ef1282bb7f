import LineSearch.Proofs.Files.Collected
import Mathlib.Data.List.Sort

/-! # What a path names

`FileSystem.Names` and `FileSystem.Refuses` say in terms of the trees in a file system which
files a path names, or why it names none.  Nothing is said there of a walk: the files below a
directory are those that names lead to, and their order is that of the names, which leaves one
list only.  The search comes to just these files, and breaks off for just these reasons
(`FileSystem.filesNamed_eq_ok_iff`, `FileSystem.filesNamed_eq_error_iff`).
-/
namespace LineSearch.FileSystem

/-- A path names these files. -/
inductive Names (fs : FileSystem) (recursive : Bool) (path : Bytes) : List Bytes → Prop
  /-- A path that leads to a file names it. -/
  | file {contents : Except AccessError Bytes} (found : fs.look path = .ok (.file contents)) :
      Names fs recursive path [path]
  /-- A path that leads to a directory names, if it is asked for, the regular files that names lead
  to from there, if all directories that they lead to can be read. -/
  | inside {d : Directory} {rels : List (List Bytes)} (asked : recursive = true)
      (found : fs.look path = .ok (.directory d))
      (readable : ∀ names locks entries, d.entry.Leads names (.directory locks entries) →
        fs.list (Path.under path names) = .ok entries)
      (complete : ∀ names, names ∈ rels ↔ ∃ contents, d.entry.Leads names (.file contents))
      (ordered : rels.Pairwise (· < ·)) :
      Names fs recursive path (rels.map (Path.under path))

/-- A path names no files, for this reason. -/
inductive Refuses (fs : FileSystem) (recursive : Bool) (path : Bytes) : SearchError → Prop
  /-- It leads nowhere. -/
  | astray {cause : AccessError} (found : fs.look path = .error cause) :
      Refuses fs recursive path (.cannotAccess path cause)
  /-- It leads to a directory that is not asked for. -/
  | directory {d : Directory} (unasked : recursive = false)
      (found : fs.look path = .ok (.directory d)) :
      Refuses fs recursive path (.isADirectory path)
  /-- It leads to a directory that is asked for, and one that names lead to from there cannot be
  read. -/
  | inside {d : Directory} {names : List Bytes} {cause : AccessError} (asked : recursive = true)
      (found : fs.look path = .ok (.directory d))
      (first : fs.FirstUnreadable path d names cause) :
      Refuses fs recursive path (.cannotReadDirectory (Path.under path names) cause)

variable {fs : FileSystem} {standardInput : Except AccessError Bytes} {recursive : Bool}
variable {path : Bytes} {files : List Bytes} {error : SearchError}

/-- The files named are found. -/
theorem Names.filesNamed (h : fs.Names recursive path files) (hfs : fs.WellFormed) :
    (fs.inputs standardInput).filesNamed recursive path = .ok files := by
  cases h with
  | file found => simp only [Inputs.filesNamed, inputs, found]
  | @inside d rels asked found readable complete ordered =>
    subst asked
    have hd := look_wellFormed hfs found
    obtain ⟨rels', hshown, hrels', hordered'⟩ := Entry.exists_files hd
    -- the order leaves one list of the names only
    obtain rfl : rels' = rels :=
      hordered'.eq_of_mem_iff ordered fun names => (hrels' names).trans (complete names).symm
    rw [filesNamed_directory found, filesInside_of_readable hd readable, hshown path]

/-- The reason why no files are named is found. -/
theorem Refuses.filesNamed (h : fs.Refuses recursive path error) (hfs : fs.WellFormed) :
    (fs.inputs standardInput).filesNamed recursive path = .error error := by
  cases h with
  | astray found => simp only [Inputs.filesNamed, inputs, found]
  | directory unasked found => simp [Inputs.filesNamed, inputs, found, unasked]
  | inside asked found first =>
    subst asked
    rw [filesNamed_directory found, first.filesInside (look_wellFormed hfs found)]

/-- A path names files, or there is a reason why it does not. -/
theorem names_or_refuses (hfs : fs.WellFormed) (recursive : Bool) (path : Bytes) :
    (∃ files, fs.Names recursive path files) ∨ ∃ error, fs.Refuses recursive path error := by
  cases hlook : fs.look path with
  | error cause => exact .inr ⟨_, .astray hlook⟩
  | ok found =>
    cases found with
    | file contents => exact .inl ⟨_, .file hlook⟩
    | directory d =>
      cases recursive with
      | false => exact .inr ⟨_, .directory rfl hlook⟩
      | true =>
        have hd := look_wellFormed hfs hlook
        by_cases hread : ∀ names locks entries, d.entry.Leads names (.directory locks entries) →
            fs.list (Path.under path names) = .ok entries
        · obtain ⟨rels, -, hrels, hordered⟩ := Entry.exists_files hd
          exact .inl ⟨_, .inside rfl hlook hread hrels hordered⟩
        · push Not at hread
          obtain ⟨names, cause, hfirst⟩ := exists_firstUnreadable hlook hd hread
          exact .inr ⟨_, .inside rfl hlook hfirst⟩

/-- **A search comes to the files that a path names.** -/
theorem filesNamed_eq_ok_iff (hfs : fs.WellFormed) :
    (fs.inputs standardInput).filesNamed recursive path = .ok files ↔
      fs.Names recursive path files := by
  refine ⟨fun h => ?_, fun h => h.filesNamed hfs⟩
  rcases names_or_refuses hfs recursive path with ⟨files', hnames⟩ | ⟨error, hrefuses⟩
  · rw [hnames.filesNamed hfs] at h
    exact Except.ok.inj h ▸ hnames
  · rw [hrefuses.filesNamed hfs] at h
    cases h

/-- **A search breaks off for the reason why a path names no files.** -/
theorem filesNamed_eq_error_iff (hfs : fs.WellFormed) :
    (fs.inputs standardInput).filesNamed recursive path = .error error ↔
      fs.Refuses recursive path error := by
  refine ⟨fun h => ?_, fun h => h.filesNamed hfs⟩
  rcases names_or_refuses hfs recursive path with ⟨files, hnames⟩ | ⟨error', hrefuses⟩
  · rw [hnames.filesNamed hfs] at h
    cases h
  · rw [hrefuses.filesNamed hfs] at h
    exact Except.error.inj h ▸ hrefuses

/-- The path of a file that is named leads to a file, or nowhere. -/
theorem Names.look_of_mem (h : fs.Names recursive path files) (hfs : fs.WellFormed) {file : Bytes}
    (hfile : file ∈ files) :
    (∃ contents, fs.look file = .ok (.file contents)) ∨ ∃ cause, fs.look file = .error cause := by
  cases h with
  | file found =>
    obtain rfl := List.mem_singleton.mp hfile
    exact .inl ⟨_, found⟩
  | inside asked found readable complete ordered =>
    obtain ⟨names, hnames, rfl⟩ := List.mem_map.mp hfile
    obtain ⟨contents, hleads⟩ := (complete names).mp hnames
    exact (look_under found (look_wellFormed hfs found) hleads rfl).imp_left fun h => ⟨contents, h⟩

end LineSearch.FileSystem
