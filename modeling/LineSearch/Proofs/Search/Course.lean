import LineSearch.Proofs.Files.Named
import LineSearch.Proofs.Search.InOrder

/-! # The course of a search

`FileSystem.Course` says, of the files that paths name and of what they hold, what a search reads
before it ends and why it breaks off, if it does.  It is a rule book: the search itself is not
mentioned.  The rules fix one course for every configuration, and it is what comes of the attempts
to read all that is named, up to the first that fails (`FileSystem.course_iff`).
-/
namespace LineSearch
namespace FileSystem

/-- Files are read one after the other, these buffers before the first that cannot be read. -/
inductive Reads (fs : FileSystem) (labelled : Bool) :
    List Bytes → List Source → Option SearchError → Prop
  /-- No file is left. -/
  | nil : Reads fs labelled [] [] none
  /-- A file cannot be read. -/
  | fails {file : Bytes} {rest : List Bytes} {cause : AccessError}
      (read : fs.read file = .error cause) :
      Reads fs labelled (file :: rest) [] (some (.cannotReadFile file cause))
  /-- A file is read. -/
  | next {file contents : Bytes} {rest : List Bytes} {later : List Source}
      {failure : Option SearchError} (read : fs.read file = .ok contents)
      (more : Reads fs labelled rest later failure) :
      Reads fs labelled (file :: rest) (⟨labelOf labelled file, contents⟩ :: later) failure

/-- The files that paths name are read, one path after the other. -/
inductive ReadsPaths (fs : FileSystem) (recursive labelled : Bool) :
    List Bytes → List Source → Option SearchError → Prop
  /-- No path is left. -/
  | nil : ReadsPaths fs recursive labelled [] [] none
  /-- A path names no files. -/
  | refused {path : Bytes} {rest : List Bytes} {error : SearchError}
      (refuses : fs.Refuses recursive path error) :
      ReadsPaths fs recursive labelled (path :: rest) [] (some error)
  /-- A file that a path names cannot be read. -/
  | fails {path : Bytes} {rest files : List Bytes} {sources : List Source} {error : SearchError}
      (names : fs.Names recursive path files)
      (reads : fs.Reads labelled files sources (some error)) :
      ReadsPaths fs recursive labelled (path :: rest) sources (some error)
  /-- The files that a path names are read. -/
  | next {path : Bytes} {rest files : List Bytes} {sources later : List Source}
      {failure : Option SearchError} (names : fs.Names recursive path files)
      (reads : fs.Reads labelled files sources none)
      (more : ReadsPaths fs recursive labelled rest later failure) :
      ReadsPaths fs recursive labelled (path :: rest) (sources ++ later) failure

/-- What a search reads, and why it breaks off. -/
inductive Course (fs : FileSystem) (standardInput : Except AccessError Bytes) (c : Configuration) :
    List Source → Option SearchError → Prop
  /-- Without paths standard input is read. -/
  | input {contents : Bytes} (paths : c.paths = []) (read : standardInput = .ok contents) :
      Course fs standardInput c [⟨none, contents⟩] none
  /-- Standard input cannot be read. -/
  | noInput {cause : AccessError} (paths : c.paths = []) (read : standardInput = .error cause) :
      Course fs standardInput c [] (some (.standardInput cause))
  /-- The files that the paths name are read. -/
  | files {sources : List Source} {failure : Option SearchError} (paths : c.paths ≠ [])
      (reads : fs.ReadsPaths c.recursive c.labelled c.paths sources failure) :
      Course fs standardInput c sources failure

end FileSystem

/-! ## The attempts up to the first failure -/

namespace Inputs

/-- What attempts to read come to before the first that fails, and that failure. -/
def upToFailure : List (Except SearchError Source) → List Source × Option SearchError
  | [] => ([], none)
  | .error error :: _ => ([], some error)
  | .ok source :: more => (source :: (upToFailure more).1, (upToFailure more).2)

variable {first second : List (Except SearchError Source)} {sources : List Source}

theorem upToFailure_append_of_some {error : SearchError}
    (h : upToFailure first = (sources, some error)) :
    upToFailure (first ++ second) = (sources, some error) := by
  induction first generalizing sources with
  | nil => cases h
  | cons attempt more ih =>
    cases attempt with
    | error error' => exact h
    | ok source =>
      obtain ⟨rfl, hfailure⟩ := Prod.mk.inj h
      rw [List.cons_append, upToFailure, ih (Prod.ext rfl hfailure)]

theorem upToFailure_append_of_none (h : upToFailure first = (sources, none)) :
    upToFailure (first ++ second) =
      (sources ++ (upToFailure second).1, (upToFailure second).2) := by
  induction first generalizing sources with
  | nil =>
    obtain ⟨rfl, -⟩ := Prod.mk.inj h
    rfl
  | cons attempt more ih =>
    cases attempt with
    | error error => cases h
    | ok source =>
      obtain ⟨rfl, hfailure⟩ := Prod.mk.inj h
      rw [List.cons_append, upToFailure, ih (Prod.ext rfl hfailure)]
      rfl

end Inputs

/-- A search goes through the attempts up to the first that fails. -/
theorem Pattern.searchAttempts_of_upToFailure (p : Pattern)
    {attempts : List (Except SearchError Source)} {sources : List Source}
    {failure : Option SearchError} (h : Inputs.upToFailure attempts = (sources, failure)) :
    p.searchAttempts attempts =
      ⟨(p.searchSources sources).output,
        match failure with
        | none => .ok (p.searchSources sources).matched
        | some error => .error error⟩ := by
  induction attempts generalizing sources with
  | nil =>
    obtain ⟨rfl, rfl⟩ := Prod.mk.inj h
    rfl
  | cons attempt more ih =>
    cases attempt with
    | error error =>
      obtain ⟨rfl, rfl⟩ := Prod.mk.inj h
      rfl
    | ok source =>
      obtain ⟨rfl, hfailure⟩ := Prod.mk.inj h
      show (p.searchAttempt (.ok source)).andThen (p.searchAttempts more) = _
      rw [ih (Prod.ext rfl hfailure)]
      cases failure <;> rfl

namespace FileSystem
variable {fs : FileSystem} {standardInput : Except AccessError Bytes} {recursive labelled : Bool}
variable {sources : List Source} {failure : Option SearchError}

theorem Reads.upToFailure {files : List Bytes} (h : fs.Reads labelled files sources failure) :
    Inputs.upToFailure (files.map ((fs.inputs standardInput).attempt labelled)) =
      (sources, failure) := by
  induction h with
  | nil => rfl
  | fails read => rw [List.map_cons, Inputs.attempt_of_error read, Inputs.upToFailure]
  | next read _ ih => rw [List.map_cons, Inputs.attempt_of_read read, Inputs.upToFailure, ih]

theorem exists_reads (fs : FileSystem) (labelled : Bool) (files : List Bytes) :
    ∃ sources failure, fs.Reads labelled files sources failure := by
  induction files with
  | nil => exact ⟨[], none, .nil⟩
  | cons file rest ih =>
    cases hread : fs.read file with
    | error cause => exact ⟨_, _, .fails hread⟩
    | ok contents =>
      obtain ⟨sources, failure, hreads⟩ := ih
      exact ⟨_, failure, .next hread hreads⟩

theorem ReadsPaths.upToFailure (hfs : fs.WellFormed) {paths : List Bytes}
    (h : fs.ReadsPaths recursive labelled paths sources failure) :
    let inputs := fs.inputs standardInput
    Inputs.upToFailure ((paths.map (inputs.filesNamed recursive)).flatMap
      (inputs.attemptsAmong labelled)) = (sources, failure) := by
  intro inputs
  induction h with
  | nil => rfl
  | refused refuses =>
    rw [List.map_cons, List.flatMap_cons, refuses.filesNamed hfs]
    rfl
  | fails names reads =>
    rw [List.map_cons, List.flatMap_cons, names.filesNamed hfs]
    exact Inputs.upToFailure_append_of_some reads.upToFailure
  | next names reads _ ih =>
    rw [List.map_cons, List.flatMap_cons, names.filesNamed hfs]
    exact (Inputs.upToFailure_append_of_none reads.upToFailure).trans (by rw [ih])

theorem exists_readsPaths (hfs : fs.WellFormed) (recursive labelled : Bool) (paths : List Bytes) :
    ∃ sources failure, fs.ReadsPaths recursive labelled paths sources failure := by
  induction paths with
  | nil => exact ⟨[], none, .nil⟩
  | cons path rest ih =>
    rcases names_or_refuses hfs recursive path with ⟨files, hnames⟩ | ⟨error, hrefuses⟩
    · obtain ⟨sources, failure, hreads⟩ := fs.exists_reads labelled files
      cases failure with
      | some error => exact ⟨_, _, .fails hnames hreads⟩
      | none =>
        obtain ⟨later, failure, hmore⟩ := ih
        exact ⟨_, failure, .next hnames hreads hmore⟩
    · exact ⟨_, _, .refused hrefuses⟩

theorem Course.upToFailure (hfs : fs.WellFormed) {c : Configuration}
    (h : fs.Course standardInput c sources failure) :
    Inputs.upToFailure ((fs.inputs standardInput).attempts c) = (sources, failure) := by
  cases h with
  | input paths read =>
    subst read
    rw [Inputs.attempts, paths]
    rfl
  | noInput paths read =>
    subst read
    rw [Inputs.attempts, paths]
    rfl
  | files paths reads =>
    rw [Inputs.attempts_of_paths paths]
    exact reads.upToFailure hfs

/-- Every search has a course. -/
theorem exists_course (hfs : fs.WellFormed) (standardInput : Except AccessError Bytes)
    (c : Configuration) : ∃ sources failure, fs.Course standardInput c sources failure := by
  by_cases hpaths : c.paths = []
  · cases standardInput with
    | error cause => exact ⟨_, _, .noInput hpaths rfl⟩
    | ok contents => exact ⟨_, _, .input hpaths rfl⟩
  · obtain ⟨sources, failure, hreads⟩ := exists_readsPaths hfs c.recursive c.labelled c.paths
    exact ⟨sources, failure, .files hpaths hreads⟩

/-- **The attempts to read what is named take the course that the rules fix.** -/
theorem course_iff (hfs : fs.WellFormed) {c : Configuration} :
    fs.Course standardInput c sources failure ↔
      Inputs.upToFailure ((fs.inputs standardInput).attempts c) = (sources, failure) := by
  refine ⟨fun h => h.upToFailure hfs, fun h => ?_⟩
  obtain ⟨sources', failure', hcourse⟩ := exists_course hfs standardInput c
  obtain ⟨rfl, rfl⟩ := Prod.mk.inj (h.symm.trans (hcourse.upToFailure hfs))
  exact hcourse

end FileSystem
end LineSearch
