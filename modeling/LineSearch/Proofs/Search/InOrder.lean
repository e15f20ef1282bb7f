import LineSearch.Proofs.Files.Collected
import LineSearch.Proofs.Search.Matches
import LineSearch.Search.Run

/-! # A search takes its inputs in order

`Inputs.attempts` says what comes of trying to read everything that a configuration
names, as if no failure ended the search: for standard input and for every file a
buffer with the label of its lines, or the reason why it cannot be read, and a single
reason for a path whose files cannot be named.  A search goes through these attempts up
to the first failure (`Pattern.search_eq`).  Its output is what is printed from the
buffers in front of it, whether or not a line has matched, and the failure is its result
(`Pattern.searchAttempts_breaks_off`).

`Pattern.search_in_order` spells this out in the paths and the files that they name.
-/
namespace LineSearch

/-- A buffer that is searched, and the label of its lines. -/
structure Source where
  /-- The label, if there is one. -/
  label : Option String
  /-- The buffer. -/
  contents : Bytes

/-- Files that hold these contents, as they are searched. -/
def sourcesOf (labelled : Bool) (contents : Bytes → Bytes) (files : List Bytes) : List Source :=
  files.map fun file => ⟨labelOf labelled file, contents file⟩

namespace Inputs
variable (inputs : Inputs)

/-- What comes of reading the file with this path. -/
def attempt (labelled : Bool) (file : Bytes) : Except SearchError Source :=
  (inputs.readFile file).map fun contents => ⟨labelOf labelled file, contents⟩

theorem attempt_of_read {inputs : Inputs} {labelled : Bool} {file contents : Bytes}
    (h : inputs.read file = .ok contents) :
    inputs.attempt labelled file = .ok ⟨labelOf labelled file, contents⟩ := by
  rw [attempt, readFile, h]
  rfl

theorem attempt_of_error {inputs : Inputs} {labelled : Bool} {file : Bytes} {cause : AccessError}
    (h : inputs.read file = .error cause) :
    inputs.attempt labelled file = .error (.cannotReadFile file cause) := by
  rw [attempt, readFile, h]
  rfl

/-- What comes of reading the files that a path names, if they can be named. -/
def attemptsAmong (labelled : Bool) :
    Except SearchError (List Bytes) → List (Except SearchError Source)
  | .error error => [.error error]
  | .ok files => files.map (inputs.attempt labelled)

/-- What comes of reading standard input. -/
def standardAttempt : Except SearchError Source :=
  match inputs.standardInput with
  | .error cause => .error (.standardInput cause)
  | .ok contents => .ok ⟨none, contents⟩

/-- What comes of naming the files of each path. -/
def namings (c : Configuration) : List (Except SearchError (List Bytes)) :=
  c.paths.map (inputs.filesNamed c.recursive)

/-- What comes of reading all that is named, one after the other. -/
def attempts (c : Configuration) : List (Except SearchError Source) :=
  if c.paths.isEmpty then [inputs.standardAttempt]
  else (inputs.namings c).flatMap (inputs.attemptsAmong c.labelled)

theorem attempts_of_paths {inputs : Inputs} {c : Configuration} (hpaths : c.paths ≠ []) :
    inputs.attempts c = (inputs.namings c).flatMap (inputs.attemptsAmong c.labelled) :=
  if_neg fun hempty => hpaths (List.isEmpty_iff.mp hempty)

/-- All the files named are tried in order. -/
theorem flatMap_attemptsAmong_ok (labelled : Bool) (named : List (List Bytes)) :
    (named.map .ok).flatMap (inputs.attemptsAmong labelled) =
      named.flatten.map (inputs.attempt labelled) := by
  rw [List.flatMap_map, List.map_flatten, List.flatMap_def]
  rfl

/-- If all the files named can be read, they are read in order. -/
theorem flatMap_attemptsAmong {inputs : Inputs} {labelled : Bool} {contents : Bytes → Bytes}
    {named : List (List Bytes)}
    (hread : ∀ files ∈ named, ∀ file ∈ files, inputs.read file = .ok (contents file)) :
    (named.map .ok).flatMap (inputs.attemptsAmong labelled) =
      (sourcesOf labelled contents named.flatten).map .ok := by
  rw [flatMap_attemptsAmong_ok, sourcesOf, List.map_map]
  refine List.map_congr_left fun file hfile => ?_
  obtain ⟨files, hfiles, hmem⟩ := List.mem_flatten.mp hfile
  exact attempt_of_read (hread files hfiles file hmem)

end Inputs

namespace SearchResult

theorem andThen_assoc (first second third : SearchResult) :
    (first.andThen second).andThen third = first.andThen (second.andThen third) := by
  obtain ⟨output, result⟩ := first
  obtain ⟨output', result'⟩ := second
  cases result with
  | error error => rfl
  | ok matched =>
    cases result' with
    | error error => rfl
    | ok matched' =>
      obtain ⟨output'', result''⟩ := third
      cases result'' with
      | error error => simp only [andThen, Except.map, List.append_assoc]
      | ok matched'' => simp only [andThen, Except.map, List.append_assoc, Bool.or_assoc]

theorem empty_andThen (search : SearchResult) :
    (ofPrinted .empty).andThen search = search := by
  obtain ⟨output, result⟩ := search
  cases result <;> rfl

theorem andThen_empty (search : SearchResult) :
    search.andThen (ofPrinted .empty) = search := by
  obtain ⟨output, result⟩ := search
  cases result with
  | error error => rfl
  | ok matched => simp only [andThen, ofPrinted, Printed.empty, Except.map, List.append_nil,
      Bool.or_false]

end SearchResult

namespace Pattern
variable (p : Pattern)

/-! ## Searching up to the first failure -/

/-- Search what an attempt to read has come to. -/
def searchAttempt : Except SearchError Source → SearchResult
  | .error error => .failed error
  | .ok source => .ofPrinted (p.searchBuffer source.label source.contents)

/-- Search what attempts to read come to, one after the other. -/
def searchAttempts (attempts : List (Except SearchError Source)) : SearchResult :=
  attempts.foldr (fun attempt more => (p.searchAttempt attempt).andThen more) (.ofPrinted .empty)

/-- Search buffers one after the other. -/
def searchSources (sources : List Source) : Printed :=
  sources.foldr (fun source more => p.searchBuffer source.label source.contents ++ more) .empty

theorem output_searchSources (sources : List Source) : (p.searchSources sources).output =
    sources.flatMap fun source => (p.searchBuffer source.label source.contents).output := by
  induction sources with
  | nil => rfl
  | cons source more ih => exact congrArg ((p.searchBuffer _ _).output ++ ·) ih

theorem matched_searchSources_iff {sources : List Source} :
    (p.searchSources sources).matched = true ↔
      ∃ source ∈ sources, ∃ line ∈ source.contents.lines, p.matchesBytes line := by
  induction sources with
  | nil => exact iff_of_false Bool.false_ne_true fun ⟨_, hmem, _⟩ => List.not_mem_nil hmem
  | cons source more ih =>
    show (_ || (p.searchSources more).matched) = true ↔ _
    rw [Bool.or_eq_true, ih, matched_searchBuffer_iff]
    simp only [List.mem_cons, exists_eq_or_imp]

/-- Something is printed from the buffers iff a line matches. -/
theorem output_searchSources_ne_nil_iff {sources : List Source} :
    (p.searchSources sources).output ≠ [] ↔ (p.searchSources sources).matched = true := by
  induction sources with
  | nil => exact iff_of_false (fun h => h rfl) Bool.false_ne_true
  | cons source more ih =>
    show (p.searchBuffer source.label source.contents).output ++ (p.searchSources more).output ≠ []
      ↔ (_ || (p.searchSources more).matched) = true
    rw [Bool.or_eq_true, ← ih, ← output_searchBuffer_ne_nil_iff, Ne, List.append_eq_nil_iff,
      Classical.not_and_iff_not_or_not]

theorem searchAttempts_append (first second : List (Except SearchError Source)) :
    p.searchAttempts (first ++ second) =
      (p.searchAttempts first).andThen (p.searchAttempts second) := by
  induction first with
  | nil => exact (SearchResult.empty_andThen _).symm
  | cons attempt more ih =>
    show (p.searchAttempt attempt).andThen (p.searchAttempts (more ++ second)) = _
    rw [ih, ← SearchResult.andThen_assoc]
    rfl

/-- What can all be read is all searched. -/
theorem searchAttempts_ends (sources : List Source) :
    p.searchAttempts (sources.map .ok) = .ofPrinted (p.searchSources sources) := by
  induction sources with
  | nil => rfl
  | cons source more ih =>
    show (p.searchAttempt (.ok source)).andThen (p.searchAttempts (more.map .ok)) = _
    rw [ih]
    rfl

/-- The first failure ends the search.  What is printed by then stays printed, whatever it is. -/
theorem searchAttempts_breaks_off (sources : List Source) (error : SearchError)
    (later : List (Except SearchError Source)) :
    p.searchAttempts (sources.map .ok ++ .error error :: later) =
      ⟨(p.searchSources sources).output, .error error⟩ := by
  have hfails : p.searchAttempts (.error error :: later) = .failed error := rfl
  rw [searchAttempts_append, searchAttempts_ends, hfails]
  show (⟨_ ++ [], _⟩ : SearchResult) = _
  rw [List.append_nil]
  rfl

/-! ## A search goes through the attempts -/

variable (inputs : Inputs)

theorem searchFile_eq (labelled : Bool) (file : Bytes) :
    p.searchFile inputs labelled file = p.searchAttempt (inputs.attempt labelled file) := by
  rw [searchFile, Inputs.attempt]
  cases inputs.readFile file <;> rfl

theorem searchFiles_eq (labelled : Bool) (files : List Bytes) :
    p.searchFiles inputs labelled files =
      p.searchAttempts (files.map (inputs.attempt labelled)) := by
  induction files with
  | nil => rfl
  | cons file more ih =>
    show (p.searchFile inputs labelled file).andThen (p.searchFiles inputs labelled more) = _
    rw [ih, searchFile_eq]
    rfl

theorem searchPaths_eq (recursive labelled : Bool) (paths : List Bytes) :
    p.searchPaths inputs recursive labelled paths = p.searchAttempts
      ((paths.map (inputs.filesNamed recursive)).flatMap (inputs.attemptsAmong labelled)) := by
  induction paths with
  | nil => rfl
  | cons path rest ih =>
    rw [searchPaths, List.map_cons, List.flatMap_cons, searchAttempts_append, ih]
    cases inputs.filesNamed recursive path with
    | error error => rfl
    | ok files =>
      show (p.searchFiles inputs labelled files).andThen _ = _
      rw [searchFiles_eq]
      rfl

/-- A search goes through the attempts to read what is named. -/
theorem search_eq (c : Configuration) :
    p.search c inputs = p.searchAttempts (inputs.attempts c) := by
  by_cases hpaths : c.paths.isEmpty
  · rw [search, Inputs.attempts, if_pos hpaths, if_pos hpaths, Inputs.standardAttempt]
    cases inputs.standardInput with
    | error cause => rfl
    | ok contents => exact (SearchResult.andThen_empty _).symm
  · rw [search, Inputs.attempts, if_neg hpaths, if_neg hpaths]
    exact p.searchPaths_eq inputs c.recursive c.labelled c.paths

/-! ## The paths and their files -/

omit inputs

theorem output_searchSources_files (c : Configuration) (contents : Bytes → Bytes)
    (files : List Bytes) :
    (p.searchSources (sourcesOf c.labelled contents files)).output =
      files.flatMap fun file => (p.searchBuffer
        (if c.recursive ∨ 1 < c.paths.length then some (Path.shown file) else none)
        (contents file)).output := by
  have hlabelled : c.labelled = true ↔ c.recursive = true ∨ 1 < c.paths.length := by
    rw [Configuration.labelled, Bool.or_eq_true, decide_eq_true_iff]
  rw [output_searchSources, sourcesOf, List.flatMap_map]
  simp only [labelOf, hlabelled]

theorem matched_searchSources_files_iff {labelled : Bool} {contents : Bytes → Bytes}
    {files : List Bytes} :
    (p.searchSources (sourcesOf labelled contents files)).matched = true ↔
      ∃ file ∈ files, ∃ line ∈ (contents file).lines, p.matchesBytes line := by
  rw [matched_searchSources_iff]
  constructor
  · rintro ⟨source, hsource, hline⟩
    obtain ⟨file, hfile, rfl⟩ := List.mem_map.mp hsource
    exact ⟨file, hfile, hline⟩
  · rintro ⟨file, hfile, hline⟩
    exact ⟨_, List.mem_map_of_mem hfile, hline⟩

/-- **A search of paths is the searches of their files, in order, up to the first bad path.**  Where
all that the paths name can be read, the files of one path after the other are searched, all of them
with their paths as labels or none, and the search answers whether a line of any of them matches.
The first path whose files cannot be named ends the search behind the files of the paths before it.
Without paths, standard input is searched, whatever files there are. -/
theorem search_in_order (c : Configuration) (inputs : Inputs) (contents : Bytes → Bytes)
    (hread : ∀ path ∈ c.paths, ∀ files, inputs.filesNamed c.recursive path = .ok files →
      ∀ file ∈ files, inputs.read file = .ok (contents file)) :
    let printed (files : List Bytes) : Bytes := files.flatMap fun file => (p.searchBuffer
      (if c.recursive ∨ 1 < c.paths.length then some (Path.shown file) else none)
      (contents file)).output
    (∀ named : List (List Bytes), c.paths ≠ [] →
      c.paths.map (inputs.filesNamed c.recursive) = named.map .ok →
      ∃ matched, p.search c inputs = ⟨printed named.flatten, .ok matched⟩ ∧
        (matched = true ↔
          ∃ file ∈ named.flatten, ∃ line ∈ (contents file).lines, p.matchesBytes line)) ∧
    (∀ (named : List (List Bytes)) (error : SearchError)
      (later : List (Except SearchError (List Bytes))),
      c.paths.map (inputs.filesNamed c.recursive) = named.map .ok ++ .error error :: later →
      p.search c inputs = ⟨printed named.flatten, .error error⟩) ∧
    (c.paths = [] → ∀ others : Inputs, others.standardInput = inputs.standardInput →
      p.search c others =
        match inputs.standardInput with
        | .error cause => ⟨[], .error (.standardInput cause)⟩
        | .ok contents => ⟨(p.searchBuffer none contents).output,
            .ok (p.searchBuffer none contents).matched⟩) := by
  -- the files named are sources, also where a path behind them is bad
  have hsources : ∀ named : List (List Bytes),
      (∀ files ∈ named, .ok files ∈ c.paths.map (inputs.filesNamed c.recursive)) →
      (named.map .ok).flatMap (inputs.attemptsAmong c.labelled) =
        (sourcesOf c.labelled contents named.flatten).map .ok := by
    intro named hmem
    refine Inputs.flatMap_attemptsAmong fun files hfiles => ?_
    obtain ⟨path, hpath, hfilesNamed⟩ := List.mem_map.mp (hmem files hfiles)
    exact hread path hpath files hfilesNamed
  refine ⟨?_, ?_, ?_⟩
  · intro named hpaths hnamings
    have hall : ∀ files ∈ named, .ok files ∈ c.paths.map (inputs.filesNamed c.recursive) :=
      fun files hfiles => hnamings ▸ List.mem_map_of_mem hfiles
    refine ⟨(p.searchSources (sourcesOf c.labelled contents named.flatten)).matched, ?_,
      p.matched_searchSources_files_iff⟩
    rw [search_eq, Inputs.attempts_of_paths hpaths, Inputs.namings, hnamings, hsources named hall,
      searchAttempts_ends, SearchResult.ofPrinted, output_searchSources_files]
  · intro named error later hnamings
    -- a bad path is a path, so standard input is out of the question
    have hpaths : c.paths ≠ [] := by
      intro hempty
      rw [hempty] at hnamings
      exact List.append_ne_nil_of_right_ne_nil _ (List.cons_ne_nil _ _) hnamings.symm
    have hbefore : ∀ files ∈ named,
        .ok files ∈ c.paths.map (inputs.filesNamed c.recursive) :=
      fun files hfiles => hnamings ▸ List.mem_append_left _ (List.mem_map_of_mem hfiles)
    rw [search_eq, Inputs.attempts_of_paths hpaths, Inputs.namings, hnamings, List.flatMap_append,
      hsources named hbefore, List.flatMap_cons]
    show p.searchAttempts (_ ++ .error error :: _) = _
    rw [searchAttempts_breaks_off, output_searchSources_files]
  · intro hpaths others hsame
    rw [search, hpaths, hsame]
    cases inputs.standardInput <;> rfl

/-- A directory is a bad path outside a recursive search.  What was found in the file before it
stays printed, and the same file named again behind it is not searched.  In a recursive search the
file is searched twice, and between these searches the file in the directory. -/
theorem search_in_order_around_directory :
    let p : Pattern := ⟨[⟨.single (.literal 'a'), .once⟩], ⟨false, false⟩⟩
    let fs : FileSystem := ⟨{ entries := [([0x66], .file (.ok [0x61, 0x0A, 0x62])),
      ([0x64], .directory {} [([0x67], .file (.ok [0x61])), ([0x6C], .link [0x66])])] }, []⟩
    let inputs := fs.inputs (.ok [])
    let paths : List Bytes := [[0x66], [0x64], [0x66]]
    p.search ⟨"a", false, paths⟩ inputs =
        ⟨[0x66, 0x3A, 0x61, 0x0A], .error (.isADirectory [0x64])⟩ ∧
      p.search ⟨"a", true, paths⟩ inputs =
        ⟨[0x66, 0x3A, 0x61, 0x0A] ++ [0x64, 0x2F, 0x67, 0x3A, 0x61, 0x0A] ++
          [0x66, 0x3A, 0x61, 0x0A], .ok true⟩ := by
  intro p fs inputs paths
  let f : Bytes := [0x66]
  let g : Bytes := [0x64, 0x2F, 0x67]
  let contents : Bytes → Bytes := fun file => if file = f then [0x61, 0x0A, 0x62] else [0x61]
  have hf : ∀ recursive, inputs.filesNamed recursive f = .ok [f] := fun _ => rfl
  have hd : inputs.filesNamed true [0x64] = .ok [g] := by
    let d : Directory := { entries := [([0x67], .file (.ok [0x61])), ([0x6C], .link [0x66])] }
    have hordered : Listing.inOrder d.entries = d.entries :=
      Listing.inOrder_eq (.refl _) (by decide)
    have hvisits : d.entry.visits [0x64] = [.directory [0x64], .file g] := by
      rw [Directory.entry, Entry.visits_directory, hordered]
      simp [d, g, Path.join, Path.slash]
    exact FileSystem.filesNamed_of_visits rfl hvisits (by decide)
  have hread : ∀ recursive, ∀ path ∈ paths, ∀ files, inputs.filesNamed recursive path = .ok files →
      ∀ file ∈ files, inputs.read file = .ok (contents file) := by
    intro recursive path hpath files hfiles file hfile
    have hcases : path = f ∨ path = [0x64] := by grind
    rcases hcases with rfl | rfl
    · obtain rfl := Except.ok.inj ((hf recursive).symm.trans hfiles)
      obtain rfl := List.mem_singleton.mp hfile
      rfl
    · cases recursive with
      | false => cases hfiles
      | true =>
        obtain rfl := Except.ok.inj (hd.symm.trans hfiles)
        obtain rfl := List.mem_singleton.mp hfile
        rfl
  have hnamings : paths.map (inputs.filesNamed true) = [[f], [g], [f]].map .ok := by
    simp only [paths, List.map_cons, List.map_nil, hd]
    rfl
  obtain ⟨-, hfails, -⟩ := p.search_in_order ⟨"a", false, paths⟩ inputs contents (hread false)
  obtain ⟨hends, -, -⟩ := p.search_in_order ⟨"a", true, paths⟩ inputs contents (hread true)
  obtain ⟨matched, hsearch, hmatched⟩ := hends [[f], [g], [f]] (List.cons_ne_nil _ _) hnamings
  have hline : matched = true :=
    hmatched.mpr ⟨f, List.mem_cons_self, [0x61], by decide, by decide⟩
  have hfailed := hfails [[f]] (.isADirectory [0x64]) [.ok [f]] rfl
  have hprinted : (p.searchBuffer (some (Path.shown f)) (contents f)).output =
      [0x66, 0x3A, 0x61, 0x0A] ∧ (p.searchBuffer (some (Path.shown g)) (contents g)).output =
      [0x64, 0x2F, 0x67, 0x3A, 0x61, 0x0A] := by decide
  rw [hsearch, hfailed, hline]
  simp [paths, hprinted]

end Pattern
end LineSearch
