import LineSearch.Proofs.Files.Named
import LineSearch.Proofs.Search.InOrder

/-! # A recursive search and a search of the files that it finds

The files that a recursive search comes to can as well be named one by one, by their own
paths.  Each of these paths leads to its file again (`FileSystem.look_under`), so the same buffers
are searched in the same order, with the same labels, whether or not the second search is
recursive, as long as it has paths for two files at least.

There is one difference.  A file whose path cannot be followed, because it is too long or because
a directory on the way is locked, ends both searches at the same place, but a walk comes to it and
cannot read it, while a search that is given its path cannot even come to it.  So the searches
agree in what they print and in what they answer (`SearchResult.Agrees`), and they may differ in
the words of an error.
-/
namespace LineSearch

namespace SearchResult

/-- Two searches print the same and give the same answer, or both break off. -/
def Agrees (first second : SearchResult) : Prop :=
  first.output = second.output ∧ first.result.toOption = second.result.toOption

theorem Agrees.refl (search : SearchResult) : search.Agrees search := ⟨rfl, rfl⟩

theorem Agrees.andThen (first : SearchResult) {second second' : SearchResult}
    (h : second.Agrees second') : (first.andThen second).Agrees (first.andThen second') := by
  obtain ⟨output, result⟩ := first
  obtain ⟨houtput, hresult⟩ := h
  cases result with
  | error error => exact .refl _
  | ok matched =>
    refine ⟨congrArg (output ++ ·) houtput, ?_⟩
    show (second.result.map (matched || ·)).toOption = (second'.result.map (matched || ·)).toOption
    have hmap : ∀ result : Except SearchError Bool,
        (result.map (matched || ·)).toOption = result.toOption.map (matched || ·) := by
      rintro (_ | _) <;> rfl
    rw [hmap, hmap, hresult]

end SearchResult

namespace FileSystem
variable {fs : FileSystem} {standardInput : Except AccessError Bytes}

/-- A file that was named is tried in the same way when its own path is named, or both attempts
fail. -/
theorem toOption_attemptsAmong_of_mem (hfs : fs.WellFormed) {path : Bytes} {files : List Bytes}
    (hfiles : (fs.inputs standardInput).filesNamed true path = .ok files) {file : Bytes}
    (hfile : file ∈ files) (recursive labelled : Bool) :
    let inputs := fs.inputs standardInput
    (inputs.attemptsAmong labelled (inputs.filesNamed recursive file)).map Except.toOption =
      [(inputs.attempt labelled file).toOption] := by
  intro inputs
  rcases ((filesNamed_eq_ok_iff hfs).mp hfiles).look_of_mem hfs hfile with
    ⟨contents, hlook⟩ | ⟨cause, hlook⟩
  · have hnamed : inputs.filesNamed recursive file = .ok [file] := by
      simp only [inputs, Inputs.filesNamed, FileSystem.inputs, hlook]
    rw [hnamed]
    rfl
  · have hnamed : inputs.filesNamed recursive file = .error (.cannotAccess file cause) := by
      simp only [inputs, Inputs.filesNamed, FileSystem.inputs, hlook]
    have hread : inputs.read file = .error cause := by
      simp only [inputs, FileSystem.inputs, read, hlook]
    rw [hnamed, Inputs.attempt_of_error hread]
    rfl

/-- The attempts at files that were named, when they are named by their own paths. -/
theorem toOption_attempts_of_mem (hfs : fs.WellFormed) {listed : List Bytes}
    (hlisted : ∀ file ∈ listed, ∃ path files,
      (fs.inputs standardInput).filesNamed true path = .ok files ∧ file ∈ files)
    (recursive labelled : Bool) :
    let inputs := fs.inputs standardInput
    ((listed.map (inputs.filesNamed recursive)).flatMap (inputs.attemptsAmong labelled)).map
        Except.toOption =
      (listed.map (inputs.attempt labelled)).map Except.toOption := by
  intro inputs
  induction listed with
  | nil => rfl
  | cons file rest ih =>
    obtain ⟨⟨path, files, hfiles, hfile⟩, hrest⟩ := List.forall_mem_cons.mp hlisted
    rw [List.map_cons, List.flatMap_cons, List.map_append, ih hrest,
      toOption_attemptsAmong_of_mem hfs hfiles hfile]
    rfl

end FileSystem

namespace Pattern
variable (p : Pattern)

/-- Attempts that succeed and fail alike, and come to the same buffers, are searched alike. -/
theorem searchAttempts_agrees {first second : List (Except SearchError Source)}
    (h : first.map Except.toOption = second.map Except.toOption) :
    (p.searchAttempts first).Agrees (p.searchAttempts second) := by
  induction first generalizing second with
  | nil =>
    cases second with
    | nil => exact .refl _
    | cons attempt more => cases h
  | cons attempt more ih =>
    cases second with
    | nil => cases h
    | cons attempt' more' =>
      obtain ⟨hattempt, hmore⟩ := List.cons.inj h
      show ((p.searchAttempt attempt).andThen (p.searchAttempts more)).Agrees
        ((p.searchAttempt attempt').andThen (p.searchAttempts more'))
      cases attempt with
      | error error =>
        cases attempt' with
        | error error' => exact ⟨rfl, rfl⟩
        | ok source => cases hattempt
      | ok source =>
        cases attempt' with
        | error error => cases hattempt
        | ok source' =>
          obtain rfl : source = source' := Option.some.inj hattempt
          exact (ih hmore).andThen _

/-- **A recursive search is a search of the files that it finds.**  Where every path names files, a
recursive search of these paths and one of the files' own paths, in order, print the same bytes and
give the same answer, provided that there is a file at all.  A file that is found twice is searched
twice.  With two files or more, the second search need not be recursive. -/
theorem search_listed_files {fs : FileSystem} (hfs : fs.WellFormed)
    (standardInput : Except AccessError Bytes) (source : String) {paths : List Bytes}
    {named : List (List Bytes)}
    (hnamed : paths.map ((fs.inputs standardInput).filesNamed true) = named.map .ok) :
    let inputs := fs.inputs standardInput
    let listed := named.flatten
    (listed ≠ [] →
      (p.search ⟨source, true, listed⟩ inputs).Agrees (p.search ⟨source, true, paths⟩ inputs)) ∧
    (2 ≤ listed.length →
      (p.search ⟨source, false, listed⟩ inputs).Agrees
        (p.search ⟨source, true, paths⟩ inputs)) := by
  intro inputs listed
  have hlisted : ∀ file ∈ listed, ∃ path files,
      inputs.filesNamed true path = .ok files ∧ file ∈ files := by
    intro file hfile
    obtain ⟨files, hfiles, hmem⟩ := List.mem_flatten.mp hfile
    have hnaming : Except.ok files ∈ paths.map (inputs.filesNamed true) :=
      hnamed ▸ List.mem_map_of_mem hfiles
    obtain ⟨path, -, hpath⟩ := List.mem_map.mp hnaming
    exact ⟨path, files, hpath, hmem⟩
  -- lines are labelled in all three searches
  have hagrees : ∀ recursive, listed ≠ [] → (recursive || decide (1 < listed.length)) = true →
      (p.search ⟨source, recursive, listed⟩ inputs).Agrees
        (p.search ⟨source, true, paths⟩ inputs) := by
    intro recursive hne hlabelled
    have hpaths : paths ≠ [] := by
      rintro rfl
      obtain rfl : named = [] := List.map_eq_nil_iff.mp hnamed.symm
      exact hne rfl
    rw [search_eq, search_eq]
    refine p.searchAttempts_agrees ?_
    rw [Inputs.attempts_of_paths hne, Inputs.attempts_of_paths hpaths, Inputs.namings,
      Inputs.namings, hnamed, Inputs.flatMap_attemptsAmong_ok]
    show ((listed.map (inputs.filesNamed recursive)).flatMap
      (inputs.attemptsAmong (recursive || decide (1 < listed.length)))).map _ = _
    rw [hlabelled, FileSystem.toOption_attempts_of_mem hfs hlisted]
    rfl
  refine ⟨fun hne => hagrees true hne rfl, fun htwo => hagrees false ?_ (decide_eq_true htwo)⟩
  exact List.ne_nil_of_length_pos (Nat.lt_of_lt_of_le Nat.zero_lt_two htwo)

/-- The directory `d` is searched under the path of a link to it, from the root, and so is the file
in it when it is named.  The link beside that file is in neither search.  The file `f` is reached
upwards from the current directory. -/
theorem search_listed_files_behind_link :
    let p : Pattern := ⟨[⟨.single (.literal 'a'), .once⟩], ⟨false, false⟩⟩
    let root : Listing := [([0x6C], .link [0x2F, 0x64]), ([0x66], .file (.ok [0x62, 0x61])),
      ([0x63], .directory {} []),
      ([0x64], .directory {} [([0x6B], .link [0x78]), ([0x78], .file (.ok [0x61, 0x0A]))])]
    let fs : FileSystem := ⟨{ entries := root }, [{ entries := [] }]⟩
    let inputs := fs.inputs (.ok [])
    let l : Bytes := [0x2F, 0x6C]
    let x : Bytes := [0x2F, 0x6C, 0x2F, 0x78]
    let f : Bytes := [0x2E, 0x2E, 0x2F, 0x66]
    let walked := p.search ⟨"a", true, [l, f]⟩ inputs
    walked.output = x ++ [0x3A, 0x61, 0x0A] ++ f ++ [0x3A, 0x62, 0x61, 0x0A] ∧
      walked.result.toOption = some true ∧
      (p.search ⟨"a", true, [x, f]⟩ inputs).Agrees walked ∧
      (p.search ⟨"a", false, [x, f]⟩ inputs).Agrees walked := by
  intro p root fs inputs l x f walked
  have hfs : fs.WellFormed := by
    refine ⟨.directory _ (by decide) (by decide) ?_, ?_⟩
    · show ∀ y ∈ root, y.2.WellFormed
      simp only [root, List.forall_mem_cons]
      refine ⟨.link _, .file _, .directory _ List.nodup_nil nofun nofun,
        .directory _ (by decide) (by decide) ?_, nofun⟩
      simp only [List.forall_mem_cons]
      exact ⟨.link _, .file _, nofun⟩
    · exact List.forall_mem_cons.mpr ⟨.directory _ List.nodup_nil nofun nofun, nofun⟩
  have hnamed : [l, f].map (inputs.filesNamed true) = [[x], [f]].map .ok := by
    let d : Directory := { entries := [([0x6B], .link [0x78]), ([0x78], .file (.ok [0x61, 0x0A]))] }
    have hordered : Listing.inOrder d.entries = d.entries :=
      Listing.inOrder_eq (.refl _) (by decide)
    have hvisits : d.entry.visits l = [.directory l, .file x] := by
      rw [Directory.entry, Entry.visits_directory, hordered]
      simp [d, l, x, Path.join, Path.slash]
    have hl : inputs.filesNamed true l = .ok [x] :=
      FileSystem.filesNamed_of_visits rfl hvisits (by decide)
    have hf : inputs.filesNamed true f = .ok [f] := rfl
    rw [List.map_cons, List.map_cons, hl, hf]
    rfl
  obtain ⟨hwalked, hlisted⟩ := p.search_listed_files hfs (.ok []) "a" hnamed
  have hfalse := hlisted (Nat.le_refl _)
  have hsearch : (p.search ⟨"a", false, [x, f]⟩ inputs).output =
      x ++ [0x3A, 0x61, 0x0A] ++ f ++ [0x3A, 0x62, 0x61, 0x0A] ∧
      (p.search ⟨"a", false, [x, f]⟩ inputs).result.toOption = some true := by
    decide
  exact ⟨hfalse.1.symm.trans hsearch.1, hfalse.2.symm.trans hsearch.2,
    hwalked (List.cons_ne_nil _ _), hfalse⟩

end Pattern
end LineSearch
