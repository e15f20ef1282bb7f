import LineSearch.Command.Arguments
import LineSearch.Command.Outcome
import LineSearch.Proofs.Search.Course

/-! # The exit status and what is written agree

A run that is not asked for help or the version ends in one of four ways: the command
line is wrong, the pattern is malformed, all inputs are read and searched, or the search
breaks off at an input (`Outcome.ends`).  Each of them fixes the whole outcome
(`Outcome.of_refused`, `Outcome.of_malformed`, `Outcome.of_course`), so from the status one
can tell what was written and why (`Outcome.status_tells`).

The first two endings do not mention the inputs: nothing is read then.  The last two are
told apart by the course of the search, which the rules of `FileSystem.Course` fix.
-/
namespace LineSearch

section
variable {ε : Type} (parser : ArgumentParser ε)

/-- The command line is right and asks for a search. -/
structure Asks (line : List Bytes) (c : Configuration) (p : Pattern) : Prop where
  /-- The command line is understood. -/
  parsed : Configuration.ofCommandLine parser line = .ok c
  /-- The pattern is well formed. -/
  compiled : Pattern.compile c.pattern = .ok p

/-- The command line is wrong. -/
def Misused (line : List Bytes) : Prop :=
  ∃ error, Configuration.ofCommandLine parser line = .error error

/-- The command line is right, but its pattern is malformed. -/
def AsksMalformed (line : List Bytes) : Prop :=
  ∃ c error, Configuration.ofCommandLine parser line = .ok c ∧
    Pattern.compile c.pattern = .error error

end

namespace Outcome
variable {ε : Type} {parser : ArgumentParser ε} {line : List Bytes} {inputs : Inputs}
variable {fs : FileSystem} {standardInput : Except AccessError Bytes}
variable {c : Configuration} {p : Pattern} {sources : List Source}

/-- What the program says when it fails begins with its name. -/
theorem errors_failed (output : Bytes) (reason : String) :
    "backtrack-grep: ".toList <+: (failed output reason).errors.toList := by
  refine ⟨(reason ++ "\n").toList, ?_⟩
  rw [← String.toList_append, failed, String.append_assoc]
  rfl

/-! ## The four endings -/

theorem of_refused {error : ε} (h : Configuration.ofCommandLine parser line = .error error)
    (hkind : (parser.kind error).isAnswer = false) :
    ofProgram parser line inputs = ⟨1, [], parser.text error⟩ := by
  simp only [ofProgram, Job.ofCommandLine, h, refused, hkind, if_neg Bool.false_ne_true]

theorem of_malformed {error : PatternError}
    (hc : Configuration.ofCommandLine parser line = .ok c)
    (hp : Pattern.compile c.pattern = .error error) : ofProgram parser line inputs =
      failed [] ("invalid pattern '" ++ c.pattern ++ "': " ++ error.message) := by
  simp only [ofProgram, Job.ofCommandLine, hc, hp]

theorem of_course {failure : Option SearchError} (h : Asks parser line c p) (hfs : fs.WellFormed)
    (hcourse : fs.Course standardInput c sources failure) :
    ofProgram parser line (fs.inputs standardInput) =
      match failure with
      | none => ⟨if (p.searchSources sources).matched then 0 else 1,
          (p.searchSources sources).output, ""⟩
      | some error => failed (p.searchSources sources).output error.message := by
  have hsearch := p.searchAttempts_of_upToFailure (hcourse.upToFailure hfs)
  simp only [ofProgram, Job.ofCommandLine, h.parsed, h.compiled, Job.run, Pattern.search_eq,
    hsearch, ofSearch]
  cases failure with
  | some error => rfl
  | none => cases (p.searchSources sources).matched <;> rfl

section
variable (hanswer : ∀ error, Configuration.ofCommandLine parser line = .error error →
  (parser.kind error).isAnswer = false)
variable (hfs : fs.WellFormed) (standardInput)
include hanswer hfs

/-- A run that is not asked for help or the version ends in one of four ways.  If all inputs are
searched, the status tells whether a line matched. -/
theorem ends :
    Misused parser line ∧ (ofProgram parser line (fs.inputs standardInput)).status = 1 ∨
    AsksMalformed parser line ∧ (ofProgram parser line (fs.inputs standardInput)).status = 2 ∨
    (∃ c p, ∃ sources : List Source, Asks parser line c p ∧
      fs.Course standardInput c sources none ∧ (p.searchSources sources).matched = true) ∧
      (ofProgram parser line (fs.inputs standardInput)).status = 0 ∨
    (∃ c p, ∃ sources : List Source, Asks parser line c p ∧
      fs.Course standardInput c sources none ∧ ¬ (p.searchSources sources).matched = true) ∧
      (ofProgram parser line (fs.inputs standardInput)).status = 1 ∨
    (∃ c p, ∃ sources : List Source, ∃ error, Asks parser line c p ∧
      fs.Course standardInput c sources (some error)) ∧
      (ofProgram parser line (fs.inputs standardInput)).status = 2 := by
  rcases hc : Configuration.ofCommandLine parser line with error | c
  · exact .inl ⟨⟨error, hc⟩, by rw [of_refused hc (hanswer error hc)]⟩
  rcases hp : Pattern.compile c.pattern with error | p
  · exact .inr (.inl ⟨⟨c, error, hc, hp⟩, by rw [of_malformed hc hp]; rfl⟩)
  have h : Asks parser line c p := ⟨hc, hp⟩
  obtain ⟨sources, failure, hcourse⟩ := FileSystem.exists_course hfs standardInput c
  have hstatus := congrArg Outcome.status (of_course h hfs hcourse)
  cases failure with
  | some error => exact .inr (.inr (.inr (.inr ⟨⟨c, p, sources, error, h, hcourse⟩, hstatus⟩)))
  | none =>
    by_cases hmatched : (p.searchSources sources).matched = true
    · rw [if_pos hmatched] at hstatus
      exact .inr (.inr (.inl ⟨⟨c, p, sources, h, hcourse, hmatched⟩, hstatus⟩))
    · rw [if_neg hmatched] at hstatus
      exact .inr (.inr (.inr (.inl ⟨⟨c, p, sources, h, hcourse, hmatched⟩, hstatus⟩)))

/-! ## From the status back to the ending -/

theorem status_eq_zero_iff : (ofProgram parser line (fs.inputs standardInput)).status = 0 ↔
    ∃ c p, ∃ sources : List Source, Asks parser line c p ∧
      fs.Course standardInput c sources none ∧ (p.searchSources sources).matched = true := by
  constructor
  · intro hstatus
    rcases ends standardInput hanswer hfs with
      ⟨-, hone⟩ | ⟨-, htwo⟩ | ⟨hfound, -⟩ | ⟨-, hone⟩ | ⟨-, htwo⟩
    · omega
    · omega
    · exact hfound
    · omega
    · omega
  · rintro ⟨c, p, sources, h, hcourse, hmatched⟩
    rw [of_course h hfs hcourse]
    exact if_pos hmatched

theorem status_eq_one_iff : (ofProgram parser line (fs.inputs standardInput)).status = 1 ↔
    Misused parser line ∨ ∃ c p, ∃ sources : List Source, Asks parser line c p ∧
      fs.Course standardInput c sources none ∧ ¬ (p.searchSources sources).matched = true := by
  constructor
  · intro hstatus
    rcases ends standardInput hanswer hfs with
      ⟨hwrong, -⟩ | ⟨-, htwo⟩ | ⟨-, hzero⟩ | ⟨hnone, -⟩ | ⟨-, htwo⟩
    · exact .inl hwrong
    · omega
    · omega
    · exact .inr hnone
    · omega
  · rintro (⟨error, hc⟩ | ⟨c, p, sources, h, hcourse, hmatched⟩)
    · rw [of_refused hc (hanswer error hc)]
    · rw [of_course h hfs hcourse]
      exact if_neg hmatched

theorem status_eq_two_iff : (ofProgram parser line (fs.inputs standardInput)).status = 2 ↔
    AsksMalformed parser line ∨ ∃ c p, ∃ sources : List Source, ∃ error, Asks parser line c p ∧
      fs.Course standardInput c sources (some error) := by
  constructor
  · intro hstatus
    rcases ends standardInput hanswer hfs with
      ⟨-, hone⟩ | ⟨hmalformed, -⟩ | ⟨-, hzero⟩ | ⟨-, hone⟩ | ⟨hbreaks, -⟩
    · omega
    · exact .inl hmalformed
    · omega
    · omega
    · exact .inr hbreaks
  · rintro (⟨c, error, hc, hp⟩ | ⟨c, p, sources, error, h, hcourse⟩)
    · rw [of_malformed hc hp]
      rfl
    · rw [of_course h hfs hcourse]
      rfl

end

/-- What `Progress.parser` says of an error is never nothing. -/
theorem text_parser_ne_empty (error : ArgumentError) : Progress.parser.text error ≠ "" := by
  intro hempty
  have hlength := congrArg String.length hempty
  obtain ⟨command, program, refusal⟩ := error
  cases refusal with
  | usage error => simp [Progress.parser, ArgumentError.text] at hlength
  | help =>
    simp [Progress.parser, ArgumentError.text, Command.helpLines, String.join_cons] at hlength
  | version => simp [Progress.parser, ArgumentError.text] at hlength

/-- **The exit status, standard output and standard error agree.**  Unless help or the version is
asked for, the status is 0 iff all that is named has been read and a line matched, and then
something is printed and no error; 1 iff the command line is wrong, and then an error is reported
and the inputs do not matter, or all has been read and no line matched, and then nothing is written
at all; 2 iff the pattern is malformed, and then nothing is printed and the inputs do not matter, or
an input cannot be read, and then the matching lines of the inputs before it are printed.  With
status 2 an error is reported under the program's name. -/
theorem status_tells (parser : ArgumentParser ε) (hprints : ∀ error, parser.text error ≠ "")
    (line : List Bytes) (hanswer : ∀ error, Configuration.ofCommandLine parser line = .error error →
      (parser.kind error).isAnswer = false)
    {fs : FileSystem} (hfs : fs.WellFormed) (standardInput : Except AccessError Bytes) :
    let outcome := ofProgram parser line (fs.inputs standardInput)
    ((outcome.status = 0 ↔ ∃ c p, ∃ sources : List Source,
        Asks parser line c p ∧ fs.Course standardInput c sources none ∧
        ∃ source ∈ sources, ∃ line ∈ source.contents.lines, p.matchesBytes line) ∧
      (outcome.status = 0 → outcome.output ≠ [] ∧ outcome.errors = "")) ∧
    ((outcome.status = 1 ↔
        Misused parser line ∨
        ∃ c p, ∃ sources : List Source,
          Asks parser line c p ∧ fs.Course standardInput c sources none ∧
          ¬ ∃ source ∈ sources, ∃ line ∈ source.contents.lines, p.matchesBytes line) ∧
      (Misused parser line → outcome.output = [] ∧ outcome.errors ≠ "" ∧
        ∀ others, ofProgram parser line others = outcome) ∧
      (outcome.status = 1 → ¬ Misused parser line →
        outcome.output = [] ∧ outcome.errors = "")) ∧
    ((outcome.status = 2 ↔
        AsksMalformed parser line ∨
        ∃ c p, ∃ sources : List Source, ∃ error,
          Asks parser line c p ∧ fs.Course standardInput c sources (some error)) ∧
      (AsksMalformed parser line →
        outcome.output = [] ∧ ∀ others, ofProgram parser line others = outcome) ∧
      (∀ c p, ∀ sources : List Source, ∀ error, Asks parser line c p →
        fs.Course standardInput c sources (some error) →
        outcome.output = sources.flatMap fun source =>
          (source.contents.lines.filter p.matchesBytes).flatMap (printedLine source.label)) ∧
      (outcome.status = 2 → "backtrack-grep: ".toList <+: outcome.errors.toList)) := by
  intro outcome
  have hzero := status_eq_zero_iff standardInput hanswer hfs
  have hone := status_eq_one_iff standardInput hanswer hfs
  have htwo := status_eq_two_iff standardInput hanswer hfs
  simp only [← Pattern.matched_searchSources_iff]
  -- each ending fixes the whole outcome, so what is written is read off the ending
  refine ⟨⟨hzero, ?_⟩, ⟨hone, ?_, ?_⟩, htwo, ?_, ?_, ?_⟩
  · intro hstatus
    obtain ⟨c, p, sources, h, hcourse, hmatched⟩ := hzero.mp hstatus
    rw [show outcome = _ from of_course h hfs hcourse]
    exact ⟨p.output_searchSources_ne_nil_iff.mpr hmatched, rfl⟩
  · rintro ⟨error, hc⟩
    have hall : ∀ others, ofProgram parser line others = _ := fun others =>
      of_refused hc (hanswer error hc)
    rw [show outcome = _ from hall _]
    exact ⟨rfl, hprints error, hall⟩
  · intro hstatus hright
    rcases hone.mp hstatus with hwrong | ⟨c, p, sources, h, hcourse, hmatched⟩
    · exact absurd hwrong hright
    · rw [show outcome = _ from of_course h hfs hcourse]
      have hempty : (p.searchSources sources).output = [] := Classical.not_not.mp fun hprinted =>
        hmatched (p.output_searchSources_ne_nil_iff.mp hprinted)
      exact ⟨hempty, rfl⟩
  · rintro ⟨c, error, hc, hp⟩
    have hall : ∀ others, ofProgram parser line others = _ := fun others => of_malformed hc hp
    rw [show outcome = _ from hall _]
    exact ⟨rfl, hall⟩
  · intro c p sources error h hcourse
    rw [show outcome = _ from of_course h hfs hcourse]
    exact p.output_searchSources sources
  · intro hstatus
    rcases htwo.mp hstatus with ⟨c, error, hc, hp⟩ | ⟨c, p, sources, error, h, hcourse⟩
    · rw [show outcome = _ from of_malformed hc hp]
      exact errors_failed _ _
    · rw [show outcome = _ from of_course h hfs hcourse]
      exact errors_failed _ _

/-- A file in a directory that cannot be read ends the run with status 2, although a line of the
file before it in the directory has matched and is printed. -/
theorem status_tells_unreadable_behind_match :
    let line : List Bytes :=
      ["grep", "-rE", "a", "d", "h"].map fun argument => Utf8.encode argument.toList
    let inner : Listing := [([0x67], .file (.error .permissionDenied)),
      ([0x66], .file (.ok [0x61, 0x0A, 0x62]))]
    let fs : FileSystem :=
      ⟨{ entries := [([0x68], .file (.ok [0x61])), ([0x64], .directory {} inner)] }, []⟩
    let outcome := ofProgram Progress.parser line (fs.inputs (.ok []))
    outcome.status = 2 ∧ outcome.output = [0x64, 0x2F, 0x66, 0x3A, 0x61, 0x0A] ∧
      "backtrack-grep: ".toList <+: outcome.errors.toList := by
  intro line inner fs outcome
  let c : Configuration := ⟨"a", true, [[0x64], [0x68]]⟩
  let p : Pattern := ⟨[⟨.single (.literal 'a'), .once⟩], ⟨false, false⟩⟩
  let sources : List Source := [⟨some "d/f", [0x61, 0x0A, 0x62]⟩]
  let unreadable : SearchError := .cannotReadFile [0x64, 0x2F, 0x67] .permissionDenied
  have hp : Pattern.compile "a" = .ok ⟨[⟨.single (.literal 'a'), .once⟩], ⟨false, false⟩⟩ := by rfl
  have h : Asks Progress.parser line c p := ⟨rfl, hp⟩
  have hanswer : ∀ error, Configuration.ofCommandLine Progress.parser line = .error error →
      (Progress.parser.kind error).isAnswer = false := by
    intro error herror
    rw [h.parsed] at herror
    cases herror
  have hfs : fs.WellFormed := by
    refine ⟨.directory _ (by decide) (by decide) ?_, nofun⟩
    have hinner : ∀ y ∈ inner, y.2.WellFormed := by
      simp only [inner, List.forall_mem_cons]
      exact ⟨.file _, .file _, nofun⟩
    exact List.forall_mem_cons.mpr ⟨.file _,
      List.forall_mem_cons.mpr ⟨.directory _ (by decide) (by decide) hinner, nofun⟩⟩
  have hordered : Listing.inOrder inner = inner.reverse :=
    Listing.inOrder_eq (List.reverse_perm _) (by decide)
  have hvisits : (Directory.mk {} inner).entry.visits [0x64] =
      [.directory [0x64], .file [0x64, 0x2F, 0x66], .file [0x64, 0x2F, 0x67]] := by
    rw [Directory.entry, Entry.visits_directory, hordered]
    simp [inner, Path.join, Path.slash]
  have hd : (fs.inputs (.ok [])).filesNamed true [0x64] =
      .ok [[0x64, 0x2F, 0x66], [0x64, 0x2F, 0x67]] :=
    FileSystem.filesNamed_of_visits rfl hvisits (by decide)
  have hcourse : fs.Course (.ok []) c sources (some unreadable) := by
    refine (FileSystem.course_iff hfs).mpr ?_
    rw [Inputs.attempts_of_paths (List.cons_ne_nil _ _), Inputs.namings, List.map_cons, hd]
    rfl
  obtain ⟨-, -, hstatus, -, houtput, herrors⟩ :=
    status_tells Progress.parser text_parser_ne_empty line hanswer hfs (.ok [])
  have htwo : outcome.status = 2 := hstatus.mpr (.inr ⟨c, p, sources, unreadable, h, hcourse⟩)
  exact ⟨htwo, (houtput c p sources unreadable h hcourse).trans (by decide), herrors htwo⟩

end Outcome
end LineSearch
