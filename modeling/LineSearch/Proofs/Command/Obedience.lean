import LineSearch.Command.Arguments
import LineSearch.Proofs.Text.Decoding

/-! # What a command relies on in its parser

The definition of a command takes for granted how its parser reads options, flags and paths.
`ArgumentParser.Obeys` says this of any parser, in terms of what is read on after some of the
arguments: `read m arguments` is what `arguments` say if those in front of them have said `m`.
Each rule speaks only of command lines that are accepted.

The parser that judges some things later than it reads them obeys for the command of the program
(`Progress.parser_obeys`).  What is left to be judged makes no difference to what is read on, so it
may as well be judged at once (`Progress.Holds.readAll`).
-/
namespace LineSearch

/-- A path that is one without `--` too. -/
def Argument.IsPlain (path : Bytes) : Prop := path = [hyphen] ∨ path.head? ≠ some hyphen

instance (path : Bytes) : Decidable (Argument.IsPlain path) := inferInstanceAs (Decidable (_ ∨ _))

/-- Paths more. -/
def ArgMatches.addPaths (m : ArgMatches) (id : String) (paths : List Bytes) : ArgMatches :=
  paths.foldl (fun m path => m.add id (.path path)) m

/-- No path was said that is empty. -/
def ArgMatches.NoEmptyPath (m : ArgMatches) (command : Command) : Prop :=
  ∀ arg ∈ command.positionals, .path [] ∉ m.values arg.id

/-- What the definition of a command relies on in its parser. -/
structure ArgumentParser.Obeys {ε : Type} (parser : ArgumentParser ε) (command : Command)
    (read : ArgMatches → List Bytes → Except ε ArgMatches) : Prop where
  /-- Nothing has been said when the name of the program is read. -/
  begins (program : Bytes) {arguments : List Bytes} {said : ArgMatches}
    (h : read {} arguments = .ok said) : parser.parse command (program :: arguments) = .ok said
  /-- An option whose value may begin with a hyphen takes the next argument, whatever it looks
  like. -/
  option_takes_next (s : String) {m said : ArgMatches} {arguments : List Bytes} {arg : Arg}
    {c : Char} (harg : arg ∈ command.args) (hshort : arg.short = some c) (hflag : arg.flag = false)
    (hhyphens : arg.hyphenValues = true) (hvalues : arg.values = .text)
    (hfirst : m.values arg.id = []) (h : read (m.add arg.id (.text s)) arguments = .ok said) :
    read m (Utf8.encode ['-', c] :: Utf8.encode s.toList :: arguments) = .ok said
  /-- A flag is set where it stands. -/
  flag_is_set {m said : ArgMatches} {arguments : List Bytes} {arg : Arg} {c : Char}
    (harg : arg ∈ command.args) (hshort : arg.short = some c) (hflag : arg.flag = true)
    (hfirst : m.flag arg.id = false) (h : read (m.set arg.id) arguments = .ok said) :
    read m (Utf8.encode ['-', c] :: arguments) = .ok said
  /-- A hyphen alone is a path, and so is what does not begin with one. -/
  plain_is_path {m said : ArgMatches} {arguments : List Bytes} {arg : Arg} {path : Bytes}
    (harg : command.positionals = [arg]) (hmany : arg.many = true) (hvalues : arg.values = .path)
    (hne : path ≠ []) (hplain : Argument.IsPlain path)
    (h : read (m.add arg.id (.path path)) arguments = .ok said) :
    read m (path :: arguments) = .ok said
  /-- Behind `--` all are paths. -/
  behind_separator {m said : ArgMatches} {arg : Arg} {paths : List Bytes}
    (harg : command.positionals = [arg]) (hmany : arg.many = true) (hvalues : arg.values = .path)
    (hne : [] ∉ paths) (h : read (m.addPaths arg.id paths) [] = .ok said) :
    read m (Utf8.encode ['-', '-'] :: paths) = .ok said
  /-- Where the arguments end, what was said is the answer if nothing is missing. -/
  ends {m : ArgMatches} (hcomplete : m.isComplete command = true)
    (hpaths : m.NoEmptyPath command) : read m [] = .ok m

/-- Whatever does not begin with a hyphen, and a hyphen alone, has the form of a path. -/
theorem Argument.IsPlain.ofBytes {path : Bytes} (h : Argument.IsPlain path) :
    Argument.ofBytes path = .path := by
  rcases h with rfl | h
  · rfl
  · cases path with
    | nil => rfl
    | cons first rest => exact if_pos fun heq => h (congrArg some heq)

/-! ## What is left to be judged -/

/-- There are letters behind a hyphen that begins options. -/
theorem Argument.ne_nil_of_ofBytes {argument letters : Bytes}
    (h : Argument.ofBytes argument = .short letters) : letters ≠ [] := by
  rintro rfl
  rw [Argument.ofBytes.eq_def] at h
  grind

namespace Progress
variable {command : Command} {p q : Progress} {arg : Arg} {value : Bytes}

/-- A value is set if it is the first and can be read. -/
theorem setValue_eq_ok_iff : p.setValue arg value = .ok q ↔
    p.said.values arg.id = [] ∧ ∃ v, valueOf arg value = .ok v ∧
      q = { p with said := p.said.add arg.id v, pending := .none } := by
  rw [setValue]
  by_cases hfirst : p.said.values arg.id = []
  · rw [if_neg (not_not_intro hfirst)]
    cases hvalue : valueOf arg value with
    | error refusal =>
      refine iff_of_false (fun h => ?_) fun ⟨_, v, hv, _⟩ => ?_
      · cases h
      · cases hv
    | ok v =>
      refine ⟨fun h => ⟨hfirst, v, rfl, (Except.ok.inj h).symm⟩, ?_⟩
      rintro ⟨-, v', hv, rfl⟩
      cases hv
      rfl
  · rw [if_pos hfirst]
    refine iff_of_false (fun h => ?_) fun h => hfirst h.1
    cases h

section
variable (hpending : ∀ arg, p.pending ≠ .expected arg)
include hpending

/-- An argument that is not awaited as a value is read by its form. -/
theorem read_eq (argument : Bytes) : p.read command argument =
    if p.pathsOnly then p.addPath command argument
    else match Argument.ofBytes argument with
      | .separator => .ok { p with pathsOnly := true }
      | .long name value => p.readLong command name value
      | .short letters => p.readShort command letters
      | .path => p.addPath command argument := by
  rw [read]
  split
  · rename_i arg harg
    exact absurd harg (hpending arg)
  · rfl

/-- Where no value is awaited, what was said is judged at the end. -/
theorem finish_eq : p.finish command = (do
    let p ← p.settle command
    if p.said.isComplete command then .ok p.said else .error (.usage .missingRequired)) := by
  rw [finish]
  split
  · rename_i arg harg
    exact absurd harg (hpending arg)
  · rfl

end

theorem not_expected_of_judged (hpending : p.pending = .none) :
    ∀ arg, p.pending ≠ .expected arg := by
  rw [hpending]
  nofun

theorem settleValue_of_judged (hpending : p.pending = .none) : p.settleValue = .ok p := by
  rw [settleValue, hpending]

/-- A value is on its way that was an argument of its own, and it can be set. -/
def Holds (p q : Progress) : Prop :=
  ∃ arg value, p.pending = .unjudged arg value ∧ p.setValue arg value = .ok q

namespace Holds

theorem not_expected (h : p.Holds q) : ∀ arg, p.pending ≠ .expected arg := by
  obtain ⟨arg, value, hpending, -⟩ := h
  rw [hpending]
  nofun

theorem not_expected_after (h : p.Holds q) : ∀ arg, q.pending ≠ .expected arg := by
  obtain ⟨arg, value, -, hset⟩ := h
  obtain ⟨-, v, -, rfl⟩ := setValue_eq_ok_iff.mp hset
  nofun

theorem settleValue (h : p.Holds q) : p.settleValue = q.settleValue := by
  obtain ⟨arg, value, hpending, hset⟩ := h
  obtain ⟨-, v, -, rfl⟩ := setValue_eq_ok_iff.mp hset
  rw [Progress.settleValue, hpending]
  exact hset

theorem settle (h : p.Holds q) : p.settle command = q.settle command := by
  rw [Progress.settle, Progress.settle, h.settleValue]

theorem pathsOnly (h : p.Holds q) : p.pathsOnly = q.pathsOnly := by
  obtain ⟨arg, value, -, hset⟩ := h
  obtain ⟨-, v, -, rfl⟩ := setValue_eq_ok_iff.mp hset
  rfl

theorem close (h : p.Holds q) :
    { p with pathsOnly := true }.Holds { q with pathsOnly := true } := by
  obtain ⟨arg, value, hpending, hset⟩ := h
  obtain ⟨hfirst, v, hvalue, rfl⟩ := setValue_eq_ok_iff.mp hset
  exact ⟨arg, value, hpending, setValue_eq_ok_iff.mpr ⟨hfirst, v, hvalue, rfl⟩⟩

theorem addPath (h : p.Holds q) (path : Bytes) :
    p.addPath command path = q.addPath command path := by
  rw [Progress.addPath, Progress.addPath, h.settleValue]

theorem readShort (h : p.Holds q) {letters : Bytes} (hne : letters ≠ []) :
    p.readShort command letters = q.readShort command letters := by
  cases letters with
  | nil => exact absurd rfl hne
  | cons letter rest => simp only [Progress.readShort, h.settle]

theorem readLong (h : p.Holds q) (name : String) (value : Option String) :
    p.readLong command name value = q.readLong command name value := by
  simp only [Progress.readLong, Progress.answer, h.settle]

/-- The next argument is read as if the value had been set.  Only `--` does not have it set. -/
theorem read (h : p.Holds q) (argument : Bytes) :
    p.read command argument = q.read command argument ∨
      p.read command argument = .ok { p with pathsOnly := true } ∧
        q.read command argument = .ok { q with pathsOnly := true } := by
  rw [read_eq h.not_expected, read_eq h.not_expected_after, h.pathsOnly]
  by_cases hclosed : q.pathsOnly = true
  · rw [if_pos hclosed, if_pos hclosed]
    exact .inl (h.addPath argument)
  rw [if_neg hclosed, if_neg hclosed]
  cases hform : Argument.ofBytes argument with
  | separator => exact .inr ⟨rfl, rfl⟩
  | long name value => exact .inl (h.readLong name value)
  | short letters => exact .inl (h.readShort (Argument.ne_nil_of_ofBytes hform))
  | path => exact .inl (h.addPath argument)

/-- A value that can be set may as well be set at once. -/
theorem readAll (h : p.Holds q) (arguments : List Bytes) :
    p.readAll command arguments = q.readAll command arguments := by
  induction arguments generalizing p q with
  | nil => rw [Progress.readAll, Progress.readAll, finish_eq h.not_expected,
      finish_eq h.not_expected_after, h.settle]
  | cons argument rest ih =>
    rw [Progress.readAll, Progress.readAll]
    rcases h.read argument with hsame | ⟨hp, hq⟩
    · rw [hsame]
    · rw [hp, hq]
      exact ih h.close

end Holds

/-! ## Reading on -/

/-- Where nothing is left to be judged but the paths, judging changes nothing. -/
theorem settle_eq_ok_iff (hpending : p.pending = .none) : p.settle command = .ok q ↔
    p.said.NoEmptyPath command ∧ p = q := by
  cases hfind : command.positionals.find? fun arg => .path [] ∈ p.said.values arg.id with
  | none =>
    have hsettle : p.settle command = .ok p := by
      simp only [settle, settleValue_of_judged hpending, bind, Except.bind, hfind]
    rw [hsettle]
    have hnone := List.find?_eq_none.mp hfind
    simp only [decide_eq_true_eq] at hnone
    exact ⟨fun h => ⟨hnone, Except.ok.inj h⟩, fun h => congrArg Except.ok h.2⟩
  | some arg =>
    have hsettle : p.settle command = .error (.usage (.missingValue arg.usage)) := by
      simp only [settle, settleValue_of_judged hpending, bind, Except.bind, hfind]
    rw [hsettle]
    refine iff_of_false (fun h => ?_) fun h => ?_
    · cases h
    · have hempty := List.find?_some hfind
      exact h.1 arg (List.mem_of_find?_eq_some hfind) (decide_eq_true_iff.mp hempty)

theorem finish_of_judged (hpending : p.pending = .none) (h : p.said.NoEmptyPath command) :
    p.finish command =
      if p.said.isComplete command then .ok p.said else .error (.usage .missingRequired) := by
  rw [finish_eq (not_expected_of_judged hpending), (settle_eq_ok_iff hpending).mpr ⟨h, rfl⟩]
  rfl

theorem settle_said {m : ArgMatches} (h : m.NoEmptyPath command) :
    ({ said := m } : Progress).settle command = .ok { said := m } :=
  have hpending : ({ said := m } : Progress).pending = .none := rfl
  (settle_eq_ok_iff hpending).mpr ⟨h, rfl⟩

/-- What arguments say behind others that have said `m`. -/
def resume (command : Command) (m : ArgMatches) (arguments : List Bytes) :
    Except ArgumentError ArgMatches :=
  match (({ said := m } : Progress).settle command).bind (·.readAll command arguments) with
  | .ok said => .ok said
  | .error refusal => .error ⟨command, command.name, refusal⟩

theorem resume_eq_ok_iff {m said : ArgMatches} {arguments : List Bytes} :
    resume command m arguments = .ok said ↔
      m.NoEmptyPath command ∧ ({ said := m } : Progress).readAll command arguments = .ok said := by
  rw [resume]
  cases hsettle : ({ said := m } : Progress).settle command with
  | error refusal =>
    refine iff_of_false (fun h => by cases h) fun h => ?_
    have hjudged : ({ said := m } : Progress).settle command = .ok { said := m } :=
      settle_said h.1
    cases hsettle.symm.trans hjudged
  | ok q =>
    obtain ⟨hpaths, rfl⟩ := (settle_eq_ok_iff rfl).mp hsettle
    show (match ({ said := m } : Progress).readAll command arguments with
      | .ok said => Except.ok said
      | .error refusal => .error (ArgumentError.mk command command.name refusal)) = .ok said ↔ _
    cases ({ said := m } : Progress).readAll command arguments with
    | error refusal => exact iff_of_false (fun h => by cases h) fun h => by cases h.2
    | ok said' =>
      exact ⟨fun h => ⟨hpaths, congrArg Except.ok (Except.ok.inj h)⟩,
        fun h => congrArg Except.ok (Except.ok.inj h.2)⟩

end Progress

/-- The bytes of a text are read as the text. -/
theorem Utf8.text?_encode (s : String) : Utf8.text? (Utf8.encode s.toList) = some s := by
  rw [text?, decode_encode, if_pos rfl, String.ofList_toList]

namespace ArgMatches
variable {m : ArgMatches}

theorem values_subset_add (m : ArgMatches) (id : String) (value : Value) (other : String) :
    m.values other ⊆ (m.add id value).values other := by
  show m.values other ⊆ if other = id then m.values other ++ [value] else m.values other
  split
  · exact List.subset_append_left _ _
  · exact List.Subset.refl _

theorem values_subset_addPaths (m : ArgMatches) (id : String) (paths : List Bytes)
    (other : String) : m.values other ⊆ (m.addPaths id paths).values other := by
  induction paths generalizing m with
  | nil => exact List.Subset.refl _
  | cons path rest ih => exact List.Subset.trans (m.values_subset_add id _ other) (ih _)

theorem NoEmptyPath.of_subset {later : ArgMatches} {command : Command}
    (h : later.NoEmptyPath command) (hsub : ∀ id, m.values id ⊆ later.values id) :
    m.NoEmptyPath command :=
  fun arg harg hempty => h arg harg (hsub arg.id hempty)

end ArgMatches

namespace Progress
variable {m : ArgMatches} {p : Progress} {arg : Arg} {c : Char}

/-- The bytes of a text are a value that can be read. -/
theorem valueOf_encode (hvalues : arg.values = .text) (s : String) :
    valueOf arg (Utf8.encode s.toList) = .ok (.text s) := by
  simp only [valueOf, hvalues, Utf8.text?_encode]

theorem eq_patternArg (harg : arg ∈ command.args) (hshort : arg.short = some c)
    (hflag : arg.flag = false) : arg = patternArg ∧ c = 'E' := by
  simp only [command, List.mem_cons, List.not_mem_nil, or_false] at harg
  rcases harg with rfl | rfl | rfl
  · exact ⟨rfl, (Option.some.inj hshort).symm⟩
  · cases hflag
  · cases hshort

theorem eq_recursiveArg (harg : arg ∈ command.args) (hshort : arg.short = some c)
    (hflag : arg.flag = true) : arg = recursiveArg ∧ c = 'r' := by
  simp only [command, List.mem_cons, List.not_mem_nil, or_false] at harg
  rcases harg with rfl | rfl | rfl
  · cases hflag
  · exact ⟨rfl, (Option.some.inj hshort).symm⟩
  · cases hshort

/-- The option `-E` has the next argument awaited. -/
theorem read_patternArg (h : m.NoEmptyPath command) :
    ({ said := m } : Progress).read command (Utf8.encode ['-', 'E']) =
      .ok { said := m, pending := .expected patternArg } := by
  show ({ said := m } : Progress).readShort command (Utf8.encode ['E']) = _
  have hfind : command.options.find? (fun arg => arg.short.any fun c => Utf8.encode [c] = [0x45]) =
    some patternArg := rfl
  rw [show Utf8.encode ['E'] = [0x45] from rfl, readShort, hfind]
  show (({ said := m } : Progress).settle command >>= _) = _
  rw [settle_said h]
  rfl

/-- The flag `-r` is set. -/
theorem read_recursiveArg (h : m.NoEmptyPath command) (hfirst : m.flag recursiveArg.id = false) :
    ({ said := m } : Progress).read command (Utf8.encode ['-', 'r']) =
      .ok { said := m.set recursiveArg.id } := by
  show ({ said := m } : Progress).readShort command (Utf8.encode ['r']) = _
  have hfind : command.options.find? (fun arg => arg.short.any fun c => Utf8.encode [c] = [0x72]) =
    some recursiveArg := rfl
  rw [show Utf8.encode ['r'] = [0x72] from rfl, readShort, hfind]
  show (({ said := m } : Progress).settle command >>= _) = _
  rw [settle_said h]
  show (({ said := m } : Progress).setFlag recursiveArg >>= _) = _
  rw [setFlag, if_neg (Bool.eq_false_iff.mp hfirst)]
  rfl

/-- A path is added. -/
theorem addPath_of_judged (hpending : p.pending = .none) (harg : command.positionals = [arg])
    (path : Bytes) :
    p.addPath command path = .ok { p with said := p.said.add arg.id (.path path) } := by
  rw [addPath, harg]
  show (p.settleValue >>= _) = _
  rw [settleValue_of_judged hpending]
  rfl

/-- Behind `--` all arguments are added as paths. -/
theorem readAll_of_pathsOnly (hpending : p.pending = .none) (hclosed : p.pathsOnly = true)
    (harg : command.positionals = [arg]) (paths : List Bytes) :
    p.readAll command paths =
      { p with said := p.said.addPaths arg.id paths }.finish command := by
  induction paths generalizing p with
  | nil => rfl
  | cons path rest ih =>
    have hread : p.read command path = .ok { p with said := p.said.add arg.id (.path path) } := by
      rw [read_eq (not_expected_of_judged hpending), if_pos hclosed,
        addPath_of_judged hpending harg]
    rw [readAll, hread]
    exact ih hpending hclosed

/-- The parser that judges later reads on as the command of the program needs it. -/
theorem parser_obeys : parser.Obeys command (resume command) where
  begins program arguments said h := by
    show (match ({} : Progress).readAll command arguments with
      | .ok said => Except.ok said
      | .error refusal => .error _) = _
    rw [(resume_eq_ok_iff.mp h).2]
  option_takes_next := by
    intro s m said arguments arg c harg hshort hflag _ _ hfirst h
    obtain ⟨rfl, rfl⟩ := eq_patternArg harg hshort hflag
    obtain ⟨hlater, h⟩ := resume_eq_ok_iff.mp h
    have hpaths := hlater.of_subset (m.values_subset_add _ _)
    have hholds : Holds { said := m, pending := .unjudged patternArg (Utf8.encode s.toList) }
        { said := m.add patternArg.id (.text s) } :=
      ⟨_, _, rfl, setValue_eq_ok_iff.mpr ⟨hfirst, _, valueOf_encode rfl s, rfl⟩⟩
    refine resume_eq_ok_iff.mpr ⟨hpaths, ?_⟩
    rw [readAll, read_patternArg hpaths]
    exact (hholds.readAll arguments).trans h
  flag_is_set := by
    intro m said arguments arg c harg hshort hflag hfirst h
    obtain ⟨rfl, rfl⟩ := eq_recursiveArg harg hshort hflag
    obtain ⟨hlater, h⟩ := resume_eq_ok_iff.mp h
    have hpaths : m.NoEmptyPath command := hlater
    refine resume_eq_ok_iff.mpr ⟨hpaths, ?_⟩
    rw [readAll, read_recursiveArg hpaths hfirst]
    exact h
  plain_is_path := by
    intro m said arguments arg path harg _ _ hne hplain h
    obtain ⟨hlater, h⟩ := resume_eq_ok_iff.mp h
    refine resume_eq_ok_iff.mpr ⟨hlater.of_subset (m.values_subset_add _ _), ?_⟩
    rw [readAll, read_eq (not_expected_of_judged rfl), hplain.ofBytes]
    show (({ said := m } : Progress).addPath command path >>= _) = _
    rw [addPath_of_judged rfl harg]
    exact h
  behind_separator := by
    intro m said arg paths harg _ _ _ h
    obtain ⟨hlater, h⟩ := resume_eq_ok_iff.mp h
    refine resume_eq_ok_iff.mpr ⟨hlater.of_subset (m.values_subset_addPaths _ _), ?_⟩
    have hread : ({ said := m } : Progress).read command (Utf8.encode ['-', '-']) =
      .ok { said := m, pathsOnly := true } := rfl
    rw [readAll, hread]
    refine (readAll_of_pathsOnly rfl rfl harg paths).trans ?_
    rw [readAll, finish_of_judged rfl hlater] at h
    rw [finish_of_judged rfl hlater]
    exact h
  ends := by
    intro m hcomplete hpaths
    refine resume_eq_ok_iff.mpr ⟨hpaths, ?_⟩
    rw [readAll, finish_of_judged rfl hpaths]
    exact if_pos hcomplete

end Progress
end LineSearch
