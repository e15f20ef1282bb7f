import LineSearch.Proofs.Command.Obedience

/-! # Command lines that say a configuration

Every configuration can be said on a command line, the options and the paths in any order
(`Interleaved`), or behind `--` if paths look like options.  The one that is read back is the
same, but that a recursive search has the current directory for its path if it has no other.

This holds of every parser that obeys the definition of the command
(`ArgumentParser.Obeys`).  `ArgMatches.Says` is what was said of a configuration; each argument
adds to it, and so does an interleaving as a whole (`Interleaved.read`).
-/
namespace LineSearch

/-! ## What was said -/

/-- This much was said of a configuration. -/
structure ArgMatches.Says (m : ArgMatches) (pattern : Option String) (recursive : Bool)
    (paths : List Bytes) : Prop where
  /-- The pattern, if it was. -/
  pattern : m.values patternArg.id = pattern.toList.map .text
  /-- Whether `-r` was. -/
  recursive : m.flag recursiveArg.id = recursive
  /-- The paths, in order. -/
  paths : m.values pathsArg.id = paths.map .path

/-- A value stands behind those before it. -/
theorem ArgMatches.values_add (m : ArgMatches) (id : String) (value : Value) :
    (m.add id value).values id = m.values id ++ [value] := if_pos rfl

namespace ArgMatches.Says
variable {m : ArgMatches} {pattern : Option String} {recursive : Bool} {paths : List Bytes}

theorem nothing : ({} : ArgMatches).Says none false [] := ⟨rfl, rfl, rfl⟩

theorem add_pattern (h : m.Says none recursive paths) (s : String) :
    (m.add patternArg.id (.text s)).Says (some s) recursive paths where
  pattern := by
    rw [values_add, h.pattern]
    rfl
  recursive := h.recursive
  paths := h.paths

theorem set_recursive (h : m.Says pattern false paths) :
    (m.set recursiveArg.id).Says pattern true paths :=
  ⟨h.pattern, rfl, h.paths⟩

theorem add_path (h : m.Says pattern recursive paths) (path : Bytes) :
    (m.add pathsArg.id (.path path)).Says pattern recursive (paths ++ [path]) where
  pattern := h.pattern
  recursive := h.recursive
  paths := by
    rw [values_add, h.paths, List.map_append]
    rfl

theorem add_paths (h : m.Says pattern recursive paths) (more : List Bytes) :
    (m.addPaths pathsArg.id more).Says pattern recursive (paths ++ more) := by
  induction more generalizing m paths with
  | nil => rwa [List.append_nil]
  | cons path rest ih =>
    have hrest := ih (h.add_path path)
    rwa [List.append_assoc] at hrest

theorem noEmptyPath (h : m.Says pattern recursive paths) (hpaths : [] ∉ paths) :
    m.NoEmptyPath command := by
  refine List.forall_mem_singleton.mpr fun hempty => ?_
  rw [h.paths] at hempty
  obtain ⟨path, hpath, heq⟩ := List.mem_map.mp hempty
  exact hpaths (Value.path.inj heq ▸ hpath)

/-- Only the pattern must be given. -/
theorem isComplete {s : String} (h : m.Says (some s) recursive paths) :
    m.isComplete command = true := by
  have hpattern : m.contains patternArg = true := by
    rw [contains, h.pattern]
    rfl
  simp [ArgMatches.isComplete, command, hpattern, recursiveArg, pathsArg]

/-- What was said is the configuration. -/
theorem ofMatches {ε : Type} (parser : ArgumentParser ε) {s : String}
    (h : m.Says (some s) recursive paths) : Configuration.ofMatches parser m =
      .ok ⟨s, recursive, if recursive = true ∧ paths = [] then [Path.dot] else paths⟩ := by
  have hone : m.getOne "pattern" = some s := by
    rw [getOne, show m.values "pattern" = _ from h.pattern]
    rfl
  have hmany : (m.getMany "paths").getD [] = paths := by
    rw [getMany, show m.values "paths" = _ from h.paths]
    cases paths with
    | nil => rfl
    | cons path rest =>
      show ((path :: rest).map Value.path).filterMap Value.path? = _
      rw [List.filterMap_map]
      exact List.filterMap_some
  rw [Configuration.ofMatches, hone]
  show Except.ok (Configuration.mk s (m.flag "recursive")
    (if m.flag "recursive" && ((m.getMany "paths").getD []).isEmpty then _ else _)) = _
  rw [hmany, show m.flag "recursive" = _ from h.recursive]
  simp only [Bool.and_eq_true, List.isEmpty_iff]

end ArgMatches.Says

/-! ## One among the other -/

/-- Arguments that are `-E` and its pattern, if there is one, `-r`, if the search is recursive, and
paths in order, one among the other. -/
inductive Interleaved : Option String → Bool → List Bytes → List Bytes → Prop
  | nil : Interleaved none false [] []
  | pattern (s : String) {recursive : Bool} {paths arguments : List Bytes}
      (h : Interleaved none recursive paths arguments) :
      Interleaved (some s) recursive paths
        (Utf8.encode ['-', 'E'] :: Utf8.encode s.toList :: arguments)
  | recursive {pattern : Option String} {paths arguments : List Bytes}
      (h : Interleaved pattern false paths arguments) :
      Interleaved pattern true paths (Utf8.encode ['-', 'r'] :: arguments)
  | path (path : Bytes) {pattern : Option String} {recursive : Bool} {paths arguments : List Bytes}
      (h : Interleaved pattern recursive paths arguments) :
      Interleaved pattern recursive (path :: paths) (path :: arguments)

/-- An interleaving is read to its end, and what it says is added to what was said before. -/
theorem Interleaved.read {pattern : Option String} {recursive : Bool} {paths arguments : List Bytes}
    (h : Interleaved pattern recursive paths arguments) {ε : Type} {parser : ArgumentParser ε}
    {read : ArgMatches → List Bytes → Except ε ArgMatches} (hparser : parser.Obeys command read)
    (hpaths : ∀ path ∈ paths, path ≠ [] ∧ Argument.IsPlain path) {m : ArgMatches}
    {pattern' : Option String} {recursive' : Bool} {before : List Bytes}
    (hm : m.Says pattern' recursive' before) (hpattern : pattern' = none ∨ pattern = none)
    (hrecursive : recursive' = false ∨ recursive = false) :
    ∃ later, later.Says (pattern'.or pattern) (recursive' || recursive) (before ++ paths) ∧
      ∀ rest said, read later rest = .ok said → read m (arguments ++ rest) = .ok said := by
  induction h generalizing m pattern' recursive' before with
  | nil =>
    rw [Option.or_none, Bool.or_false, List.append_nil]
    exact ⟨m, hm, fun _ _ => id⟩
  | pattern s h ih =>
    obtain rfl : pattern' = none := hpattern.resolve_right (Option.some_ne_none s)
    obtain ⟨later, hlater, hread⟩ := ih hpaths (hm.add_pattern s) (.inr rfl) hrecursive
    exact ⟨later, hlater, fun rest said hmore => hparser.option_takes_next s List.mem_cons_self
      rfl rfl rfl rfl hm.pattern (hread rest said hmore)⟩
  | recursive h ih =>
    obtain rfl : recursive' = false := hrecursive.resolve_right Bool.false_ne_true.symm
    obtain ⟨later, hlater, hread⟩ := ih hpaths hm.set_recursive hpattern (.inr rfl)
    exact ⟨later, hlater, fun rest said hmore => hparser.flag_is_set
      (List.mem_cons_of_mem _ List.mem_cons_self) rfl rfl hm.recursive (hread rest said hmore)⟩
  | path path h ih =>
    obtain ⟨⟨hne, hplain⟩, hrest⟩ := List.forall_mem_cons.mp hpaths
    obtain ⟨later, hlater, hread⟩ := ih hrest (hm.add_path path) hpattern hrecursive
    rw [List.append_assoc] at hlater
    exact ⟨later, hlater, fun rest said hmore =>
      hparser.plain_is_path rfl rfl rfl hne hplain (hread rest said hmore)⟩

namespace Configuration

/-- An accepted command line is a recursive search only if there are paths. -/
theorem paths_ne_nil_of_ofCommandLine {ε : Type} {parser : ArgumentParser ε} {line : List Bytes}
    {c : Configuration} (h : ofCommandLine parser line = .ok c) (hrecursive : c.recursive = true) :
    c.paths ≠ [] := by
  rw [ofCommandLine] at h
  cases hparse : parser.parse command line with
  | error error =>
    rw [hparse] at h
    cases h
  | ok said =>
    rw [hparse] at h
    replace h : ofMatches parser said = .ok c := h
    rw [ofMatches] at h
    split at h
    · cases h
    · obtain rfl := Except.ok.inj h
      show (if said.flag "recursive" && _ then _ else _) ≠ []
      rw [show said.flag "recursive" = true from hrecursive, Bool.true_and]
      split
      · exact List.cons_ne_nil _ _
      · rename_i hne
        exact fun hnil => hne (List.isEmpty_iff.mpr hnil)

/-- **What a command line says is read back exactly, in any order.**  Whatever the pattern looks
like, behind `-E`, `-r` if the search is recursive, and `--`, all paths that are not empty are read
as they are.  Paths that do not look like options may also stand before, between and behind `-E`
with its pattern and `-r`, without `--`.  A recursive search that is given no path has the current
directory for its path, so however a recursive search was said, it has a path. -/
theorem ofCommandLine_reads_back {ε : Type} {parser : ArgumentParser ε}
    {read : ArgMatches → List Bytes → Except ε ArgMatches} (hparser : parser.Obeys command read)
    (program : Bytes) (s : String) (recursive : Bool) {paths : List Bytes} (hpaths : [] ∉ paths) :
    let said : Configuration :=
      ⟨s, recursive, if recursive = true ∧ paths = [] then [Path.dot] else paths⟩
    ofCommandLine parser (program :: Utf8.encode ['-', 'E'] :: Utf8.encode s.toList ::
        ((if recursive then [Utf8.encode ['-', 'r']] else []) ++ Utf8.encode ['-', '-'] :: paths)) =
        .ok said ∧
      ((∀ path ∈ paths, Argument.IsPlain path) →
        ∀ arguments, Interleaved (some s) recursive paths arguments →
          ofCommandLine parser (program :: arguments) = .ok said) ∧
      ∀ line c, ofCommandLine parser line = .ok c → c.recursive = true → c.paths ≠ [] := by
  intro said
  -- a line that is read to the end is understood
  have hunderstood : ∀ {m : ArgMatches} {arguments : List Bytes},
      m.Says (some s) recursive paths → read {} arguments = .ok m →
      ofCommandLine parser (program :: arguments) = .ok said := by
    intro m arguments hm hread
    rw [ofCommandLine, hparser.begins program hread]
    exact hm.ofMatches parser
  refine ⟨?_, fun hplain arguments harguments => ?_, fun _ _ => paths_ne_nil_of_ofCommandLine⟩
  · have hoptions : Interleaved (some s) recursive []
        (Utf8.encode ['-', 'E'] :: Utf8.encode s.toList ::
          if recursive then [Utf8.encode ['-', 'r']] else []) := by
      cases recursive with
      | false => exact .pattern s .nil
      | true => exact .pattern s (.recursive .nil)
    obtain ⟨m, hm, hread⟩ :=
      hoptions.read hparser nofun ArgMatches.Says.nothing (.inl rfl) (.inl rfl)
    have hall := hm.add_paths paths
    exact hunderstood hall (hread _ _ (hparser.behind_separator rfl rfl rfl hpaths
      (hparser.ends hall.isComplete (hall.noEmptyPath hpaths))))
  · obtain ⟨m, hm, hread⟩ := harguments.read hparser
      (fun path hpath => ⟨fun hempty => hpaths (hempty ▸ hpath), hplain path hpath⟩)
      ArgMatches.Says.nothing (.inl rfl) (.inl rfl)
    have hall := hread [] m (hparser.ends hm.isComplete (hm.noEmptyPath hpaths))
    rw [List.append_nil] at hall
    exact hunderstood hm hall

/-- A pattern that looks like `--`, and paths that look like options behind the real `--`.  Paths
that do not are read before the options too, and with a pattern that looks like a path between
them. -/
theorem ofCommandLine_reads_back_hyphens :
    let bytes (text : String) : Bytes := Utf8.encode text.toList
    ofCommandLine Progress.parser (["grep", "-E", "--", "-r", "--", "-h", "--"].map bytes) =
        .ok ⟨"--", true, [bytes "-h", bytes "--"]⟩ ∧
      ofCommandLine Progress.parser (["grep", "-", "-r", "a", "-E", "b", "c"].map bytes) =
        .ok ⟨"b", true, [bytes "-", bytes "a", bytes "c"]⟩ ∧
      (⟨"b", true, [bytes "-", bytes "a", bytes "c"]⟩ : Configuration).paths ≠ [] := by
  intro bytes
  have hhyphens : [] ∉ [bytes "-h", bytes "--"] := by decide
  have hplain : [] ∉ [bytes "-", bytes "a", bytes "c"] := by decide
  obtain ⟨hbehind, -, -⟩ :=
    ofCommandLine_reads_back Progress.parser_obeys (bytes "grep") "--" true hhyphens
  obtain ⟨-, hamong, hpaths⟩ :=
    ofCommandLine_reads_back Progress.parser_obeys (bytes "grep") "b" true hplain
  have hinterleaved : Interleaved (some "b") true [bytes "-", bytes "a", bytes "c"]
      (["-", "-r", "a", "-E", "b", "c"].map bytes) :=
    .path _ (.recursive (.path _ (.pattern _ (.path _ .nil))))
  have hread := hamong (by decide) _ hinterleaved
  exact ⟨hbehind, hread, hpaths _ _ hread rfl⟩

end Configuration
end LineSearch
