import LineSearch.Files.Path

/-! # Paths below a path

The paths on a walk are written with `Path.join`, one name behind the other.  As long as no
name is empty or holds a slash, what comes of it is the path of the directory where the walk
begins, joined once with all the names and a slash between each two of them
(`Path.foldl_join`): only the beginning can end in a slash, so only there the slash that
`join` writes may be missing.  Followed name by name, a joined path is its first part, less
the empty name behind a slash at its end, and then its second (`Path.exists_names_join`).

Slashes at the end of a path make it longer without leading anywhere else, since all they add
to its names are empty ones (`Path.names_append_slashes`).
-/
namespace LineSearch.Path

/-- A name that can stand in a path. -/
def IsName (name : Bytes) : Prop := name ≠ [] ∧ slash ∉ name

instance (name : Bytes) : Decidable (IsName name) := inferInstanceAs (Decidable (_ ∧ _))

/-- A name that a directory can hold an entry under. -/
structure IsEntryName (name : Bytes) : Prop where
  isName : IsName name
  ne_dot : name ≠ dot
  ne_dots : name ≠ dots
  nul_not_mem : 0 ∉ name
  length_le : name.length ≤ nameLimit

instance (name : Bytes) : Decidable (IsEntryName name) :=
  decidable_of_iff (IsName name ∧ name ≠ dot ∧ name ≠ dots ∧ 0 ∉ name ∧ name.length ≤ nameLimit)
    ⟨fun ⟨h, hdot, hdots, hnul, hlength⟩ => ⟨h, hdot, hdots, hnul, hlength⟩,
      fun h => ⟨h.isName, h.ne_dot, h.ne_dots, h.nul_not_mem, h.length_le⟩⟩

/-- The path of what the names lead to from the directory `path`. -/
def under (path : Bytes) (names : List Bytes) : Bytes :=
  if names.isEmpty then path else join path ([slash].intercalate names)

theorem join_of_slash {path : Bytes} (h : path.getLast? = some slash) (name : Bytes) :
    join path name = path ++ name := by
  rw [join, h]
  exact if_pos rfl

theorem join_of_ne_slash {path : Bytes} {last : UInt8} (h : path.getLast? = some last)
    (hlast : last ≠ slash) (name : Bytes) : join path name = path ++ slash :: name := by
  rw [join, h]
  exact if_neg hlast

/-- A path is empty, ends in a slash or ends in another byte. -/
theorem join_cases (path : Bytes) : path = [] ∨ path.getLast? = some slash ∨
    ∃ last, path.getLast? = some last ∧ last ≠ slash := by
  cases hlast : path.getLast? with
  | none => exact .inl (List.getLast?_eq_none_iff.mp hlast)
  | some last =>
    by_cases hslash : last = slash
    · exact .inr (.inl (congrArg some hslash))
    · exact .inr (.inr ⟨last, rfl, hslash⟩)

theorem join_append (path first second : Bytes) :
    join path (first ++ second) = join path first ++ second := by
  rcases join_cases path with rfl | hslash | ⟨last, hlast, hne⟩
  · rfl
  · rw [join_of_slash hslash, join_of_slash hslash, List.append_assoc]
  · rw [join_of_ne_slash hlast hne, join_of_ne_slash hlast hne, List.append_assoc, List.cons_append]

/-- The path of an entry is longer than that of its directory. -/
theorem length_lt_join {name : Bytes} (hname : name ≠ []) (path : Bytes) :
    path.length < (join path name).length := by
  have hpos : 0 < name.length := List.length_pos_iff.mpr hname
  rcases join_cases path with rfl | hslash | ⟨last, hlast, hne⟩
  · exact hpos
  · rw [join_of_slash hslash, List.length_append]
    omega
  · rw [join_of_ne_slash hlast hne, List.length_append, List.length_cons]
    omega

/-- A joined path does not end in a slash. -/
theorem exists_getLast?_join {name : Bytes} (hname : IsName name) (path : Bytes) :
    ∃ last, (join path name).getLast? = some last ∧ last ≠ slash := by
  obtain ⟨hne, hslash⟩ := hname
  have happend : join path name = join path [] ++ name := by rw [← join_append, List.nil_append]
  refine ⟨name.getLast hne, ?_, fun h => hslash (h ▸ List.getLast_mem hne)⟩
  rw [happend, List.getLast?_append, List.getLast?_eq_some_getLast hne]
  rfl

/-- Behind a name a slash is written. -/
theorem join_join {name : Bytes} (hname : IsName name) (path rest : Bytes) :
    join (join path name) rest = join path name ++ slash :: rest := by
  obtain ⟨last, hlast, hne⟩ := exists_getLast?_join hname path
  exact join_of_ne_slash hlast hne rest

/-- Names joined one behind the other are joined all at once. -/
theorem foldl_join {names : List Bytes} (hnames : ∀ name ∈ names, IsName name) (path : Bytes) :
    names.foldl join path = under path names := by
  induction names generalizing path with
  | nil => rfl
  | cons name rest ih =>
    obtain ⟨hname, hrest⟩ := List.forall_mem_cons.mp hnames
    rw [List.foldl_cons, ih hrest]
    -- only the path in front may end in a slash, so behind the first name a slash is written
    cases rest with
    | nil =>
      show join path name = join path ([slash].intercalate [name])
      rw [List.intercalate_singleton]
    | cons next more =>
      show join (join path name) ([slash].intercalate (next :: more)) =
        join path ([slash].intercalate (name :: next :: more))
      rw [join_join hname, List.intercalate_cons_cons, List.append_assoc, join_append]
      rfl

/-! ## The names in a joined path -/

theorem names_ne_nil (path : Bytes) : names path ≠ [] := by
  cases path with
  | nil => exact List.cons_ne_nil _ _
  | cons b rest =>
    rw [names]
    split
    · exact List.cons_ne_nil _ _
    · split <;> exact List.cons_ne_nil _ _

/-- A slash separates the names before it from those behind. -/
theorem names_append (first rest : Bytes) :
    names (first ++ slash :: rest) = names first ++ names rest := by
  induction first with
  | nil =>
    show names (slash :: rest) = [] :: names rest
    rw [names, if_pos rfl]
  | cons b more ih =>
    rw [List.cons_append, names, names, ih]
    by_cases hb : b = slash
    · rw [if_pos hb, if_pos hb, List.cons_append]
    · rw [if_neg hb, if_neg hb]
      cases hmore : names more with
      | nil => exact absurd hmore (names_ne_nil more)
      | cons name others => rfl

theorem names_of_not_mem {name : Bytes} (h : slash ∉ name) : names name = [name] := by
  induction name with
  | nil => rfl
  | cons b more ih =>
    obtain ⟨hb, hmore⟩ := not_or.mp (mt List.mem_cons.mpr h)
    rw [names, if_neg (Ne.symm hb), ih hmore]

/-- A joined path has the names of its first part, apart from an empty one at the end, and then the
names of its second part. -/
theorem exists_names_join (path rest : Bytes) :
    ∃ front tail, (tail = [] ∨ tail = [[]]) ∧ names path = front ++ tail ∧
      names (join path rest) = front ++ names rest := by
  rcases join_cases path with rfl | hslash | ⟨last, hlast, hne⟩
  · exact ⟨[], [[]], .inr rfl, rfl, rfl⟩
  · -- the slash at the end of the path is the one between the names
    obtain ⟨front, rfl⟩ := List.getLast?_eq_some_iff.mp hslash
    refine ⟨names front, [[]], .inr rfl, names_append front [], ?_⟩
    rw [join_of_slash hslash, List.append_assoc, List.singleton_append, names_append]
  · refine ⟨names path, [], .inl rfl, (List.append_nil _).symm, ?_⟩
    rw [join_of_ne_slash hlast hne, names_append]

theorem names_intercalate {name : Bytes} {rest : List Bytes}
    (hnames : ∀ other ∈ name :: rest, IsName other) :
    names ([slash].intercalate (name :: rest)) = name :: rest := by
  induction rest generalizing name with
  | nil =>
    rw [List.intercalate_singleton, names_of_not_mem (hnames name List.mem_cons_self).2]
  | cons next more ih =>
    obtain ⟨hname, hrest⟩ := List.forall_mem_cons.mp hnames
    rw [List.intercalate_cons_cons, List.append_assoc, List.singleton_append, names_append,
      names_of_not_mem hname.2, ih hrest]
    rfl

/-- A joined path begins with its first part. -/
theorem exists_join_eq (path name : Bytes) : ∃ more, join path name = path ++ more := by
  rcases join_cases path with rfl | hslash | ⟨last, hlast, hne⟩
  · exact ⟨name, rfl⟩
  · exact ⟨name, join_of_slash hslash name⟩
  · exact ⟨slash :: name, join_of_ne_slash hlast hne name⟩

theorem isAbsolute_join {path : Bytes} (hpath : path ≠ []) (name : Bytes) :
    isAbsolute (join path name) = isAbsolute path := by
  obtain ⟨more, hmore⟩ := exists_join_eq path name
  obtain ⟨b, rest, rfl⟩ := List.exists_cons_of_ne_nil hpath
  rw [isAbsolute, isAbsolute, hmore]
  rfl

theorem mem_join {path name : Bytes} {b : UInt8} (h : b ∈ join path name) :
    b ∈ path ∨ b = slash ∨ b ∈ name := by
  rcases join_cases path with rfl | hslash | ⟨last, hlast, hne⟩
  · exact .inr (.inr h)
  · rw [join_of_slash hslash, List.mem_append] at h
    exact h.imp_right .inr
  · rwa [join_of_ne_slash hlast hne, List.mem_append, List.mem_cons] at h

theorem not_mem_foldl_join {b : UInt8} (hb : b ≠ slash) {names : List Bytes}
    (hnames : ∀ name ∈ names, b ∉ name) {path : Bytes} (hpath : b ∉ path) :
    b ∉ names.foldl join path := by
  induction names generalizing path with
  | nil => exact hpath
  | cons name rest ih =>
    obtain ⟨hname, hrest⟩ := List.forall_mem_cons.mp hnames
    exact ih hrest fun hmem => (mem_join hmem).elim hpath fun hmem => hmem.elim hb hname

/-! ## Slashes at the end -/

/-- Slashes behind a name add empty names. -/
theorem names_append_slashes {name : Bytes} (hname : IsName name) (n : Nat) :
    names (name ++ List.replicate n slash) = name :: List.replicate n [] := by
  have hnamed := names_of_not_mem hname.2
  have hslashes : ∀ n, names (List.replicate n slash) = List.replicate (n + 1) [] := by
    intro n
    induction n with
    | zero => rfl
    | succ n ih => rw [List.replicate_succ, names, if_pos rfl, ih, ← List.replicate_succ]
  cases n with
  | zero => rw [List.replicate_zero, List.append_nil, hnamed, List.replicate_zero]
  | succ n => rw [List.replicate_succ, names_append, hnamed, hslashes, List.singleton_append]

end LineSearch.Path
