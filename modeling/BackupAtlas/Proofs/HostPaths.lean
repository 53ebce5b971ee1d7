import BackupAtlas.FilePath

namespace BackupAtlas.FilePath

theorem split_of_free {separator : Char} {text : List Char} (free : separator ∉ text) :
    split separator text = [text] := by
  induction text with
  | nil => rfl
  | cons c rest ih =>
    rw [List.mem_cons, not_or] at free
    rw [split, if_neg (Ne.symm free.1), ih free.2]

/-- What is added behind a text without a separator belongs to the last part. -/
theorem split_last (separator : Char) (text : List Char) : ∃ parts last, split separator text = parts ++ [last] ∧
    (last = [] → text = [] ∨ text.getLast? = some separator) ∧
    ∀ tail, separator ∉ tail → split separator (text ++ tail) = parts ++ [last ++ tail] := by
  induction text with
  | nil => exact ⟨[], [], rfl, fun _ => .inl rfl, fun tail free => split_of_free free⟩
  | cons c rest ih =>
    obtain ⟨parts, last, same, ended, added⟩ := ih
    by_cases cut : c = separator
    · refine ⟨[] :: parts, last, by rw [split, if_pos cut, same]; rfl, fun empty => .inr ?_, fun tail free => ?_⟩
      · rcases ended empty with rfl | ends
        · rw [List.getLast?_singleton, cut]
        · rw [List.getLast?_cons, ends, Option.getD_some]
      · rw [List.cons_append, split, if_pos cut, added tail free]
        rfl
    · match parts, same, added with
      | [], same, added =>
        refine ⟨[], c :: last, by rw [split, if_neg cut, same]; rfl, nofun, fun tail free => ?_⟩
        rw [List.cons_append, split, if_neg cut, added tail free]
        rfl
      | part :: parts, same, added =>
        refine ⟨(c :: part) :: parts, last, by rw [split, if_neg cut, same]; rfl, fun empty => .inr ?_,
          fun tail free => ?_⟩
        · rcases ended empty with rfl | ends
          · cases parts <;> cases same
          · rw [List.getLast?_cons, ends, Option.getD_some]
        · rw [List.cons_append, split, if_neg cut, added tail free]
          rfl

/-- What is added to a path without a slash belongs to its last name. -/
theorem names_append {path name : String} {tail : String} (last : (names path).getLast? = some name)
    (unslashed : isSlashed path = false) (nonempty : path ≠ "") (free : '/' ∉ tail.toList) :
    names (path ++ tail) = (names path).dropLast ++ [name ++ tail] := by
  obtain ⟨parts, part, same, ended, added⟩ := split_last '/' path.toList
  have filled : part ≠ [] := by
    intro empty
    rcases ended empty with none | slash
    · exact nonempty (String.toList_eq_nil_iff.mp none)
    · simp only [isSlashed, slash, decide_true, Bool.true_eq_false] at unslashed
  have joined {last : List Char} (filled : last ≠ []) :
      ((parts ++ [last]).filter (· ≠ [])).map String.ofList =
        (parts.filter (· ≠ [])).map String.ofList ++ [String.ofList last] := by
    simp [filled]
  have here : names path = (parts.filter (· ≠ [])).map String.ofList ++ [String.ofList part] := by
    rw [names, same]
    exact joined filled
  have there : names (path ++ tail) =
      (parts.filter (· ≠ [])).map String.ofList ++ [String.ofList (part ++ tail.toList)] := by
    rw [names, String.toList_append, added _ free]
    exact joined (List.append_ne_nil_of_left_ne_nil filled _)
  rw [here, List.getLast?_concat, Option.some.injEq] at last
  rw [here, there, List.dropLast_concat, String.ofList_append, String.ofList_toList, last]

theorem isSlashed_append {path tail : String} (nonempty : tail.toList ≠ []) (free : '/' ∉ tail.toList) :
    isSlashed (path ++ tail) = false := by
  rw [isSlashed, String.toList_append, List.getLast?_append]
  cases last : tail.toList.getLast? with
  | none => exact absurd (List.getLast?_eq_none_iff.mp last) nonempty
  | some c =>
    have member := List.mem_of_getLast? last
    exact decide_eq_false fun slash => free (Option.some.inj slash ▸ member)

theorem split_ne_nil (separator : Char) (text : List Char) : split separator text ≠ [] := by
  obtain ⟨parts, last, same, _⟩ := split_last separator text
  rw [same]
  exact List.append_ne_nil_of_right_ne_nil _ (List.cons_ne_nil _ _)

/-- A text is split at a separator into what is before and behind it. -/
theorem split_append (separator : Char) (text rest : List Char) :
    split separator (text ++ separator :: rest) = split separator text ++ split separator rest := by
  induction text with
  | nil =>
    rw [List.nil_append, split, split, if_pos rfl]
    rfl
  | cons c text ih =>
    rw [List.cons_append, split, split, ih]
    split
    · rfl
    · obtain ⟨part, parts, same⟩ := List.exists_cons_of_ne_nil (split_ne_nil separator text)
      rw [same, List.cons_append]
      rfl

theorem not_mem_of_mem_split {separator : Char} {text part : List Char} (member : part ∈ split separator text) :
    separator ∉ part := by
  induction text generalizing part with
  | nil =>
    rw [List.mem_singleton.mp member]
    exact List.not_mem_nil
  | cons c text ih =>
    rw [split] at member
    split at member
    · rcases List.mem_cons.mp member with rfl | member
      · exact List.not_mem_nil
      · exact ih member
    · rename_i differs
      obtain ⟨first, parts, same⟩ := List.exists_cons_of_ne_nil (split_ne_nil separator text)
      rw [same] at member ih
      rcases List.mem_cons.mp member with rfl | member
      · rw [List.mem_cons, not_or]
        exact ⟨Ne.symm differs, ih List.mem_cons_self⟩
      · exact ih (List.mem_cons_of_mem _ member)

/-- The name of a file or directory, not of where it is. -/
structure IsName (name : String) : Prop where
  nonempty : name ≠ ""
  slashless : '/' ∉ name.toList
  ne_here : name ≠ "."

/-- The components of a path are names. -/
theorem isName_of_mem_components {path name : String} (member : name ∈ components path) : IsName name := by
  obtain ⟨named, other⟩ := List.mem_filter.mp member
  obtain ⟨part, kept, rfl⟩ := List.mem_map.mp named
  obtain ⟨cut, filled⟩ := List.mem_filter.mp kept
  refine ⟨fun empty => ?_, ?_, of_decide_eq_true other⟩
  · rw [String.ofList_eq_empty_iff] at empty
    exact of_decide_eq_true filled empty
  · rw [String.toList_ofList]
    exact not_mem_of_mem_split cut

/-- The components of two paths are those of both joined by a slash. -/
theorem components_append (path rest : String) : components (path ++ "/" ++ rest) = components path ++ components rest := by
  have joined : (path ++ "/" ++ rest).toList = path.toList ++ '/' :: rest.toList := by
    rw [String.toList_append, String.toList_append, List.append_assoc]
    rfl
  rw [components, names, joined, split_append, List.filter_append, List.map_append, List.filter_append]
  rfl

theorem components_intercalate {list : List String} (proper : ∀ name ∈ list, IsName name) :
    components (String.intercalate "/" list) = list := by
  have single {name : String} (proper : IsName name) : components name = [name] := by
    have filled : name.toList ≠ [] := mt String.toList_eq_nil_iff.mp proper.nonempty
    simp [components, names, split_of_free proper.slashless, filled, proper.ne_here]
  induction list with
  | nil => rfl
  | cons name list ih =>
    have first := single (proper name List.mem_cons_self)
    cases list with
    | nil => rw [String.intercalate_singleton, first]
    | cons next list =>
      rw [String.intercalate_cons_cons, components_append, first, ih fun name member => proper name (.tail _ member)]
      rfl

/-- Names that lead down, one after the other. -/
def Downward (names : List String) : Prop := ∀ name ∈ names, IsName name ∧ name ≠ ".."

/-- The names that a path leads down by from the root. -/
def reached (path : String) : List String := (components path).foldl step []

/-- The path that leads down from the root by names. -/
def down (names : List String) : String := "/" ++ String.intercalate "/" names

theorem reached_downward (path : String) : Downward (reached path) := by
  have kept : ∀ names, Downward names → ∀ next ∈ components path, Downward (step names next) := by
    intro names downward next there name member
    rw [step] at member
    split at member
    · exact downward name ((List.dropLast_prefix names).subset member)
    · rename_i goesDown
      rcases List.mem_append.mp member with above | last
      · exact downward name above
      · rw [List.mem_singleton.mp last]
        exact ⟨isName_of_mem_components there, goesDown⟩
  have start : Downward [] := fun _ => nofun
  exact List.foldlRecOn (components path) step start kept

/-- Names lead down, whatever is above them. -/
theorem foldl_step {names : List String} (downward : Downward names) (start : List String) :
    names.foldl step start = start ++ names := by
  induction names generalizing start with
  | nil => rw [List.foldl_nil, List.append_nil]
  | cons name names ih =>
    have first := (downward name List.mem_cons_self).2
    rw [List.foldl_cons, step, if_neg first, ih fun name member => downward name (.tail _ member), List.append_assoc]
    rfl

theorem reached_append (path rest : String) :
    reached (path ++ "/" ++ rest) = (components rest).foldl step (reached path) := by
  rw [reached, components_append, List.foldl_append]
  rfl

/-- A path that goes down has the names it goes down by. -/
theorem components_down {names : List String} (downward : Downward names) : components (down names) = names := by
  have joined := components_append "" (String.intercalate "/" names)
  rw [components_intercalate fun name member => (downward name member).1] at joined
  exact joined

theorem reached_down {names : List String} (downward : Downward names) : reached (down names) = names := by
  rw [reached, components_down downward, foldl_step downward, List.nil_append]

theorem isAbsolute_append {path : String} (absolute : isAbsolute path) (rest : String) : isAbsolute (path ++ rest) := by
  rw [isAbsolute, decide_eq_true_eq] at absolute ⊢
  rw [String.toList_append, List.head?_append, absolute]
  rfl

/-- What is joined to an absolute path is absolute. -/
theorem isAbsolute_join {dir : String} (absolute : isAbsolute dir) (name : String) : isAbsolute (join dir name) := by
  rw [join]
  split
  · assumption
  · split
    · exact isAbsolute_append absolute name
    · exact isAbsolute_append (isAbsolute_append absolute "/") name

theorem isAbsolute_down (names : List String) : isAbsolute (down names) := isAbsolute_append rfl _

/-- An absolute path without components that are empty, `.` or `..`. -/
def IsPlain (path : String) : Prop :=
  isAbsolute path ∧ (path ≠ "/" → ∀ part ∈ split '/' (path.toList.drop 1), part ∉ [[], ['.'], ['.', '.']])

theorem split_intercalate {names : List String} (slashless : ∀ name ∈ names, '/' ∉ name.toList) (some : names ≠ []) :
    split '/' (String.intercalate "/" names).toList = names.map String.toList := by
  induction names with
  | nil => exact absurd rfl some
  | cons name names ih =>
    have first := split_of_free (slashless name List.mem_cons_self)
    cases names with
    | nil =>
      rw [String.intercalate_singleton, first]
      rfl
    | cons next names =>
      have joined : (name ++ "/" ++ String.intercalate "/" (next :: names)).toList =
          name.toList ++ '/' :: (String.intercalate "/" (next :: names)).toList := by
        rw [String.toList_append, String.toList_append, List.append_assoc]
        rfl
      rw [String.intercalate_cons_cons, joined, split_append, first,
        ih (fun name member => slashless name (.tail _ member)) (List.cons_ne_nil _ _)]
      rfl

/-- A path that goes down from the root is plain. -/
theorem isPlain_down {names : List String} (downward : Downward names) : IsPlain (down names) := by
  refine ⟨isAbsolute_down names, fun below part member => ?_⟩
  have some : names ≠ [] := by
    rintro rfl
    exact below rfl
  have rest : (down names).toList.drop 1 = (String.intercalate "/" names).toList := by
    rw [down, String.toList_append]
    rfl
  rw [rest, split_intercalate (fun name member => (downward name member).1.slashless) some] at member
  obtain ⟨name, there, rfl⟩ := List.mem_map.mp member
  obtain ⟨named, goesDown⟩ := downward name there
  rw [List.mem_cons, List.mem_cons, List.mem_singleton]
  rintro (empty | here | up)
  · exact named.nonempty (String.toList_eq_nil_iff.mp empty)
  · exact named.ne_here (String.toList_inj.mp here)
  · exact goesDown (String.toList_inj.mp up)

section tidy

variable {path : String} (absolute : isAbsolute path)

include absolute

/-- A tidied path goes down to where the path leads. -/
theorem tidy_eq : tidy path = down (reached path) := by
  rw [tidy, if_pos absolute]
  rfl

theorem isPlain_tidy : IsPlain (tidy path) := tidy_eq absolute ▸ isPlain_down (reached_downward path)

/-- To tidy a path again changes nothing. -/
theorem tidy_tidy : tidy (tidy path) = tidy path := by
  rw [tidy_eq absolute, tidy_eq (isAbsolute_down _), reached_down (reached_downward path)]

/-- Going up from the root leads to the root. -/
theorem tidy_up (top : tidy path = "/") (rest : String) : tidy (path ++ "/../" ++ rest) = tidy ("/" ++ rest) := by
  have nowhere : reached path = [] := by
    rw [tidy_eq absolute] at top
    rw [← reached_down (reached_downward path), top]
    rfl
  have above : reached (path ++ "/../" ++ rest) = reached ("/" ++ rest) := by
    have further : path ++ "/../" ++ rest = path ++ "/" ++ ".." ++ "/" ++ rest := by simp only [String.append_assoc]; rfl
    rw [further, reached_append, reached_append, nowhere]
    exact (reached_append "" rest).symm
  rw [tidy_eq (isAbsolute_append (isAbsolute_append absolute _) rest), above, tidy_eq (isAbsolute_append rfl rest)]

end tidy

variable {host : Host} {path : String}

theorem absolute_of_isAbsolute (absolute : isAbsolute path) : host.absolute path = path := by
  rw [Host.absolute]
  cases host.workDir with
  | none => rfl
  | some dir => exact if_pos absolute

/-- Every path reads as an absolute one in an absolute directory. -/
theorem isAbsolute_absolute {dir : String} (here : host.workDir = some dir) (rooted : isAbsolute dir) (path : String) :
    isAbsolute (host.absolute path) := by
  rw [Host.absolute, here]
  exact isAbsolute_join rooted path

/-- A path that leads to nothing is resolved by its text alone. -/
theorem resolve_of_absent (absent : host.real? (host.absolute path) = none) :
    resolve path host = tidy (host.absolute path) := by
  rw [resolve, absent]
  rfl

end BackupAtlas.FilePath
