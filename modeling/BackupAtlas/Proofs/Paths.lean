import BackupAtlas.TreePath

namespace BackupAtlas.TreePath

/-- The segment of a directory. -/
def IsStep (name : List Char) : Prop := ∃ stem, '/' ∉ stem ∧ name = stem ++ ['/']

theorem IsStep.getLast? {name : List Char} (step : IsStep name) : name.getLast? = some '/' := by
  obtain ⟨stem, _, rfl⟩ := step
  simp

theorem IsStep.isDir {name : String} (step : IsStep name.toList) : isDir name := by
  simp [TreePath.isDir, step.getLast?]

/-- Two steps in front of something are the same if what they start is the same. -/
theorem IsStep.append_inj {a b x y : List Char} (ha : IsStep a) (hb : IsStep b) (same : a ++ x = b ++ y) :
    a = b ∧ x = y := by
  obtain ⟨s, plainS, rfl⟩ := ha
  obtain ⟨t, plainT, rfl⟩ := hb
  induction s generalizing t with
  | nil =>
    cases t with
    | nil => simpa using same
    | cons c t => simp at same plainT; exact absurd same.1 plainT.1
  | cons c s ih =>
    cases t with
    | nil => simp at same plainS; exact absurd same.1.symm plainS.1
    | cons d t =>
      simp only [List.cons_append, List.cons.injEq] at same
      obtain ⟨rfl, same⟩ := same
      simp only [List.mem_cons, not_or] at plainS plainT
      obtain ⟨equal, rest⟩ := ih plainS.2 t plainT.2 same
      exact ⟨by rw [List.cons_append, equal, List.cons_append], rest⟩

/-- A step in front of something differs from all that has no slash. -/
theorem IsStep.append_ne {name x plain : List Char} (step : IsStep name) (noSlash : '/' ∉ plain) :
    name ++ x ≠ plain := by
  obtain ⟨stem, _, rfl⟩ := step
  rintro rfl
  simp at noSlash

/-- What has no slash and starts a path that starts with a step is the start of that step. -/
theorem IsStep.starts {name rest plain : List Char} (step : IsStep name) (noSlash : '/' ∉ plain)
    (held : plain <+: name ++ rest) : plain <+: name ∧ plain.length < name.length := by
  obtain ⟨stem, _, rfl⟩ := step
  rcases List.prefix_or_prefix_of_prefix held (List.prefix_append _ rest) with shorter | longer
  · refine ⟨shorter, Nat.lt_of_le_of_ne shorter.length_le fun same => noSlash ?_⟩
    rw [shorter.eq_of_length same]
    simp
  · exact absurd (longer.subset (by simp)) noSlash

theorem flatten_append_inj {steps others : List (List Char)} {plain rest : List Char}
    (areSteps : ∀ name ∈ steps, IsStep name) (also : ∀ name ∈ others, IsStep name)
    (noSlash : '/' ∉ plain) (noSlash' : '/' ∉ rest) (same : steps.flatten ++ plain = others.flatten ++ rest) :
    steps = others ∧ plain = rest := by
  induction steps generalizing others with
  | nil =>
    cases others with
    | nil => exact ⟨rfl, by simpa using same⟩
    | cons name others =>
      have step := also name List.mem_cons_self
      rw [List.flatten_nil, List.nil_append, List.flatten_cons, List.append_assoc] at same
      exact absurd same.symm (step.append_ne noSlash)
  | cons name steps ih =>
    have step := areSteps name List.mem_cons_self
    cases others with
    | nil =>
      rw [List.flatten_nil, List.nil_append, List.flatten_cons, List.append_assoc] at same
      exact absurd same (step.append_ne noSlash')
    | cons other others =>
      simp only [List.flatten_cons, List.append_assoc] at same
      obtain ⟨rfl, tail⟩ := step.append_inj (also other List.mem_cons_self) same
      obtain ⟨rfl, equal⟩ := ih (fun name member => areSteps name (List.mem_cons_of_mem _ member))
        (fun name member => also name (List.mem_cons_of_mem _ member)) tail
      exact ⟨rfl, equal⟩

/-- Whether one directory holds another can be seen from the steps. -/
theorem flatten_prefix_iff {steps others : List (List Char)}
    (areSteps : ∀ name ∈ steps, IsStep name) (also : ∀ name ∈ others, IsStep name) {rest : List Char}
    (noSlash : '/' ∉ rest) : steps.flatten <+: others.flatten ++ rest ↔ steps <+: others := by
  constructor
  · intro held
    induction steps generalizing others with
    | nil => exact List.nil_prefix
    | cons name steps ih =>
      obtain ⟨tail, same⟩ := held
      rw [List.flatten_cons, List.append_assoc] at same
      have step := areSteps name List.mem_cons_self
      cases others with
      | nil => exact absurd same (step.append_ne noSlash)
      | cons other others =>
        rw [List.flatten_cons, List.append_assoc] at same
        obtain ⟨rfl, equal⟩ := step.append_inj (also other List.mem_cons_self) same
        exact List.cons_prefix_cons.mpr ⟨rfl, ih (fun name member => areSteps name (List.mem_cons_of_mem _ member))
          (fun name member => also name (List.mem_cons_of_mem _ member)) ⟨tail, equal⟩⟩
  · rintro ⟨more, rfl⟩
    rw [List.flatten_append, List.append_assoc]
    exact List.prefix_append _ _

/-- A step in front of a path is its first piece. -/
theorem IsStep.pieces_append {name : List Char} (step : IsStep name) (rest : List Char) :
    pieces (name ++ rest) = name :: pieces rest := by
  obtain ⟨stem, plain, rfl⟩ := step
  induction stem with
  | nil => simp [pieces]
  | cons c stem ih =>
    simp only [List.mem_cons, not_or] at plain
    have tail := ih plain.2
    simp only [List.cons_append] at tail ⊢
    rw [pieces, if_neg (Ne.symm plain.1), tail]

/-- The segments of a path of steps are these steps. -/
theorem pieces_flatten_append {steps : List (List Char)} (areSteps : ∀ name ∈ steps, IsStep name)
    (rest : List Char) : pieces (steps.flatten ++ rest) = steps ++ pieces rest := by
  induction steps with
  | nil => rfl
  | cons name steps ih =>
    rw [List.flatten_cons, List.append_assoc, (areSteps name List.mem_cons_self).pieces_append,
      ih fun name member => areSteps name (List.mem_cons_of_mem _ member), List.cons_append]

/-- Every path is made of steps and what has no slash. -/
theorem exists_steps (path : List Char) :
    ∃ (steps : List (List Char)) (rest : List Char), (∀ name ∈ steps, IsStep name) ∧ '/' ∉ rest ∧
    path = steps.flatten ++ rest := by
  induction path with
  | nil => exact ⟨[], [], by simp, by simp, rfl⟩
  | cons c path ih =>
    obtain ⟨steps, rest, areSteps, plain, same⟩ := ih
    by_cases slash : c = '/'
    · refine ⟨['/'] :: steps, rest, ?_, plain, by rw [same, slash]; rfl⟩
      intro name member
      rcases List.mem_cons.mp member with rfl | later
      · exact ⟨[], by simp, rfl⟩
      · exact areSteps name later
    · cases steps with
      | nil => exact ⟨[], c :: rest, by simp, by simp [Ne.symm slash, plain], by rw [same]; rfl⟩
      | cons first steps =>
        obtain ⟨stem, plainStem, rfl⟩ := areSteps first List.mem_cons_self
        refine ⟨(c :: stem ++ ['/']) :: steps, rest, ?_, plain, by rw [same]; simp⟩
        intro name member
        rcases List.mem_cons.mp member with rfl | later
        · exact ⟨c :: stem, by simp [Ne.symm slash, plainStem], rfl⟩
        · exact areSteps name (List.mem_cons_of_mem _ later)

/-- The path of the directory to which names lead. -/
def dirOf (names : List String) : List Char := '/' :: (names.map String.toList).flatten

def AreSteps (names : List String) : Prop := ∀ name ∈ names, IsStep name.toList

theorem AreSteps.toList {names : List String} (areSteps : AreSteps names) :
    ∀ name ∈ names.map String.toList, IsStep name := by
  intro name member
  obtain ⟨text, listed, rfl⟩ := List.mem_map.mp member
  exact areSteps text listed

theorem AreSteps.append {names more : List String} (areSteps : AreSteps names) (also : AreSteps more) :
    AreSteps (names ++ more) := by
  intro name member
  rcases List.mem_append.mp member with first | second
  · exact areSteps name first
  · exact also name second

/-- The first of several steps are steps. -/
theorem AreSteps.of_prefix {names others : List String} (areSteps : AreSteps others) (held : names <+: others) :
    AreSteps names := fun name member => areSteps name (held.subset member)

theorem areSteps_nil : AreSteps [] := by simp [AreSteps]

theorem AreSteps.cons {names : List String} {name : String} (step : IsStep name.toList) (areSteps : AreSteps names) :
    AreSteps (name :: names) := List.forall_mem_cons.mpr ⟨step, areSteps⟩

theorem AreSteps.snoc {names : List String} {name : String} (areSteps : AreSteps names) (step : IsStep name.toList) :
    AreSteps (names ++ [name]) := areSteps.append (by simpa [AreSteps] using step)

@[simp] theorem dirOf_nil : dirOf [] = ['/'] := rfl

theorem ofList_dirOf_nil : String.ofList (dirOf []) = "/" := by decide +kernel

theorem dirOf_append (names more : List String) :
    dirOf (names ++ more) = dirOf names ++ (more.map String.toList).flatten := by
  simp [dirOf]

theorem dirOf_snoc (names : List String) (name : String) : dirOf (names ++ [name]) = dirOf names ++ name.toList := by
  simp [dirOf]

/-- A path can be taken apart into a directory and a name in one way only. -/
theorem dirOf_append_inj {names others : List String} {plain rest : List Char} (areSteps : AreSteps names)
    (also : AreSteps others) (noSlash : '/' ∉ plain) (noSlash' : '/' ∉ rest)
    (same : dirOf names ++ plain = dirOf others ++ rest) : names = others ∧ plain = rest := by
  simp only [dirOf, List.cons_append, List.cons.injEq, true_and] at same
  obtain ⟨equal, tail⟩ := flatten_append_inj areSteps.toList also.toList noSlash noSlash' same
  exact ⟨List.map_inj_right (fun _ _ => String.toList_inj.mp) |>.mp equal, tail⟩

/-- The path of a directory tells the steps that lead to it. -/
theorem dirOf_inj {names others : List String} (areSteps : AreSteps names) (also : AreSteps others)
    (same : dirOf names = dirOf others) : names = others := by
  refine (dirOf_append_inj areSteps also List.not_mem_nil List.not_mem_nil ?_).1
  rw [same]

/-- A path starts with that of a directory exactly if its steps start with those of the directory. -/
theorem dirOf_prefix_iff {names others : List String} {rest : List Char} (areSteps : AreSteps names)
    (also : AreSteps others) (noSlash : '/' ∉ rest) : dirOf names <+: dirOf others ++ rest ↔ names <+: others := by
  rw [dirOf, dirOf, List.cons_append, List.cons_prefix_cons,
    flatten_prefix_iff areSteps.toList also.toList noSlash]
  simp only [true_and]
  constructor
  · intro held
    obtain ⟨more, same⟩ := held
    obtain ⟨first, second, rfl, equal, _⟩ := List.map_eq_append_iff.mp same.symm
    rw [List.map_inj_right (fun _ _ => String.toList_inj.mp)] at equal
    exact equal ▸ List.prefix_append _ _
  · rintro ⟨more, rfl⟩
    rw [List.map_append]
    exact List.prefix_append _ _

/-- An absolute path is that of a directory with a name behind it. -/
theorem exists_dirOf {path : List Char} (absolute : path.head? = some '/') :
    ∃ names rest, AreSteps names ∧ '/' ∉ rest ∧ path = dirOf names ++ rest := by
  cases path with
  | nil => simp at absolute
  | cons c path =>
    obtain rfl : c = '/' := by simpa using absolute
    obtain ⟨steps, rest, areSteps, plain, same⟩ := exists_steps path
    refine ⟨steps.map String.ofList, rest, ?_, plain, ?_⟩
    · intro name member
      obtain ⟨text, listed, rfl⟩ := List.mem_map.mp member
      rw [String.toList_ofList]
      exact areSteps text listed
    · simp [dirOf, same, Function.comp_def]

theorem exists_dirOf_of_isAbsoluteDir {path : String} (absolute : isAbsoluteDir path) :
    ∃ names, AreSteps names ∧ path = String.ofList (dirOf names) := by
  simp only [isAbsoluteDir, isDir, Bool.and_eq_true, beq_iff_eq] at absolute
  obtain ⟨names, rest, areSteps, plain, same⟩ := exists_dirOf absolute.1
  refine ⟨names, areSteps, ?_⟩
  have nothing : rest = [] := by
    cases last : rest.getLast? with
    | none => exact List.getLast?_eq_none_iff.mp last
    | some c =>
      rw [same, List.getLast?_append, last] at absolute
      obtain rfl : c = '/' := by simpa using absolute.2
      exact absurd (List.mem_of_getLast? last) plain
  rw [nothing, List.append_nil] at same
  rw [← same, String.ofList_toList]

theorem isAbsoluteDir_dirOf {names : List String} (areSteps : AreSteps names) :
    isAbsoluteDir (String.ofList (dirOf names)) := by
  rw [isAbsoluteDir, isDir, String.toList_ofList]
  rcases List.eq_nil_or_concat names with rfl | ⟨front, name, rfl⟩
  · rfl
  · have step := areSteps name (by simp)
    rw [List.concat_eq_append, dirOf_snoc, List.getLast?_append, step.getLast?]
    rfl

/-- The segments of a directory are the steps that lead to it. -/
theorem segments_dirOf {names : List String} (areSteps : AreSteps names) :
    segments (String.ofList (dirOf names)) = names := by
  have cut := pieces_flatten_append areSteps.toList []
  rw [segments, String.toList_ofList, dirOf, relative, ← List.append_nil (List.flatten _), cut]
  simp [pieces, Function.comp_def]

end BackupAtlas.TreePath
