import BackupAtlas.Census
import BackupAtlas.Proofs.DirTrees
import BackupAtlas.Proofs.Paths
import BackupAtlas.Proofs.RuleSets

namespace BackupAtlas

open TreePath

namespace TreePath

theorem relative_ends {path : List Char} (ends : path.getLast? = some '/') :
    relative path = [] ∨ (relative path).getLast? = some '/' := by
  unfold relative
  split
  · rename_i rest
    cases rest with
    | nil => exact Or.inl rfl
    | cons c rest => exact Or.inr (by rwa [List.getLast?_cons_cons] at ends)
  · exact Or.inr ends

/-- The segments of a path of a directory are steps. -/
theorem areSteps_segments {path : String} (ends : path = "" ∨ isDir path) : AreSteps (segments path) := by
  obtain ⟨steps, rest, areSteps, plain, same⟩ := exists_steps (relative path.toList)
  have stops : relative path.toList = [] ∨ (relative path.toList).getLast? = some '/' := by
    rcases ends with rfl | dirName
    · exact Or.inl rfl
    · exact relative_ends (by simpa [isDir] using dirName)
  have nothing : rest = [] := by
    rw [same] at stops
    rcases stops with empty | last
    · exact (List.append_eq_nil_iff.mp empty).2
    · cases tail : rest.getLast? with
      | none => exact List.getLast?_eq_none_iff.mp tail
      | some c =>
        rw [List.getLast?_append, tail] at last
        obtain rfl : c = '/' := by simpa using last
        exact absurd (List.mem_of_getLast? tail) plain
  have cut := pieces_flatten_append areSteps []
  rw [List.append_nil] at cut
  rw [segments, same, nothing, List.append_nil, cut]
  intro name member
  obtain ⟨step, listed, rfl⟩ := List.mem_map.mp member
  rw [String.toList_ofList]
  exact areSteps step (by simpa [pieces] using listed)

/-- A path behind its last slash has no slash. -/
theorem upToSlash_eq_some {path dir : List Char} (found : upToSlash path = some dir) :
    ∃ name, path = dir ++ name ∧ '/' ∉ name ∧ dir.getLast? = some '/' := by
  have parts : path.reverse.takeWhile (· != '/') ++ path.reverse.dropWhile (· != '/') = path.reverse :=
    List.takeWhile_append_dropWhile
  have plain : (path.reverse.takeWhile (· != '/')).all (· != '/') = true := List.all_takeWhile
  have first := List.head?_dropWhile_not (· != '/') path.reverse
  rw [upToSlash] at found
  split at found
  · exact absurd found (by simp)
  · rename_i dropped
    obtain rfl := Option.some.inj found
    refine ⟨(path.reverse.takeWhile (· != '/')).reverse, ?_, ?_, ?_⟩
    · rw [← List.reverse_append, parts, List.reverse_reverse]
    · intro member
      have differs := List.all_eq_true.mp plain '/' (List.mem_reverse.mp member)
      exact absurd differs (by simp)
    · rw [List.getLast?_reverse]
      cases head : (path.reverse.dropWhile (· != '/')).head? with
      | none => exact absurd (List.head?_eq_none_iff.mp head) dropped
      | some c =>
        rw [head] at first
        exact congrArg some (by simpa using first)

end TreePath
/-- Files have names, in which there is no slash. -/
def CensusDir.Plain (dir : CensusDir) : Prop := ∀ entry ∈ dir.files.entries, entry.1 ≠ "" ∧ '/' ∉ entry.1.toList

/-- Subdirectories, at any depth, have names of steps in ascending order, and files have plain names. -/
def Forest.Neat : Forest CensusDir → Prop
  | .nil => True
  | .cons name dir below rest =>
    IsStep name.toList ∧ dir.Plain ∧ (∀ other ∈ rest.names, name < other) ∧ Neat below ∧ Neat rest

def Census.Tidy (tree : DirTree CensusDir) : Prop := tree.label.Plain ∧ tree.below.Neat

namespace Forest

variable {forest : Forest CensusDir} {name : String} {blank : CensusDir}
variable {change : CensusDir × Forest CensusDir → CensusDir × Forest CensusDir}

theorem Neat.alter (neat : forest.Neat) (step : IsStep name.toList) (plain : blank.Plain)
    (keeps : ∀ dir below, dir.Plain → below.Neat → (change (dir, below)).1.Plain ∧ (change (dir, below)).2.Neat) :
    (forest.alter blank name change).Neat := by
  induction forest with
  | nil =>
    obtain ⟨first, second⟩ := keeps blank .nil plain trivial
    exact ⟨step, first, by simp [names], second, trivial⟩
  | cons key dir below rest _ ih =>
    obtain ⟨stepKey, plainDir, above, neatBelow, neatRest⟩ := neat
    rw [Forest.alter]
    split
    · rename_i less
      obtain ⟨first, second⟩ := keeps blank .nil plain trivial
      refine ⟨step, first, ?_, second, stepKey, plainDir, above, neatBelow, neatRest⟩
      intro other member
      rcases List.mem_cons.mp member with rfl | later
      · exact less
      · exact String.lt_trans less (above other later)
    · split
      · rename_i same
        obtain ⟨first, second⟩ := keeps dir below plainDir neatBelow
        exact ⟨step, first, same ▸ above, second, neatRest⟩
      · rename_i notLess differs
        refine ⟨stepKey, plainDir, ?_, neatBelow, ih neatRest⟩
        intro other member
        rcases mem_names_alter.mp member with rfl | old
        · exact lt_of_not_lt_of_ne notLess differs
        · exact above other old

end Forest

namespace Census

theorem Tidy.along {tree : DirTree CensusDir} {blank : CensusDir → CensusDir} {change : Bool → CensusDir → CensusDir}
    {path : List String} (tidy : Tidy tree) (areSteps : AreSteps path) (plain : ∀ dir, (blank dir).Plain)
    (keeps : ∀ last dir, dir.Plain → (change last dir).Plain) : Tidy (tree.along blank change path) := by
  induction path generalizing tree with
  | nil => exact ⟨keeps true _ tidy.1, tidy.2⟩
  | cons name path ih =>
    refine ⟨keeps false _ tidy.1, tidy.2.alter (areSteps name List.mem_cons_self) (plain _)
      fun dir below first second => ?_⟩
    exact @ih ⟨dir, below⟩ ⟨first, second⟩ fun next member => areSteps next (List.mem_cons_of_mem _ member)

/-- Something that is recorded. -/
inductive Entry where
  | dir (path : String) (uid gid : Nat)
  | file (path : String) (stat : FileStat)

def Entry.record : Entry → Step
  | dir path uid gid => addDir path uid gid
  | file path stat => addFile path stat

/-- What recording leads to, one entry after another. -/
inductive Reached : Census → Prop
  | start {root : String} {uid gid : Nat} {census : Census} (begun : Census.start root uid gid = .ok census) :
    Reached census
  | step {census next : Census} (entry : Entry) (before : Reached census) (ran : entry.record census = .ok () next) :
      Reached next

/-- Records one entry after another. -/
def recordAll (census : Census) : List Entry → Option Census
  | [] => some census
  | entry :: rest =>
    match entry.record census with
    | .ok () next => recordAll next rest
    | .error _ _ => none

theorem Reached.recordAll {census last : Census} (reached : Reached census) {entries : List Entry}
    (ran : census.recordAll entries = some last) : Reached last := by
  induction entries generalizing census with
  | nil => exact Option.some.inj ran ▸ reached
  | cons entry entries ih =>
    rw [Census.recordAll] at ran
    split at ran
    · rename_i next recorded
      exact ih (reached.step entry recorded) ran
    · exact absurd ran (by simp)

/-- A census of a directory, with tidy contents. -/
structure Sound (census : Census) : Prop where
  absolute : isAbsoluteDir census.root
  tidy : Tidy census.tree

/-- What is left of the path of a directory behind that of another is empty or the path of a directory. -/
theorem inner_ends (root : String) {dir : String} (ends : isDir dir) :
    String.ofList (dir.toList.drop root.toList.length) = "" ∨
    isDir (String.ofList (dir.toList.drop root.toList.length)) := by
  rw [isDir, beq_iff_eq] at ends
  rw [isDir, String.toList_ofList, beq_iff_eq, List.getLast?_drop]
  split
  · left
    rw [List.drop_eq_nil_iff.mpr (by assumption)]
  · exact Or.inr ends

/-- A change of one directory keeps a census sound. -/
theorem Sound.changeDir {census next : Census} {dir path : String} {change : CensusDir → CensusDir}
    (sound : census.Sound)
    (ran : Census.changeDir dir path change census = .ok () next) (ends : isDir dir)
    (keeps : ∀ dir, dir.Plain → (change dir).Plain) : next.Sound := by
  rw [Census.changeDir] at ran
  split at ran
  · injection ran with _ same
    rw [← same]
    have steps := areSteps_segments (inner_ends census.root ends)
    refine ⟨sound.absolute, ?_⟩
    dsimp only
    refine sound.tidy.along steps (fun _ => ?_) fun last dir plain => ?_
    · exact fun entry member => absurd member List.not_mem_nil
    · cases last with
      | false => exact plain
      | true => exact keeps dir plain
  · exact absurd ran (by simp)

theorem Plain.insert {dir : CensusDir} {name : String} (plain : dir.Plain) (someName : name ≠ "")
    (noSlash : '/' ∉ name.toList) (stat : FileStat) :
    CensusDir.Plain { dir with files := dir.files.insert name stat } := by
  intro entry member
  rcases Entries.mem_of_mem_insert member with rfl | old
  · exact ⟨someName, noSlash⟩
  · exact plain entry old

/-- Whatever has been recorded, a census is sound. -/
theorem Reached.sound {census : Census} (reached : Reached census) : census.Sound := by
  induction reached with
  | @start root uid gid census begun =>
    rw [Census.start] at begun
    split at begun
    · rename_i absolute
      rw [← Except.ok.inj begun]
      exact ⟨absolute, fun entry member => absurd member List.not_mem_nil, trivial⟩
    · exact absurd begun (by simp)
  | @step census next entry before ran ih =>
    cases entry with
    | dir path uid gid =>
      rw [Entry.record, addDir] at ran
      split at ran
      · rename_i dirName
        exact ih.changeDir ran dirName fun _ plain => plain
      · rw [throw_eq] at ran
        cases ran
    | file path stat =>
      rw [Entry.record, addFile] at ran
      split at ran
      · exact absurd ran (by simp)
      · rename_i dir cut
        obtain ⟨name, split, noSlash, last⟩ := upToSlash_eq_some cut
        have named : path.toList.drop dir.length = name := by rw [split, List.drop_left]
        simp only [named] at ran
        split at ran
        · exact absurd ran (by simp)
        · rename_i someName
          refine ih.changeDir ran (by rw [isDir, String.toList_ofList, last]; rfl) fun _ plain => ?_
          exact Plain.insert plain someName (by rwa [String.toList_ofList]) stat

end Census
end BackupAtlas
