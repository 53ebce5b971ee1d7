import Mathlib.Data.List.Pairwise
import BackupAtlas.Proofs.Globs
import BackupAtlas.Proofs.PathQueries
import BackupAtlas.Proofs.Recording
import BackupAtlas.Proofs.TreeChanges

namespace BackupAtlas

open TreePath

namespace TreePath

theorem exists_upToSlash {path : List Char} (slash : '/' ∈ path) : ∃ dir, upToSlash path = some dir := by
  rw [upToSlash]
  split
  · rename_i nothing
    have parts : path.reverse.takeWhile (· != '/') ++ path.reverse.dropWhile (· != '/') = path.reverse :=
      List.takeWhile_append_dropWhile
    have plain : (path.reverse.takeWhile (· != '/')).all (· != '/') = true := List.all_takeWhile
    rw [nothing, List.append_nil] at parts
    rw [parts] at plain
    exact absurd (List.all_eq_true.mp plain '/' (List.mem_reverse.mpr slash)) (by simp)
  · exact ⟨_, rfl⟩

/-- A directory that what lies in a file's directory starts with leads to that directory. -/
theorem prefix_of_prefix_plain {root dir name : List Char} (ends : root.getLast? = some '/') (plain : '/' ∉ name)
    (held : root <+: dir ++ name) : root <+: dir := by
  refine List.prefix_of_prefix_length_le held (List.prefix_append _ _) ?_
  -- otherwise the last slash of `root` would be in `name`
  by_contra longer
  obtain ⟨more, rfl⟩ := List.prefix_of_prefix_length_le (List.prefix_append dir name) held (by omega)
  have someMore : more ≠ [] := by
    rintro rfl
    simp at longer
  rw [List.prefix_append_right_inj] at held
  rw [List.getLast?_append_of_ne_nil _ someMore] at ends
  exact plain (held.subset (List.mem_of_getLast? ends))

/-- A file is cut off behind its directory, which may be written with slashes that do not count. -/
theorem segments_append_plain {dir name : List Char} (ends : dir = [] ∨ dir.getLast? = some '/') (plain : '/' ∉ name)
    (someName : name ≠ []) :
    segments (String.ofList (dir ++ name)) = segments (String.ofList dir) ++ [String.ofList name] := by
  have areSteps : AreSteps (segments (String.ofList dir)) := by
    refine areSteps_segments (ends.imp (fun nothing => by rw [nothing]) fun last => ?_)
    rw [isDir, String.toList_ofList, last]
    rfl
  have whole := flatten_segments (String.ofList dir)
  rw [String.toList_ofList] at whole
  have split : relative (dir ++ name) = relative dir ++ name := by
    cases dir with
    | nil => exact relative_eq fun first => plain (List.mem_of_mem_head? first)
    | cons c dir =>
      by_cases slash : c = '/'
      · rw [slash]
        rfl
      · rw [relative_eq (by simpa using slash), relative_eq (by simpa using slash)]
  have cut := pieces_flatten_append areSteps.toList name
  rw [whole, ← split, pieces_of_plain someName plain] at cut
  rw [segments, String.toList_ofList, cut, List.map_append, List.map_map]
  simp [Function.comp_def]

end TreePath

namespace Census

/-- What a directory is recorded as that is missing on the way to another. -/
def blank (parent : CensusDir) : CensusDir := { uid := parent.uid, gid := parent.gid }

namespace Entry

def path : Entry → String
  | dir path _ _ | file path _ => path

/-- The names that lead from the root to what is recorded. -/
def names (root : String) (entry : Entry) : List String :=
  segments (String.ofList (entry.path.toList.drop root.toList.length))

/-- Whether it can be recorded: it lies below the root, and its path ends in a slash if it is a directory. -/
def fits (root : String) : Entry → Bool
  | dir path _ _ => isDir path && isWithin path root
  | file path _ => !isDir path && isWithin path root

/-- The names of the directory in which it is recorded: its own, or that of a file. -/
def dirs (root : String) (entry : Entry) : List String :=
  match entry with
  | dir .. => entry.names root
  | file .. => (entry.names root).dropLast

/-- The name that a file has there. -/
def name (root : String) (entry : Entry) : String := (entry.names root).getLastD ""

def change (root : String) (entry : Entry) (dir : CensusDir) : CensusDir :=
  match entry with
  | .dir _ uid gid => { dir with uid, gid }
  | file _ stat => { dir with files := dir.files.insert (entry.name root) stat }

variable {root path : String} {stat : FileStat}

/-- The directory and the name that the path of a file is made of. -/
structure Split (root path : String) (dir name : List Char) : Prop where
  cut : upToSlash path.toList = some dir
  whole : path.toList = dir ++ name
  held : root.toList <+: dir
  ends : dir.getLast? = some '/'
  plain : '/' ∉ name
  someName : name ≠ []

/-- The path of a file that fits is split behind its last slash, at the root or below it. -/
theorem exists_split (absolute : isAbsoluteDir root) (fits : (file path stat).fits root) :
    ∃ dir name, Split root path dir name := by
  obtain ⟨plainPath, within⟩ := Bool.and_eq_true_iff.mp fits
  have ends : root.toList.getLast? = some '/' := by
    have both := Bool.and_eq_true_iff.mp absolute
    simpa [isDir] using both.2
  have held : root.toList <+: path.toList := List.isPrefixOf_iff_prefix.mp within
  obtain ⟨dir, cut⟩ := exists_upToSlash (held.subset (List.mem_of_getLast? ends))
  obtain ⟨name, whole, plain, last⟩ := upToSlash_eq_some cut
  refine ⟨dir, name, cut, whole, prefix_of_prefix_plain ends plain (whole ▸ held), last, plain, ?_⟩
  rintro rfl
  rw [List.append_nil] at whole
  simp [isDir, whole, last] at plainPath

theorem Split.inner_ends {dir name : List Char} (split : Split root path dir name) :
    dir.drop root.toList.length = [] ∨ (dir.drop root.toList.length).getLast? = some '/' := by
  rw [List.getLast?_drop]
  split
  · exact Or.inl (List.drop_eq_nil_iff.mpr (by assumption))
  · exact Or.inr split.ends

theorem Split.names_eq {dir name : List Char} (split : Split root path dir name) (stat : FileStat) :
    (file path stat).names root =
      segments (String.ofList (dir.drop root.toList.length)) ++ [String.ofList name] := by
  have behind : path.toList.drop root.toList.length = dir.drop root.toList.length ++ name := by
    rw [split.whole]
    exact List.drop_append_of_le_length split.held.length_le
  rw [names, Entry.path, behind, segments_append_plain split.inner_ends split.plain split.someName]

/-- The names of a file are those of directories and a name without a slash. -/
theorem names_file (absolute : isAbsoluteDir root) (fits : (file path stat).fits root) :
    (file path stat).names root = (file path stat).dirs root ++ [(file path stat).name root] ∧
      AreSteps ((file path stat).dirs root) ∧ (file path stat).name root ≠ "" ∧
      '/' ∉ ((file path stat).name root).toList := by
  obtain ⟨dir, name, split⟩ := exists_split absolute fits
  have names := split.names_eq stat
  rw [dirs, Entry.name, names, List.dropLast_concat, List.getLastD_concat, String.toList_ofList]
  refine ⟨rfl, areSteps_segments ?_, ?_, split.plain⟩
  · refine split.inner_ends.imp (fun nothing => by rw [nothing]) fun last => ?_
    rw [isDir, String.toList_ofList, last]
    rfl
  · rw [Ne, ← String.toList_eq_nil_iff, String.toList_ofList]
    exact split.someName

/-- The names of a directory are steps. -/
theorem names_dir {uid gid : Nat} (fits : (dir path uid gid).fits root) : AreSteps ((dir path uid gid).names root) :=
  areSteps_segments (Census.inner_ends root (Bool.and_eq_true_iff.mp fits).1)

/-- What fits is recorded in its directory. -/
theorem record_fitting {census : Census} (absolute : isAbsoluteDir census.root) {entry : Entry}
    (fits : entry.fits census.root) : entry.record census = .ok () { census with
      tree := census.tree.changeAt blank (entry.change census.root) (entry.dirs census.root) } := by
  cases entry with
  | dir path uid gid =>
    obtain ⟨isDir, within⟩ := Bool.and_eq_true_iff.mp fits
    rw [record, addDir, if_pos isDir, changeDir, if_pos within]
    rfl
  | file path stat =>
    obtain ⟨dir, name, split⟩ := exists_split absolute fits
    have named : path.toList.drop dir.length = name := by rw [split.whole, List.drop_left]
    have someName : String.ofList name ≠ "" := by
      rw [Ne, ← String.toList_eq_nil_iff, String.toList_ofList]
      exact split.someName
    have within : isWithin (String.ofList dir) census.root := by
      rw [isWithin, String.toList_ofList]
      exact List.isPrefixOf_iff_prefix.mpr split.held
    rw [record, addFile, split.cut]
    simp only [named, if_neg someName, changeDir, if_pos within, String.toList_ofList]
    rw [dirs, split.names_eq stat, List.dropLast_concat]
    have change : (file path stat).change census.root = fun dir =>
        { dir with files := dir.files.insert (String.ofList name) stat } := by
      funext dir
      rw [Entry.change, Entry.name, split.names_eq stat, List.getLastD_concat]
    rw [change]
    rfl

/-- What does not fit is refused, and leaves everything as it was. -/
theorem record_unfit {census : Census} {entry : Entry} (unfit : ¬ entry.fits census.root) :
    ∃ e, entry.record census = .error e census := by
  cases entry with
  | dir path uid gid =>
    rw [record, addDir]
    split
    · rename_i isDir
      have outside : ¬ isWithin path census.root := fun within => unfit (Bool.and_eq_true_iff.mpr ⟨isDir, within⟩)
      rw [changeDir, if_neg outside]
      exact ⟨_, rfl⟩
    · exact ⟨_, throw_eq _⟩
  | file path stat =>
    rw [record, addFile]
    split
    · exact ⟨_, rfl⟩
    · rename_i dir cut
      obtain ⟨name, whole, plain, last⟩ := upToSlash_eq_some cut
      dsimp only
      split
      · exact ⟨_, rfl⟩
      · rename_i someName
        have outside : ¬ isWithin (String.ofList dir) census.root := by
          intro within
          rw [whole, List.drop_left, ← String.toList_eq_nil_iff, String.toList_ofList] at someName
          rw [isWithin, String.toList_ofList] at within
          refine unfit (Bool.and_eq_true_iff.mpr ⟨?_, List.isPrefixOf_iff_prefix.mpr ?_⟩)
          · have other : name.getLast? ≠ some '/' := fun slash => plain (List.mem_of_getLast? slash)
            rw [isDir, whole, List.getLast?_append_of_ne_nil _ someName]
            simpa using other
          · rw [whole]
            exact (List.isPrefixOf_iff_prefix.mp within).trans (List.prefix_append _ _)
        rw [changeDir, if_neg outside]
        exact ⟨_, rfl⟩

/-- What an entry does to a tree of directories. -/
def put (root : String) (tree : DirTree CensusDir) (entry : Entry) : DirTree CensusDir :=
  if entry.fits root then tree.changeAt blank (entry.change root) (entry.dirs root) else tree

end Entry

/-- The census after an entry, which may have been refused. -/
def after (census : Census) (entry : Entry) : Census :=
  match entry.record census with
  | .ok _ next | .error _ next => next

variable {census : Census}

theorem Reached.after (reached : census.Reached) (entry : Entry) : (census.after entry).Reached := by
  rw [Census.after]
  cases ran : entry.record census with
  | ok _ next => exact reached.step entry ran
  | error e next =>
    have kept : next = census := by
      by_cases fits : entry.fits census.root
      · rw [Entry.record_fitting reached.sound.absolute fits] at ran
        cases ran
      · obtain ⟨_, refused⟩ := Entry.record_unfit fits
        exact (EStateM.Result.error.inj (refused.symm.trans ran)).2.symm
    exact kept ▸ reached

/-- Entries that have different names, if both fit. -/
def Entry.Apart (root : String) (entry other : Entry) : Prop :=
  entry.fits root → other.fits root → entry.names root ≠ other.names root

instance (root : String) : Std.Symm (Entry.Apart root) := ⟨fun _ _ apart fits fits' => (apart fits' fits).symm⟩

end Census
end BackupAtlas
