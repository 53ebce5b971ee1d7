import BackupAtlas.Proofs.Snapshots
import BackupAtlas.Proofs.Views

namespace BackupAtlas

open TreePath

namespace Inventory

/-- The path of a file, given that of the directory. -/
def File.path (root : String) (file : File) : String := below root file.dirs ++ file.name

/-- The path of a directory is that of the root with the names behind it. -/
theorem toList_below (root : String) (names : List String) :
    (TreePath.below root names).toList = root.toList ++ (names.map String.toList).flatten := by
  induction names generalizing root with
  | nil => simp [TreePath.below]
  | cons name names ih =>
    rw [TreePath.below, List.foldl_cons, ← TreePath.below, ih, String.toList_append, List.append_assoc]
    rfl

theorem toList_below_dirOf (scope names : List String) :
    (TreePath.below (String.ofList (dirOf scope)) names).toList = dirOf (scope ++ names) := by
  rw [toList_below, String.toList_ofList, dirOf_append]

theorem File.toList_path (scope : List String) (file : File) :
    (file.path (String.ofList (dirOf scope))).toList = dirOf (scope ++ file.dirs) ++ file.name.toList := by
  rw [File.path, String.toList_append, toList_below_dirOf]

/-- The files of a proper inventory have names without slashes, in directories that steps lead to. -/
theorem Proper.file {inventory : Inventory} (proper : inventory.Proper) : ∀ file ∈ inventory.files,
    AreSteps file.dirs ∧ '/' ∉ file.name.toList ∧
    (file.dirs = [] ∨ ∃ name ∈ inventory.names, [name] <+: file.dirs) := by
  induction inventory with
  | done => exact fun file member => absurd member List.not_mem_nil
  | file name stat rest ih =>
    intro file member
    rcases List.mem_cons.mp member with rfl | later
    · exact ⟨areSteps_nil, proper.1, Or.inl rfl⟩
    · obtain ⟨areSteps, plain, first⟩ := ih proper.2.2 file later
      exact ⟨areSteps, plain, first.imp_right fun ⟨name, known, held⟩ => ⟨name, List.mem_cons_of_mem _ known, held⟩⟩
  | dir name uid gid below rest ihBelow ihRest =>
    intro file member
    rcases List.mem_append.mp member with inside | later
    · obtain ⟨inner, listed, rfl⟩ := List.mem_map.mp inside
      obtain ⟨areSteps, plain, _⟩ := ihBelow proper.2.2.1 inner listed
      exact ⟨areSteps.cons proper.1, plain, Or.inr ⟨name, List.mem_cons_self, List.prefix_append [name] inner.dirs⟩⟩
    · obtain ⟨areSteps, plain, first⟩ := ihRest proper.2.2.2 file later
      exact ⟨areSteps, plain, first.imp_right fun ⟨name, known, held⟩ => ⟨name, List.mem_cons_of_mem _ known, held⟩⟩

/-- No file is without a name. -/
def Named (inventory : Inventory) : Prop := ∀ file ∈ inventory.files, file.name ≠ ""

variable {inventory : Inventory} {name : String} {uid gid : Nat} {below : Inventory}

theorem filter_within (name : String) (more : List String) (files : List File) :
    (files.map (File.within name)).filter (fun file => (name :: more).isPrefixOf file.dirs) =
      (files.filter fun file => more.isPrefixOf file.dirs).map (File.within name) := by
  rw [List.filter_map]
  congr 2
  funext file
  simp [File.within]

/-- Files behind the subdirectory do not lie in it. -/
theorem filter_behind {rest : Inventory} (proper : rest.Proper) (missing : name ∉ rest.names) (more : List String) :
    rest.files.filter (fun file => (name :: more).isPrefixOf file.dirs) = [] := by
  refine List.filter_eq_nil_iff.mpr fun file member held => ?_
  rw [List.isPrefixOf_iff_prefix] at held
  rcases (proper.file file member).2.2 with none | ⟨other, known, first⟩
  · rw [none] at held
    exact absurd held.length_le (by simp)
  · obtain ⟨others, same⟩ := first
    rw [← same, List.singleton_append, List.cons_prefix_cons] at held
    exact missing (held.1 ▸ known)

/-- The files below a directory are those whose names start with the ones that lead to it. -/
theorem filter_of_dir? (proper : inventory.Proper)
    (found : inventory.dir? name = some (uid, gid, below)) (more : List String) :
    inventory.files.filter (fun file => (name :: more).isPrefixOf file.dirs) =
      (below.files.filter fun file => more.isPrefixOf file.dirs).map (File.within name) := by
  induction inventory with
  | done => exact absurd found (by simp [dir?])
  | file key stat rest ih =>
    rw [files, List.filter_cons_of_neg (by simp)]
    exact ih proper.2.2 found
  | dir key uid' gid' below' rest _ ih =>
    rw [dir?] at found
    rw [files, List.filter_append]
    split at found
    · rename_i same
      obtain rfl := same
      cases Option.some.inj found
      have missing : name ∉ rest.names := fun member => String.lt_irrefl _ (proper.2.1 name member)
      rw [filter_within, filter_behind proper.2.2.2 missing, List.append_nil]
    · rename_i differs
      have nothing : (below'.files.map (File.within key)).filter (fun file => (name :: more).isPrefixOf file.dirs) =
        [] := by
        rw [List.filter_map]
        simp [Function.comp_def, File.within, differs]
      rw [nothing, List.nil_append]
      exact ih proper.2.2.2 found

/-- The files of a directory to which names lead, by their paths. -/
theorem filter_of_descend (proper : inventory.Proper) {names : List String} {uid' gid' : Nat} {inner : Inventory}
    (led : descend names (uid, gid, inventory) = some (uid', gid', inner)) (root : String) :
    AreSteps names ∧ ((inventory.files.filter fun file => names.isPrefixOf file.dirs).map fun file =>
    (file.path root, file.stat)) =
      inner.files.map fun file => (file.path (TreePath.below root names), file.stat) := by
  induction names generalizing inventory uid gid root with
  | nil =>
    cases Option.some.inj led
    refine ⟨areSteps_nil, ?_⟩
    simp [TreePath.below]
  | cons name names ih =>
    rw [descend, Option.bind_eq_some_iff] at led
    obtain ⟨⟨uid'', gid'', below⟩, found, led⟩ := led
    obtain ⟨step, properBelow⟩ := proper.of_dir? found
    obtain ⟨areSteps, same⟩ := ih properBelow led (root ++ name)
    refine ⟨areSteps.cons step, ?_⟩
    rw [filter_of_dir? proper found, List.map_map]
    exact same

end Inventory

namespace Census

open Inventory (Content ofItems)

/-- The files of a single directory, with their paths. -/
def filesIn (path : String) (dir : CensusDir) : List (String × FileStat) :=
  dir.files.entries.map fun entry => (path ++ entry.1, entry.2)

def filesBelow (path : String) : Forest CensusDir → List (String × FileStat)
  | .nil => []
  | .cons name dir below rest => filesIn (path ++ name) dir ++ filesBelow (path ++ name) below ++ filesBelow path rest

/-- All files that have been recorded, with their absolute paths. -/
def files (census : Census) : List (String × FileStat) :=
  filesIn census.root census.tree.label ++ filesBelow census.root census.tree.below

/-- The files at or below the subdirectory to which names lead. -/
def filesWithin (census : Census) (names : List String) : List (String × FileStat) :=
  census.files.filter fun file => isWithin file.1 (below census.root names)

/-- The files of a directory are its own and those below it. -/
theorem files_contents (path : String) (dir : CensusDir) (subs : List (String × Content)) :
    ((contents dir subs).files.map fun file => (file.path path, file.stat)).Perm
      (filesIn path dir ++ subs.flatMap fun entry => (entry.2.files entry.1).map fun file =>
        (file.path path, file.stat)) := by
  have sorted := (Piece.sort_perm (dir.files.entries.map (fun entry => (entry.1, Content.file entry.2)) ++
    subs)).flatMap_right
    fun entry => (entry.2.files entry.1).map fun file => (file.path path, file.stat)
  rw [contents, Inventory.files_ofItems, List.map_flatMap]
  refine sorted.trans ?_
  rw [List.flatMap_append, List.flatMap_map]
  refine (List.Perm.of_eq ?_).append_right _
  rw [filesIn, List.map_eq_flatMap]
  rfl

theorem files_items (path : String) (forest : Forest CensusDir) :
    ((items forest).flatMap fun entry => (entry.2.files entry.1).map fun file => (file.path path, file.stat)).Perm
      (filesBelow path forest) := by
  induction forest generalizing path with
  | nil => exact .refl _
  | cons name dir below rest ihBelow ihRest =>
    rw [items, List.flatMap_cons, filesBelow, Content.files, List.map_map]
    refine List.Perm.append ?_ (ihRest path)
    exact (files_contents (path ++ name) dir (items below)).trans ((ihBelow (path ++ name)).append_left _)

/-- The files of the contents are those that have been recorded. -/
theorem files_inventory (census : Census) :
    (census.inventory.files.map fun file => (file.path census.root, file.stat)).Perm census.files :=
  (files_contents census.root census.tree.label (items census.tree.below)).trans ((files_items _ _).append_left _)

theorem contents_named {dir : CensusDir} {subs : List (String × Content)} (plain : dir.Plain)
    (each : ∀ entry ∈ subs, ∀ file ∈ entry.2.files entry.1, file.name ≠ "") : (contents dir subs).Named := by
  intro file member
  rw [contents, Inventory.files_ofItems, List.mem_flatMap] at member
  obtain ⟨entry, listed, here⟩ := member
  rcases mem_contents.mp listed with ⟨own, known, rfl⟩ | sub
  · obtain rfl := List.mem_singleton.mp here
    exact (plain own known).1
  · exact each entry sub file here

theorem items_named {forest : Forest CensusDir} (neat : forest.Neat) :
    ∀ entry ∈ items forest, ∀ file ∈ entry.2.files entry.1, file.name ≠ "" := by
  induction forest with
  | nil => exact fun _ member => absurd member List.not_mem_nil
  | cons name dir below rest ihBelow ihRest =>
    obtain ⟨_, plain, _, neatBelow, neatRest⟩ := neat
    intro entry member file here
    rcases List.mem_cons.mp member with rfl | later
    · obtain ⟨inner, inside, rfl⟩ := List.mem_map.mp here
      exact contents_named plain (ihBelow neatBelow) inner inside
    · exact ihRest neatRest entry later file here

theorem Sound.named {census : Census} (sound : census.Sound) : census.inventory.Named :=
  contents_named sound.tidy.1 (items_named sound.tidy.2)

/-- A path starts with that of a subdirectory if the names do. -/
theorem isWithin_path {scope names : List String} {file : Inventory.File} (areScope : AreSteps scope)
    (areSteps : AreSteps names)
    (areDirs : AreSteps file.dirs) (plain : '/' ∉ file.name.toList) :
    isWithin (file.path (String.ofList (dirOf scope))) (below (String.ofList (dirOf scope)) names) =
      names.isPrefixOf file.dirs := by
  rw [isWithin, Inventory.toList_below_dirOf, Inventory.File.toList_path, Bool.eq_iff_iff, List.isPrefixOf_iff_prefix,
    List.isPrefixOf_iff_prefix, dirOf_prefix_iff (areScope.append areSteps) (areScope.append areDirs) plain]
  exact List.prefix_append_right_inj scope

/-- The files within a directory are those that were recorded below its path. -/
theorem filesWithin_descend {census : Census} (sound : census.Sound) {names : List String} {uid gid uid' gid' : Nat}
    {inner : Inventory} (led : Inventory.descend names (uid, gid, census.inventory) = some (uid', gid', inner)) :
    (inner.files.map fun file => (file.path (below census.root names), file.stat)).Perm (census.filesWithin names) := by
  obtain ⟨scope, areScope, rootEq⟩ := exists_dirOf_of_isAbsoluteDir sound.absolute
  obtain ⟨areSteps, same⟩ := Inventory.filter_of_descend sound.proper led census.root
  rw [← same, filesWithin]
  refine List.Perm.trans (List.Perm.of_eq ?_) (census.files_inventory.filter _)
  rw [List.filter_map]
  refine congrArg (List.map _) (List.filter_congr fun file member => ?_)
  obtain ⟨areDirs, plain, _⟩ := sound.proper.file file member
  rw [Function.comp_apply, rootEq, isWithin_path areScope areSteps areDirs plain]

end Census
end BackupAtlas
