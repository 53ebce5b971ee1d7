import BackupAtlas.Overlay
import BackupAtlas.Proofs.Builds
import BackupAtlas.Proofs.DirTrees

namespace BackupAtlas

open TreePath

namespace Inventory

variable {rule : List String → List Char → Nat} {names : List String} {name : String} {inventory : Inventory}
    {nodes : Nodes}

theorem Proper.mem_file {name : String} {stat : FileStat} {rest : Inventory} (proper : (file name stat rest).Proper) :
    isDir name = false := Walk.not_isDir proper.1

theorem dir?_eq_none (missing : name ∉ inventory.names) : inventory.dir? name = none := by
  induction inventory with
  | done => rfl
  | file key stat rest ih => exact ih fun member => missing (List.mem_cons_of_mem _ member)
  | dir key uid gid below rest _ ih =>
    have differ : ¬ name = key := by
      rintro rfl
      exact missing List.mem_cons_self
    rw [dir?, if_neg differ]
    exact ih fun member => missing (List.mem_cons_of_mem _ member)

theorem Proper.of_dir? (proper : inventory.Proper) {uid gid : Nat} {below : Inventory}
    (found : inventory.dir? name = some (uid, gid, below)) : IsStep name.toList ∧ below.Proper := by
  induction inventory with
  | done => exact absurd found (by simp [dir?])
  | file key stat rest ih => exact ih proper.2.2 found
  | dir key uid' gid' below' rest _ ih =>
    rw [dir?] at found
    split at found
    · rename_i same
      cases Option.some.inj found
      exact ⟨same ▸ proper.1, proper.2.2.1⟩
    · exact ih proper.2.2.2 found

/-- Names behind the one that is sought do not have it. -/
theorem not_mem_of_lt {first : String} {rest : List String} (above : ∀ other ∈ rest, first < other)
    (less : name < first) :
    name ∉ first :: rest := by
  intro member
  rcases List.mem_cons.mp member with rfl | later
  · exact String.lt_irrefl _ less
  · exact String.lt_irrefl _ (String.lt_trans less (above _ later))

theorem Stored.find?_dir (stored : inventory.Stored nodes) (proper : inventory.Proper) (dirName : isDir name) :
    (∃ uid gid below node, inventory.dir? name = some (uid, gid, below) ∧ nodes.find? name = .ok (some node) ∧
      below.IsTop uid gid node) ∨ inventory.dir? name = none ∧ nodes.find? name = .ok none := by
  induction stored with
  | done => exact Or.inr ⟨rfl, rfl⟩
  | @file key stat rest data block below others decoded behind ih =>
    have differ : ¬ key = name := fun same => by
      rw [← same, proper.mem_file] at dirName
      exact absurd dirName (by simp)
    rw [Nodes.find?]
    split
    · exact ih proper.2.2
    · rename_i notLess
      have missing := not_mem_of_lt proper.2.1 (lt_of_not_lt_of_ne notLess differ)
      exact Or.inr ⟨dir?_eq_none missing, rfl⟩
  | @dir key uid gid below rest data block inner others decoded owned inside behind _ ih =>
    rw [Nodes.find?]
    split
    · rename_i less
      have differ : ¬ name = key := fun same => String.lt_irrefl _ (same ▸ less)
      rw [dir?, if_neg differ]
      exact ih proper.2.2.2
    · rename_i notLess
      split
      · rename_i same
        refine Or.inl ⟨uid, gid, below, _, ?_, rfl, .sound decoded owned inside⟩
        rw [dir?, if_pos same.symm]
      · rename_i differ
        exact Or.inr ⟨dir?_eq_none (not_mem_of_lt proper.2.1 (lt_of_not_lt_of_ne notLess differ)), rfl⟩

theorem Classified.find?_dir (classified : inventory.Classified rule names nodes) (proper : inventory.Proper)
    {uid gid : Nat}
    {below : Inventory} (found : inventory.dir? name = some (uid, gid, below)) :
    ∃ node counterpart, nodes.find? name = .ok (some node) ∧ Counterpart.ofNode node = .ok counterpart ∧
      counterpart.Right rule False (names ++ [name]) below := by
  induction inventory generalizing nodes with
  | done => exact absurd found (by simp [dir?])
  | file key stat rest ih =>
    cases classified with
    | file behind => exact ih behind proper.2.2 found
  | dir key uid' gid' below' rest _ ih =>
    obtain ⟨data, block, inner, others, counterpart, rfl, opened, right, behind⟩ := classified.ofNode False
    rw [Nodes.find?]
    rw [dir?] at found
    split at found
    · rename_i same
      obtain rfl := same
      cases Option.some.inj found
      rw [if_neg (String.lt_irrefl name), if_pos rfl]
      exact ⟨_, counterpart, rfl, opened, right⟩
    · have member : name ∈ rest.names := Classical.byContradiction fun missing => by
        rw [dir?_eq_none missing] at found
        exact absurd found (by simp)
      rw [if_pos (proper.2.1 name member)]
      exact ih behind proper.2.2.2 found

theorem within_mem_files {uid gid : Nat} {below : Inventory}
    (found : inventory.dir? name = some (uid, gid, below)) {file : File}
    (member : file ∈ below.files) : file.within name ∈ inventory.files := by
  induction inventory with
  | done => exact absurd found (by simp [dir?])
  | file key stat rest ih => exact List.mem_cons_of_mem _ (ih found)
  | dir key uid' gid' below' rest _ ih =>
    rw [dir?] at found
    split at found
    · rename_i same
      obtain rfl := same
      cases Option.some.inj found
      exact List.mem_append_left _ (List.mem_map_of_mem member)
    · exact List.mem_append_right _ (ih found)

/-- The owner and the contents of the directory to which names lead. -/
def descend : List String → Nat × Nat × Inventory → Option (Nat × Nat × Inventory)
  | [], here => some here
  | name :: rest, here => (here.2.2.dir? name).bind (descend rest)

theorem descend_snoc (path : List String) (name : String) (here : Nat × Nat × Inventory) :
    descend (path ++ [name]) here = (descend path here).bind fun inner => inner.2.2.dir? name := by
  induction path generalizing here with
  | nil =>
    rw [List.nil_append, descend, descend, Option.bind_some]
    cases here.2.2.dir? name <;> rfl
  | cons first path ih =>
    rw [List.cons_append, descend, descend, Option.bind_assoc]
    exact Option.bind_congr fun inner _ => ih inner

end Inventory

/-- Going down one directory on both sides keeps a counterpart right. -/
theorem Counterpart.Right.child {rule : List String → List Char → Nat} {names : List String} {inventory : Inventory}
    {counterpart : Counterpart} (right : counterpart.Right rule False names inventory) (proper : inventory.Proper)
    {name : String} {uid gid : Nat} {below : Inventory} (found : inventory.dir? name = some (uid, gid, below)) :
    ∃ inner, counterpart.child name = .ok inner ∧ inner.Right rule False (names ++ [name]) below := by
  cases right with
  | absent allowed => exact absurd allowed id
  | uniform word all =>
    refine ⟨_, rfl, .uniform word fun file member => ?_⟩
    simpa [Inventory.File.within] using all _ (Inventory.within_mem_files found member)
  | node fits tagging reads short inside =>
    obtain ⟨node, inner, sought, opened, right⟩ := inside.find?_dir proper found
    refine ⟨inner, ?_, right⟩
    simp only [Counterpart.child, Node.child?, Node.children, bind, Except.bind, sought]
    exact opened

namespace View

variable {rule : List String → List Char → Nat} {names : List String} {name : String} {inventory : Inventory}
    {uid gid : Nat}
variable {view : View}

/-- A view of a directory with the given owner and contents, for the given rules. -/
structure Shows (rule : List String → List Char → Nat) (names : List String) (uid gid : Nat) (inventory : Inventory)
    (view : View) : Prop where
  proper : inventory.Proper
  lower : inventory.IsTop uid gid view.lower
  upper : view.upper.Right rule False names inventory

theorem Shows.relabelled (shows' : view.Shows rule names uid gid inventory) {r : Nat}
    (all : ∀ file ∈ inventory.files, rule (names ++ file.dirs) file.name.toList = r) :
    view.relabelled r = .ok (Share.tabulate (inventory.charges rule names)) := by
  obtain ⟨lower, upper⟩ := view
  obtain ⟨proper, ⟨decoded, _, _⟩, _⟩ := shows'
  have tabulated := Share.addDir_tabulate r uid gid inventory.stats []
  rw [List.nil_append, ← Inventory.charges_uniform rule names all] at tabulated
  simp only [View.relabelled, Node.data, bind, Except.bind, decoded, pure, Except.pure]
  exact congrArg Except.ok tabulated

/-- The shares of a directory are those of the files at or below it. -/
theorem Shows.shares (shows' : view.Shows rule names uid gid inventory) :
    view.shares = .ok (Share.tabulate (inventory.charges rule names)) := by
  have right := shows'.upper
  obtain ⟨lower, upper⟩ := view
  cases right with
  | absent allowed => exact absurd allowed id
  | uniform word all => exact shows'.relabelled all
  | node fits tagging reads short inside =>
    simp only [View.shares, Node.data, bind, Except.bind, TaggedDir.decode_encode fits, tagging, pure, Except.pure]

/-- A child of a view shows the directory of that name, or there is none on either side. -/
theorem Shows.child? (shows' : view.Shows rule names uid gid inventory) (name : String) :
    (∃ uid gid below child, inventory.dir? name = some (uid, gid, below) ∧ view.child? name = .ok (some child) ∧
      child.Shows rule (names ++ [name]) uid gid below) ∨ inventory.dir? name = none ∧ view.child? name = .ok none := by
  obtain ⟨lower, upper⟩ := view
  obtain ⟨proper, isTop, right⟩ := shows'
  by_cases dirName : isDir name
  · cases isTop with
    | sound decoded owned stored =>
      rw [View.child?, if_pos dirName]
      rcases stored.find?_dir proper dirName with ⟨uid, gid, below, node, found, sought, top⟩ | ⟨missing, sought⟩
      · obtain ⟨inner, opened, innerRight⟩ := right.child proper found
        refine Or.inl ⟨uid, gid, below, ⟨node, inner⟩, found, ?_, (proper.of_dir? found).2, top, innerRight⟩
        simp only [Node.child?, Node.children, bind, Except.bind, sought, opened]
        rfl
      · refine Or.inr ⟨missing, ?_⟩
        simp only [Node.child?, Node.children, bind, Except.bind, sought]
        rfl
  · refine Or.inr ⟨?_, ?_⟩
    · cases found : inventory.dir? name with
      | none => rfl
      | some inner => exact absurd (proper.of_dir? found).1.isDir dirName
    · rw [View.child?, if_neg dirName]

/-- The views that can be reached from a view by looking up subdirectories one after another. -/
inductive Reaches (root : View) : List String → View → Prop
  | root : Reaches root [] root
  | child {names : List String} {view next : View} {name : String} (above : Reaches root names view)
      (found : view.child? name = .ok (some next)) : Reaches root (names ++ [name]) next

/-- Every view that is reached shows a directory of the snapshot. -/
theorem Reaches.shows {path : List String} {root : View} (reaches : Reaches root path view)
    (shows' : root.Shows rule names uid gid inventory) : ∃ uid' gid' inner,
      Inventory.descend path (uid, gid, inventory) = some (uid', gid', inner) ∧
      view.Shows rule (names ++ path) uid' gid' inner := by
  induction reaches with
  | root => exact ⟨uid, gid, inventory, rfl, by rwa [List.append_nil]⟩
  | @child path view next name above found ih =>
    obtain ⟨uid', gid', inner, led, here⟩ := ih
    rcases here.child? name with ⟨uid'', gid'', below, child, known, sought, childShows⟩ | ⟨_, sought⟩
    · obtain rfl := Option.some.inj (Except.ok.inj (sought.symm.trans found))
      refine ⟨uid'', gid'', below, ?_, by rwa [← List.append_assoc]⟩
      rw [Inventory.descend_snoc, led]
      exact known
    · rw [sought] at found
      exact absurd (Except.ok.inj found) (by simp)

end View
end BackupAtlas
