import BackupAtlas.Proofs.Paths
import BackupAtlas.Proofs.Sizes
import BackupAtlas.StoredTree

namespace BackupAtlas

open TreePath

/-- The contents of a directory in the order of their names. -/
inductive Inventory where
  | done
  | file (name : String) (stat : FileStat) (rest : Inventory)
  | dir (name : String) (uid gid : Nat) (below rest : Inventory)
  deriving DecidableEq

/-- A file at or below a directory, with the directories that lead to it. -/
structure Inventory.File where
  dirs : List String
  name : String
  stat : FileStat
  deriving DecidableEq

/-- The same file seen from the directory above. -/
def Inventory.File.within (name : String) (file : File) : File := { file with dirs := name :: file.dirs }

namespace Inventory

def files : Inventory → List File
  | done => []
  | file name stat rest => ⟨[], name, stat⟩ :: rest.files
  | dir name _ _ below rest => below.files.map (.within name) ++ rest.files

def stats (inventory : Inventory) : List FileStat := inventory.files.map (·.stat)

def names : Inventory → List String
  | done => []
  | file name _ rest | dir name _ _ _ rest => name :: rest.names

/-- The subdirectory with the given name: its owner and its contents. -/
def dir? (name : String) : Inventory → Option (Nat × Nat × Inventory)
  | done => none
  | file _ _ rest => rest.dir? name
  | dir key uid gid below rest => if name = key then some (uid, gid, below) else rest.dir? name

/-- The names of subdirectories end in a slash, those of files have none, and all ascend. -/
def Proper : Inventory → Prop
  | done => True
  | file name _ rest => '/' ∉ name.toList ∧ (∀ other ∈ rest.names, name < other) ∧ rest.Proper
  | dir name _ _ below rest => IsStep name.toList ∧ (∀ other ∈ rest.names, name < other) ∧ below.Proper ∧ rest.Proper

def OwnersFit : Inventory → Prop
  | done => True
  | file _ _ rest => rest.OwnersFit
  | dir _ uid gid below rest => uid < 2 ^ 32 ∧ gid < 2 ^ 32 ∧ below.OwnersFit ∧ rest.OwnersFit

instance decidableOwnersFit : (inventory : Inventory) → Decidable inventory.OwnersFit
  | done => isTrue trivial
  | file _ _ rest => decidableOwnersFit rest
  | dir _ uid gid below rest =>
    have := decidableOwnersFit below
    have := decidableOwnersFit rest
    inferInstanceAs (Decidable (uid < 2 ^ 32 ∧ gid < 2 ^ 32 ∧ below.OwnersFit ∧ rest.OwnersFit))

/-- As many bytes as nodes for the contents take at most. The figures of a directory may have entries for
every file at or below it. -/
def room : Inventory → Nat
  | done => 0
  | file name _ rest => 100 + (Utf8.encode name).length + rest.room
  | dir name _ _ below rest => 200 + (Utf8.encode name).length + 120 * below.files.length + below.room + rest.room

/-- Contents that can be stored. -/
structure Fits (inventory : Inventory) : Prop where
  owners : inventory.OwnersFit
  files : FilesFit inventory.stats
  room : inventory.room < 2 ^ 64

instance (inventory : Inventory) : Decidable inventory.Fits :=
  decidable_of_iff (inventory.OwnersFit ∧ FilesFit inventory.stats ∧ inventory.room < 2 ^ 64)
    ⟨fun ⟨owners, files, room⟩ => ⟨owners, files, room⟩, fun fits => ⟨fits.owners, fits.files, fits.room⟩⟩

/-- The files with the rule that each is charged to, in a directory to which names lead. -/
def charges (rule : List String → List Char → Nat) (names : List String) (inventory : Inventory) :
    List (Nat × FileStat) :=
  inventory.files.map fun file => (rule (names ++ file.dirs) file.name.toList, file.stat)

section

variable {name : String} {stat : FileStat} {uid gid : Nat} {below rest : Inventory}

theorem stats_dir : (dir name uid gid below rest).stats = below.stats ++ rest.stats := by
  simp only [stats, files, List.map_append, List.map_map]
  rfl

theorem Fits.of_file (fits : (file name stat rest).Fits) : rest.Fits where
  owners := fits.owners
  files := (show FilesFit ([stat] ++ rest.stats) from fits.files).right
  room := by
    have whole := fits.room
    rw [Inventory.room] at whole
    omega

theorem Fits.inside (fits : (dir name uid gid below rest).Fits) : below.Fits where
  owners := fits.owners.2.2.1
  files := (stats_dir ▸ fits.files : FilesFit (below.stats ++ rest.stats)).left
  room := by
    have whole := fits.room
    rw [Inventory.room] at whole
    omega

theorem Fits.of_dir (fits : (dir name uid gid below rest).Fits) : rest.Fits where
  owners := fits.owners.2.2.2
  files := (stats_dir ▸ fits.files : FilesFit (below.stats ++ rest.stats)).right
  room := by
    have whole := fits.room
    rw [Inventory.room] at whole
    omega

variable (rule : List String → List Char → Nat) (names : List String)

theorem charges_file : charges rule names (file name stat rest) = (rule names name.toList, stat) ::
    charges rule names rest := by
  simp only [charges, files, List.map_cons, List.append_nil]

theorem charges_dir :
    charges rule names (dir name uid gid below rest) = charges rule (names ++ [name]) below ++
    charges rule names rest := by
  simp only [charges, files, List.map_append, List.map_map, Function.comp_def, File.within, List.append_assoc,
    List.singleton_append]

/-- Every file is charged once. -/
theorem charges_stats (inventory : Inventory) : (charges rule names inventory).map (·.2) = inventory.stats := by
  rw [charges, List.map_map]
  rfl

/-- What is charged fits if the inventory and the ids do. -/
theorem Fits.charges {inventory : Inventory} (fits : inventory.Fits) (small : ∀ names rest, rule names rest < 2 ^ 64) :
    Share.ChargesFit (inventory.charges rule names) where
  rules charge member := by
    obtain ⟨file, _, rfl⟩ := List.mem_map.mp member
    exact small _ _
  files := by
    rw [charges_stats]
    exact fits.files

/-- If one rule has all files, they can be charged to it at once. -/
theorem charges_uniform {inventory : Inventory} {r : Nat}
    (all : ∀ file ∈ inventory.files, rule (names ++ file.dirs) file.name.toList = r) :
    inventory.charges rule names = inventory.stats.map (r, ·) := by
  rw [charges, stats, List.map_map]
  exact List.map_congr_left fun file member => by rw [all file member]; rfl

end

/-- Nodes with the contents, in whatever blocks. -/
inductive Stored : Inventory → Nodes → Prop
  | done : Stored .done .done
  | file {name : String} {stat : FileStat} {rest : Inventory} {data : Bytes} {block : Block} {below others : Nodes}
      (decoded : FileStat.decode data = .ok stat) (behind : Stored rest others) :
      Stored (.file name stat rest) (.entry name data block below others)
  | dir {name : String} {uid gid : Nat} {below rest : Inventory} {data : Bytes} {block : Block} {inner others : Nodes}
      (decoded : DirStat.decode data = .ok (.ofFiles uid gid below.stats))
      (owned : DirStat.decodeOwner data = .ok ⟨uid, gid⟩) (inside : Stored below inner) (behind : Stored rest others) :
      Stored (.dir name uid gid below rest) (.entry name data block inner others)

end Inventory
end BackupAtlas
