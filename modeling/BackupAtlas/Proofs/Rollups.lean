import BackupAtlas.Proofs.SnapshotOutlines

namespace BackupAtlas

open TreePath

namespace Ledger

variable {α : Type} {ledger : Ledger α}

/-- Each key stands for one entry. -/
theorem Normal.mem_iff {list : List α} (normal : ledger.Normal list) {entry : α} :
    entry ∈ list ↔ ledger.find? (ledger.key entry) list = some entry := by
  refine ⟨fun member => ?_, fun found => (find?_some found).1⟩
  induction list with
  | nil => exact absurd member List.not_mem_nil
  | cons head rest ih =>
    rw [find?_cons]
    rcases List.mem_cons.mp member with rfl | later
    · rw [if_pos rfl]
    · have less := (List.pairwise_cons.mp normal.ascending).1 entry later
      rw [if_neg (Nat.ne_of_lt less), ih normal.tail later]

end Ledger

namespace Tally

/-- The files of one user or group. -/
def own (id : FileStat → Nat) (files : List FileStat) (k : Nat) : List FileStat := files.filter fun file => id file = k

variable {id : FileStat → Nat}

end Tally

namespace Census

open Inventory (Content)

/-- A directory with its contents. -/
def content (tree : DirTree CensusDir) : Content :=
  .dir tree.label.uid tree.label.gid (contents tree.label (items tree.below))

theorem mem_items {forest below : Forest CensusDir} {name : String} {dir : CensusDir}
    (found : forest.find? name = some (dir, below)) : (name, content ⟨dir, below⟩) ∈ items forest := by
  induction forest with
  | nil => exact absurd found (by simp [Forest.find?])
  | cons key dir' below' rest _ ih =>
    rw [Forest.find?] at found
    split at found
    · rename_i same
      cases found
      exact same ▸ List.mem_cons_self
    · exact List.mem_cons_of_mem _ (ih found)

/-- The snapshot with the bytes of the census. -/
def snapshot (census : Census) : StoredTree where
  bytes := census.toBytes
  root := .sound [] (.ofNode [] [⟨census.root, (dirPart census.tree).block⟩])
    (.ofNode census.root (dirPart census.tree).node .done)

/-- The bytes of a census that fits are read back as its snapshot. -/
theorem Fits.reads {census : Census} (fits : census.Fits) :
    StoredTree.ofBytes census.toBytes = .ok census.snapshot := by
  obtain ⟨parts, ready⟩ := ready census.tree.below fun entry member =>
    fits.whole.inside.of_items entry (mem_contents.mpr (Or.inr member))
  obtain ⟨_, _, _, made⟩ := ready.node fits.content census.root
  have room := made.room
  have limit := fits.room
  have bytes : census.toBytes =
      StoredTree.seal (.ofNode [] [(node census.root census.tree.label (nodes census.tree.below)).1]) := rfl
  rw [node_eq] at room bytes
  rw [snapshot, bytes]
  exact ofBytes_single (dirPart census.tree).reads (Nat.lt_of_le_of_lt (Nat.add_le_add_right room _) limit)

end Census

namespace Overlay

end Overlay

namespace Census

variable {root : String} {first : Owner} {entries : List Entry}

/-- A file of the snapshot, with nothing below it. -/
structure Keeps (stat : FileStat) (node : Node) : Prop where
  leaf : node.children = .ok .done
  stored : ∃ data, node.data = .ok data ∧ FileStat.decode data = .ok stat

variable {census : Census} {tree inner : DirTree CensusDir} {names : List String}

section

variable (gathered : Gathered root entries (tree.map CensusDir.files))
include gathered

theorem Gathered.file? (absolute : isAbsoluteDir root) (names : List String) :
    Census.file? names tree = latest root entries names := by
  rcases List.eq_nil_or_concat names with rfl | ⟨dirs, name, rfl⟩
  · cases found : latest root entries [] with
    | none => rfl
    | some stat =>
      obtain ⟨dirs, name, split, _⟩ := names_of_latest absolute found
      exact absurd split (by simp)
  · rw [List.concat_eq_append, ← gathered.files, Census.file?, List.getLast?_concat, List.dropLast_concat,
      Option.bind_some]

end

theorem start_eq {uid gid : Nat} (begun : start root uid gid = .ok census) :
    isAbsoluteDir root ∧ census.root = root ∧ census.tree = { label := { uid, gid } } := by
  rw [start] at begun
  split at begun
  · cases begun
    exact ⟨by assumption, rfl, rfl⟩
  · cases begun

end Census
end BackupAtlas
