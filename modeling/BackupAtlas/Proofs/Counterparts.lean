import BackupAtlas.Build
import BackupAtlas.Proofs.Classifications

namespace BackupAtlas

open TreePath

/-- What a counterpart says of the contents of the directory to which names lead is right. It may only be
missing when that is allowed. -/
inductive Counterpart.Right (rule : List String → List Char → Nat) (missing : Prop) (names : List String)
    (inventory : Inventory) : Counterpart → Prop
  | absent (allowed : missing) : Right rule missing names inventory .absent
  | uniform {r : Nat} (word : r < 2 ^ 64)
      (all : ∀ file ∈ inventory.files, rule (names ++ file.dirs) file.name.toList = r) :
      Right rule missing names inventory (.uniform r)
  | node {dir : TaggedDir} {block : Block} {nodes : Nodes} (fits : dir.Fits)
      (tagging : dir.tagging = .shares (Share.tabulate (inventory.charges rule names)))
      (reads : block.Reads (.sound dir.encode block nodes)) (short : block.bytes.length ≤ inventory.span)
      (inside : inventory.Classified rule names nodes) :
        Right rule missing names inventory (.node (.sound dir.encode block nodes))

/-- Only the rules of the files matter. -/
theorem Counterpart.Right.congr {rule rule' : List String → List Char → Nat} {missing missing' : Prop}
    {names : List String}
    {inventory : Inventory} {counterpart : Counterpart} (right : counterpart.Right rule missing names inventory)
    (same : ∀ file ∈ inventory.files, rule (names ++ file.dirs) file.name.toList =
    rule' (names ++ file.dirs) file.name.toList)
    (weaker : missing → missing') : counterpart.Right rule' missing' names inventory := by
  cases right with
  | absent allowed => exact .absent (weaker allowed)
  | uniform word all => exact .uniform word fun file member => (same file member).symm.trans (all file member)
  | node fits tagging reads short inside =>
    have charged : inventory.charges rule names = inventory.charges rule' names :=
      List.map_congr_left fun file member => by rw [same file member]
    exact .node fits (charged ▸ tagging) reads short (inside.congr same)

namespace Inventory

variable {rule : List String → List Char → Nat} {names : List String}

/-- What an entry of a tagged tree stands for. -/
theorem Classified.ofNode (missing : Prop) {name : String} {uid gid : Nat} {below rest : Inventory} {nodes : Nodes}
    (classified : Classified rule names (.dir name uid gid below rest) nodes) : ∃ data block inner others found,
      nodes = .entry name data block inner others ∧ Counterpart.ofNode (.sound data block inner) = .ok found ∧
      found.Right rule missing (names ++ [name]) below ∧ Classified rule names rest others := by
  cases classified with
  | @uniform _ _ _ _ r _ _ dir block others fits tagging all reads short behind =>
    have word : dir.tagging.Fits := fits.tagging
    rw [tagging] at word
    refine ⟨_, _, _, _, .uniform r, rfl, ?_, .uniform word all, behind⟩
    change (TaggedDir.decodeUniform? dir.encode >>= _) = _
    rw [TaggedDir.decodeUniform?_encode fits, TaggedDir.uniform?, tagging]
    rfl
  | @shares _ _ _ _ _ _ dir block inner others fits tagging reads short inside behind =>
    refine ⟨_, _, _, _, .node (.sound dir.encode block inner), rfl, ?_, .node fits tagging reads short inside, behind⟩
    change (TaggedDir.decodeUniform? dir.encode >>= _) = _
    rw [TaggedDir.decodeUniform?_encode fits, TaggedDir.uniform?, tagging]
    rfl

end Inventory

namespace PriorChildren

/-- Entries of which the first stand before all names that are still to come. -/
inductive Trails (upper : Nodes) (coming : List String) : Nodes → Prop
  | here : Trails upper coming upper
  | skip {key : String} {data : Bytes} {block : Block} {below rest : Nodes} (before : ∀ name ∈ coming, key < name)
      (behind : Trails upper coming rest) : Trails upper coming (.entry key data block below rest)

/-- What is still to be read of a counterpart is right about the contents that are still to come. -/
inductive Right (rule : List String → List Char → Nat) (missing : Prop) (names : List String) (inventory : Inventory) :
    PriorChildren → Prop
  | absent (allowed : missing) : Right rule missing names inventory .absent
  | uniform {r : Nat} (word : r < 2 ^ 64)
      (all : ∀ file ∈ inventory.files, rule (names ++ file.dirs) file.name.toList = r) :
      Right rule missing names inventory (.uniform r)
  | listed {upper nodes : Nodes} (inside : inventory.Classified rule names upper)
      (trails : Trails upper inventory.names nodes) : Right rule missing names inventory (.listed none nodes)

variable {rule : List String → List Char → Nat} {missing : Prop} {names : List String}
    {inventory below rest : Inventory}
variable {upper nodes : Nodes} {name : String} {stat : FileStat} {uid gid : Nat} {prior : PriorChildren}

/-- Fewer names may be still to come. -/
theorem Trails.mono {coming fewer : List String} (trails : Trails upper coming nodes) (held : fewer ⊆ coming) :
    Trails upper fewer nodes := by
  induction trails with
  | here => exact .here
  | skip before _ ih => exact .skip (fun name member => before name (held member)) ih

/-- Entries that stand before all names are read on the way to what is behind them. -/
theorem Trails.cons {coming : List String} {key : String} {data : Bytes} {block : Block} {inner : Nodes}
    (trails : Trails (.entry key data block inner upper) coming nodes) (before : ∀ name ∈ coming, key < name) :
    Trails upper coming nodes := by
  induction trails with
  | here => exact .skip before .here
  | skip first _ ih => exact .skip first ih

/-- The children of a right counterpart are right. -/
theorem ofCounterpart_right {counterpart : Counterpart} (right : counterpart.Right rule missing names inventory) :
    ∃ prior, ofCounterpart counterpart = .ok prior ∧ prior.Right rule missing names inventory := by
  cases right with
  | absent allowed => exact ⟨_, rfl, .absent allowed⟩
  | uniform word all => exact ⟨_, rfl, .uniform word all⟩
  | node fits tagging reads short inside => exact ⟨_, rfl, .listed inside .here⟩

/-- A file in the snapshot has no entry of its own beside it. -/
theorem Right.of_file (right : prior.Right rule missing names (.file name stat rest)) :
    prior.Right rule missing names rest := by
  cases right with
  | absent allowed => exact .absent allowed
  | uniform word all => exact .uniform word fun file member => all file (List.mem_cons_of_mem _ member)
  | listed inside trails =>
    cases inside with
    | file behind => exact .listed behind (trails.mono (List.subset_cons_self _ _))

theorem uniform_dir {r : Nat}
    (all : ∀ file ∈ (Inventory.dir name uid gid below rest).files, rule (names ++ file.dirs) file.name.toList = r) :
    (∀ file ∈ below.files, rule (names ++ [name] ++ file.dirs) file.name.toList = r) ∧
      ∀ file ∈ rest.files, rule (names ++ file.dirs) file.name.toList = r := by
  refine ⟨fun file member => ?_, fun file member => all file (List.mem_append_right _ member)⟩
  simpa [Inventory.File.within] using all (file.within name) (List.mem_append_left _ (List.mem_map_of_mem member))

/-- The counterpart of a subdirectory may be passed over. -/
theorem Right.of_dir (right : prior.Right rule missing names (.dir name uid gid below rest))
    (first : ∀ other ∈ rest.names, name < other) : prior.Right rule missing names rest := by
  cases right with
  | absent allowed => exact .absent allowed
  | uniform word all => exact .uniform word (uniform_dir all).2
  | listed inside trails =>
    obtain ⟨data, block, inner, others, _, rfl, _, _, behind⟩ := inside.ofNode False
    exact .listed behind ((trails.mono (List.subset_cons_self _ _)).cons first)

/-- The search comes to the entry with the name. -/
theorem advance_eq {coming : List String} {data : Bytes} {block : Block} {inner others : Nodes}
    (trails : Trails (.entry name data block inner others) (name :: coming) nodes) (visited : Nat) :
    ∃ count, advance name visited nodes =
      (Counterpart.ofNode (.sound data block inner)).map fun found => (found, .listed none others, count) := by
  induction trails generalizing visited with
  | here =>
    refine ⟨visited + 1, ?_⟩
    rw [advance, settle, if_neg (String.lt_irrefl name), if_pos rfl]
    rfl
  | skip before _ ih =>
    obtain ⟨count, later⟩ := ih (visited + 1)
    refine ⟨count, ?_⟩
    rw [advance, settle, if_pos (before name List.mem_cons_self)]
    exact later

theorem advance_trails {data : Bytes} {block : Block} {inner others : Nodes} {found : Counterpart}
    (trails : Trails (.entry name data block inner others) (name :: inventory.names) nodes)
    (counterpart : Counterpart.ofNode (.sound data block inner) = .ok found) (visited : Nat) :
    ∃ count, advance name visited nodes = .ok (found, .listed none others, count) := by
  obtain ⟨count, same⟩ := advance_eq trails visited
  rw [counterpart] at same
  exact ⟨count, same⟩

/-- The search finds the counterpart of the next subdirectory. -/
theorem seek_right (right : prior.Right rule missing names (.dir name uid gid below rest)) :
    ∃ found next count, seek name prior = .ok (found, next, count) ∧
      found.Right rule missing (names ++ [name]) below ∧ next.Right rule missing names rest := by
  cases right with
  | absent allowed => exact ⟨_, _, _, rfl, .absent allowed, .absent allowed⟩
  | uniform word all => exact ⟨_, _, _, rfl, .uniform word (uniform_dir all).1, .uniform word (uniform_dir all).2⟩
  | listed inside trails =>
    obtain ⟨data, block, inner, others, found, rfl, counterpart, right, behind⟩ := inside.ofNode missing
    obtain ⟨count, sought⟩ := advance_trails trails counterpart 0
    exact ⟨_, _, count, sought, right, .listed behind .here⟩

end PriorChildren
end BackupAtlas
