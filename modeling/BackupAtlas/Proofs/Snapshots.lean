import BackupAtlas.Overlay
import BackupAtlas.Proofs.Builds
import BackupAtlas.Proofs.Recording

namespace BackupAtlas

open TreePath

namespace Inventory

/-- A file, or a directory with what it holds. -/
inductive Content where
  | file (stat : FileStat)
  | dir (uid gid : Nat) (below : Inventory)

def ofItems : List (String × Content) → Inventory
  | [] => done
  | (name, .file stat) :: rest => file name stat (ofItems rest)
  | (name, .dir uid gid below) :: rest => dir name uid gid below (ofItems rest)

namespace Content

def files (name : String) : Content → List File
  | file stat => [⟨[], name, stat⟩]
  | dir _ _ below => below.files.map (.within name)

def room (name : String) : Content → Nat
  | file _ => 100 + (Utf8.encode name).length
  | dir _ _ below => 200 + (Utf8.encode name).length + 120 * below.files.length + below.room

def Proper (name : String) : Content → Prop
  | file _ => '/' ∉ name.toList
  | dir _ _ below => IsStep name.toList ∧ below.Proper

def Fits : Content → Prop
  | file stat => stat.Fits
  | dir uid gid below => uid < 2 ^ 32 ∧ gid < 2 ^ 32 ∧ below.Fits ∧ below.span < 2 ^ 64

/-- A node that stands for an item. -/
def IsNode (node : Node) : Content → Prop
  | file stat => ∃ data block below, node = .sound data block below ∧ FileStat.decode data = .ok stat
  | dir uid gid below => below.IsTop uid gid node

end Content

variable {items : List (String × Content)}

theorem files_ofItems (items : List (String × Content)) :
    (ofItems items).files = items.flatMap fun entry => entry.2.files entry.1 := by
  induction items with
  | nil => rfl
  | cons entry items ih =>
    obtain ⟨name, item⟩ := entry
    cases item with
    | file stat => rw [ofItems, files, ih]; rfl
    | dir uid gid below => rw [ofItems, files, ih]; rfl

theorem room_ofItems (items : List (String × Content)) :
    (ofItems items).room = (items.map fun entry => entry.2.room entry.1).sum := by
  induction items with
  | nil => rfl
  | cons entry items ih =>
    obtain ⟨name, item⟩ := entry
    cases item with
    | file stat => rw [ofItems, room, ih, List.map_cons, List.sum_cons]; rfl
    | dir uid gid below => rw [ofItems, room, ih, List.map_cons, List.sum_cons]; rfl

theorem names_ofItems (items : List (String × Content)) : (ofItems items).names = items.map (·.1) := by
  induction items with
  | nil => rfl
  | cons entry items ih =>
    obtain ⟨name, item⟩ := entry
    cases item with
    | file stat => rw [ofItems, names, ih]; rfl
    | dir uid gid below => rw [ofItems, names, ih]; rfl

theorem proper_ofItems (each : ∀ entry ∈ items, entry.2.Proper entry.1) (ascending : items.Pairwise (·.1 < ·.1)) :
    (ofItems items).Proper := by
  induction items with
  | nil => trivial
  | cons entry items ih =>
    obtain ⟨name, item⟩ := entry
    obtain ⟨first, tail⟩ := List.pairwise_cons.mp ascending
    have rest := ih (fun other member => each other (List.mem_cons_of_mem _ member)) tail
    have here : item.Proper name := each _ List.mem_cons_self
    have above : ∀ other ∈ (ofItems items).names, name < other := by
      intro other member
      rw [names_ofItems] at member
      obtain ⟨next, listed, rfl⟩ := List.mem_map.mp member
      exact first next listed
    cases item with
    | file stat => exact ⟨here, above, rest⟩
    | dir uid gid below => exact ⟨here.1, above, here.2, rest⟩

theorem Fits.of_items (fits : (ofItems items).Fits) : ∀ entry ∈ items, entry.2.Fits := by
  induction items with
  | nil => exact fun entry member => absurd member List.not_mem_nil
  | cons entry items ih =>
    obtain ⟨name, item⟩ := entry
    intro other member
    cases item with
    | file stat =>
      rcases List.mem_cons.mp member with rfl | later
      · exact fits.files.each stat List.mem_cons_self
      · exact ih fits.of_file other later
    | dir uid gid below =>
      rcases List.mem_cons.mp member with rfl | later
      · exact ⟨fits.owners.1, fits.owners.2.1, fits.inside, fits.span⟩
      · exact ih fits.of_dir other later

/-- Nodes that stand for items one by one hold all of them. -/
theorem stored_ofItems {entries : List (String × Content × Node)} (each : ∀ entry ∈ entries,
    entry.2.1.IsNode entry.2.2) :
    (ofItems (entries.map (Prod.map id Prod.fst))).Stored (.ofList (entries.map (Prod.map id Prod.snd))) := by
  induction entries with
  | nil => exact .done
  | cons entry entries ih =>
    obtain ⟨name, item, node⟩ := entry
    have rest := ih fun other member => each other (List.mem_cons_of_mem _ member)
    have here : item.IsNode node := each _ List.mem_cons_self
    cases item with
    | file stat =>
      obtain ⟨data, block, below, rfl, decoded⟩ := here
      exact .file decoded rest
    | dir uid gid below =>
      cases here with
      | sound decoded owned stored => exact .dir decoded owned stored rest

end Inventory
namespace Census

open Inventory (Content ofItems)

/-- The contents of a directory, given its subdirectories. -/
def contents (dir : CensusDir) (subs : List (String × Content)) : Inventory :=
  .ofItems (Piece.sort (dir.files.entries.map (fun entry => (entry.1, .file entry.2)) ++ subs))

def items : Forest CensusDir → List (String × Content)
  | .nil => []
  | .cons name dir below rest => (name, .dir dir.uid dir.gid (contents dir (items below))) :: items rest

/-- What the directory holds of which a census has been taken. -/
def inventory (census : Census) : Inventory := contents census.tree.label (items census.tree.below)

/-- The directory itself among its contents. -/
def whole (census : Census) : Inventory :=
  .dir census.root census.tree.label.uid census.tree.label.gid census.inventory .done

theorem names_items (forest : Forest CensusDir) : (items forest).map (·.1) = forest.names := by
  induction forest with
  | nil => rfl
  | cons name dir below rest _ ih => rw [items, List.map_cons, ih, Forest.names]

theorem mem_contents {dir : CensusDir} {subs : List (String × Content)} {entry : String × Content} :
    entry ∈ Piece.sort (dir.files.entries.map (fun entry => (entry.1, .file entry.2)) ++ subs) ↔
      (∃ file ∈ dir.files.entries, entry = (file.1, .file file.2)) ∨ entry ∈ subs := by
  rw [(Piece.sort_perm _).mem_iff, List.mem_append, List.mem_map]
  simp only [eq_comm]

theorem nodup_of_ascending {names : List String} (ascending : names.Pairwise (· < ·)) : names.Nodup := by
  refine ascending.imp ?_
  rintro a b less rfl
  exact String.lt_irrefl _ less

/-- Names of files and names of steps differ. -/
theorem contents_proper {dir : CensusDir} {subs : List (String × Content)} (plain : dir.Plain)
    (each : ∀ entry ∈ subs, entry.2.Proper entry.1) (steps : ∀ entry ∈ subs, IsStep entry.1.toList)
    (ascending : (subs.map (·.1)).Pairwise (· < ·)) : (contents dir subs).Proper := by
  refine Inventory.proper_ofItems (fun entry member => ?_) (Piece.sort_pairwise ?_)
  · rcases mem_contents.mp member with ⟨file, listed, rfl⟩ | sub
    · exact (plain file listed).2
    · exact each entry sub
  · rw [List.map_append, List.map_map]
    refine List.nodup_append.mpr ⟨?_, ?_, ?_⟩
    · exact nodup_of_ascending (List.pairwise_map.mpr dir.files.ascending)
    · exact nodup_of_ascending ascending
    · rintro name first other second rfl
      obtain ⟨file, listed, rfl⟩ := List.mem_map.mp first
      obtain ⟨entry, sub, same⟩ := List.mem_map.mp second
      obtain ⟨stem, _, ends⟩ := steps entry sub
      refine (plain file listed).2 ?_
      have equal : entry.1 = file.1 := same
      rw [← equal, ends]
      exact List.mem_append_right _ (List.mem_singleton_self _)

theorem items_proper {forest : Forest CensusDir} (neat : forest.Neat) :
    (∀ entry ∈ items forest, entry.2.Proper entry.1) ∧ (∀ entry ∈ items forest, IsStep entry.1.toList) ∧
      ((items forest).map (·.1)).Pairwise (· < ·) := by
  induction forest with
  | nil => exact ⟨fun _ member => absurd member List.not_mem_nil, fun _ member => absurd member List.not_mem_nil, .nil⟩
  | cons name dir below rest ihBelow ihRest =>
    obtain ⟨step, plain, above, neatBelow, neatRest⟩ := neat
    obtain ⟨each, steps, ascending⟩ := ihBelow neatBelow
    obtain ⟨eachRest, stepsRest, ascendingRest⟩ := ihRest neatRest
    refine ⟨fun entry member => ?_, fun entry member => ?_, List.pairwise_cons.mpr ⟨?_, ascendingRest⟩⟩
    · rcases List.mem_cons.mp member with rfl | later
      · exact ⟨step, contents_proper plain each steps ascending⟩
      · exact eachRest entry later
    · rcases List.mem_cons.mp member with rfl | later
      · exact step
      · exact stepsRest entry later
    · rw [names_items]
      exact above

theorem Sound.proper {census : Census} (sound : census.Sound) : census.inventory.Proper := by
  obtain ⟨each, steps, ascending⟩ := items_proper sound.tidy.2
  exact contents_proper sound.tidy.1 each steps ascending

/-- A piece of a snapshot with the item that it is and the node that it is read back as. -/
structure Part where
  piece : Piece
  item : Content
  node : Node

/-- The node is read from the piece, stands for the item and does not take more room than it may. -/
structure Part.Made (part : Part) : Prop where
  reads : part.piece.block.Reads part.node
  isNode : part.item.IsNode part.node
  room : part.piece.room ≤ part.item.room part.piece.name

/-- The statistics of a directory; files have none. -/
def stat? : Content → DirStat
  | .file _ => {}
  | .dir uid gid below => .ofFiles uid gid below.stats

def Part.named (part : Part) : String × Content × Node := (part.piece.name, part.item, part.node)

theorem sort_parts (parts : List Part) :
    Piece.sort (parts.map fun part => (part.piece.name, part.item)) =
    (Piece.sort (parts.map Part.named)).map (Prod.map id Prod.fst) ∧
      Piece.sort (parts.map fun part => (part.piece.name, part.node)) =
        (Piece.sort (parts.map Part.named)).map (Prod.map id Prod.snd) := by
  rw [← Piece.sort_map, ← Piece.sort_map, List.map_map, List.map_map]
  exact ⟨rfl, rfl⟩

theorem parts_made {parts : List Part} (made : ∀ part ∈ parts, part.Made) {uid gid : Nat} {inventory : Inventory}
    (same : inventory = ofItems (Piece.sort (parts.map fun part => (part.piece.name, part.item))))
    (fits : (Content.dir uid gid inventory).Fits) (name : String) :
    ∃ node, Part.Made ⟨⟨name, .ofNode (DirStat.encode (.ofFiles uid gid inventory.stats)) (parts.map (·.piece))⟩,
      .dir uid gid inventory, node⟩ := by
  obtain ⟨user, group, inside, span⟩ := fits
  generalize dataEq : DirStat.encode (.ofFiles uid gid inventory.stats) = data
  have each : ∀ child ∈ parts.map fun part => (part.piece, part.node), child.1.block.Reads child.2 := by
    intro child member
    obtain ⟨part, listed, rfl⟩ := List.mem_map.mp member
    exact (made part listed).reads
  have standing : ∀ entry ∈ Piece.sort (parts.map Part.named), entry.2.1.IsNode entry.2.2 := by
    intro entry member
    obtain ⟨part, listed, rfl⟩ := List.mem_map.mp ((Piece.sort_perm _).mem_iff.mp member)
    exact (made part listed).isNode
  have reads := Block.ofNode_reads data each
  rw [List.map_map, List.map_map] at reads
  change (Block.ofNode data (parts.map (·.piece))).Reads (.sound data (Block.ofNode data (parts.map (·.piece)))
    (.ofList (Piece.sort (parts.map fun part => (part.piece.name, part.node))))) at reads
  have stored := Inventory.stored_ofItems standing
  rw [(sort_parts parts).2] at reads
  rw [← (sort_parts parts).1, ← same] at stored
  have decoded := DirStat.decode_encode (DirStat.ofFiles_fits user group inside.files)
  have owned := DirStat.decodeOwner_encode (DirStat.ofFiles_fits user group inside.files)
  refine ⟨_, reads, .sound (dataEq ▸ decoded) ?_ stored, ?_⟩
  · rw [← dataEq, owned, DirStat.ofFiles_eq]
  · have short := DirStat.length_encode_le user group inside.files
    rw [Inventory.stats, List.length_map, ← Inventory.stats, dataEq] at short
    have room : ((parts.map (·.piece)).map Piece.room).sum ≤ inventory.room := by
      rw [same, Inventory.room_ofItems, ((Piece.sort_perm _).map _).sum_eq, List.map_map, List.map_map]
      exact List.sum_le_sum fun part member => (made part member).room
    rw [Inventory.span] at span
    have length : (Block.ofNode data (parts.map (·.piece))).bytes.length ≤ _ := Block.length_ofNode_le
      (by omega) (by omega)
    simp only [Piece.room, Content.room]
    omega

theorem file_made {stat : FileStat} (fits : stat.Fits) (name : String) :
    Part.Made ⟨⟨name, .ofNode stat.encode []⟩, .file stat, .sound stat.encode (.ofNode stat.encode []) .done⟩ := by
  refine ⟨Block.leaf_reads _, ⟨_, _, _, rfl, FileStat.decode_encode fits⟩, ?_⟩
  have user := Varint.length_encode_le 9 (Nat.lt_trans fits.uid (by decide))
  have group := Varint.length_encode_le 9 (Nat.lt_trans fits.gid (by decide))
  have mtime := Varint.length_encode_le 9 (Nat.lt_trans fits.mtime (by decide))
  have size := Varint.length_encode_le 9 (Nat.lt_trans fits.size (by decide))
  have short : stat.encode.length ≤ 40 := by
    simp only [FileStat.encode, List.length_append]
    omega
  have leaf := Block.length_leaf_le short
  simp only [Piece.room, Content.room]
  omega

theorem foldl_addDir (forest : Forest CensusDir) (uid gid : Nat) (seen : List FileStat) :
    ((items forest).map fun entry => stat? entry.2).foldl DirStat.addDir (.ofFiles uid gid seen) =
      .ofFiles uid gid (seen ++ (items forest).flatMap fun entry => (entry.2.files entry.1).map (·.stat)) := by
  induction forest generalizing seen with
  | nil => rw [items, List.map_nil, List.foldl_nil, List.flatMap_nil, List.append_nil]
  | cons name dir below rest _ ih =>
    rw [items, List.map_cons, List.foldl_cons, stat?, DirStat.addDir_ofFiles, ih, List.flatMap_cons, List.append_assoc,
      Content.files, List.map_map]
    rfl

/-- The statistics of a directory are those of all files at or below it. -/
theorem stat_eq (dir : CensusDir) (forest : Forest CensusDir) :
    stat dir ((items forest).map fun entry => stat? entry.2) =
      .ofFiles dir.uid dir.gid (contents dir (items forest)).stats := by
  have own := foldl_addDir forest dir.uid dir.gid dir.files.values
  rw [stat]
  refine own.trans (DirStat.ofFiles_perm _ _ ?_)
  have sorted := (Piece.sort_perm (dir.files.entries.map (fun entry => (entry.1, Content.file entry.2)) ++
    items forest)).flatMap_right
    fun entry => (entry.2.files entry.1).map (·.stat)
  rw [contents, Inventory.stats, Inventory.files_ofItems, List.map_flatMap]
  refine List.Perm.trans ?_ sorted.symm
  rw [List.flatMap_append, List.flatMap_map]
  refine (List.Perm.of_eq ?_).append_right _
  rw [Catalog.values]
  exact List.map_eq_flatMap ..

def fileParts (dir : CensusDir) : List Part :=
  dir.files.entries.map fun entry =>
    ⟨⟨entry.1, .ofNode entry.2.encode []⟩, .file entry.2, .sound entry.2.encode (.ofNode entry.2.encode []) .done⟩

/-- The subdirectories have been made. -/
structure Ready (forest : Forest CensusDir) (parts : List Part) : Prop where
  made : ∀ part ∈ parts, part.Made
  pieces : (nodes forest).map (·.1) = parts.map (·.piece)
  stats : (nodes forest).map (·.2) = (items forest).map fun entry => stat? entry.2
  items : items forest = parts.map fun part => (part.piece.name, part.item)

theorem Ready.node {dir : CensusDir} {forest : Forest CensusDir} {parts : List Part} (ready : Ready forest parts)
    (fits : (Content.dir dir.uid dir.gid (contents dir (Census.items forest))).Fits) (name : String) :
    ∃ read, (Census.node name dir (nodes forest)).2 =
    .ofFiles dir.uid dir.gid (contents dir (Census.items forest)).stats ∧
      (Census.node name dir (nodes forest)).1.name = name ∧
      Part.Made ⟨(Census.node name dir (nodes forest)).1, .dir dir.uid dir.gid (contents dir (Census.items forest)),
        read⟩ := by
  have stats := stat_eq dir forest
  rw [← ready.stats] at stats
  have made : ∀ part ∈ fileParts dir ++ parts, part.Made := by
    intro part member
    rcases List.mem_append.mp member with file | sub
    · obtain ⟨entry, listed, rfl⟩ := List.mem_map.mp file
      have each := fits.2.2.1.of_items (entry.1, .file entry.2) (mem_contents.mpr (Or.inl ⟨entry, listed, rfl⟩))
      exact file_made each entry.1
    · exact ready.made part sub
  have same : contents dir (Census.items forest) =
      ofItems (Piece.sort ((fileParts dir ++ parts).map fun part => (part.piece.name, part.item))) := by
    rw [contents, ready.items, List.map_append, fileParts, List.map_map]
    rfl
  obtain ⟨read, whole⟩ := parts_made made same fits name
  refine ⟨read, stats, rfl, ?_⟩
  have pieces : (fileParts dir ++ parts).map (·.piece) =
      dir.files.entries.map (fun entry => ⟨entry.1, .ofNode entry.2.encode []⟩) ++ (nodes forest).map (·.1) := by
    rw [List.map_append, ready.pieces, fileParts, List.map_map]
    rfl
  rw [pieces, ← stats] at whole
  exact whole

theorem ready (forest : Forest CensusDir) (fits : ∀ entry ∈ items forest, entry.2.Fits) :
    ∃ parts, Ready forest parts := by
  induction forest with
  | nil => exact ⟨[], fun part member => absurd member List.not_mem_nil, rfl, rfl, rfl⟩
  | cons name dir below rest ihBelow ihRest =>
    have here : (Content.dir dir.uid dir.gid (contents dir (items below))).Fits := fits _ List.mem_cons_self
    obtain ⟨parts, readyBelow⟩ := ihBelow fun entry member =>
      here.2.2.1.of_items entry (mem_contents.mpr (Or.inr member))
    obtain ⟨others, readyRest⟩ := ihRest fun entry member => fits entry (List.mem_cons_of_mem _ member)
    obtain ⟨read, stat, named, made⟩ := readyBelow.node here name
    refine ⟨⟨(node name dir (nodes below)).1, .dir dir.uid dir.gid (contents dir (items below)), read⟩ :: others,
      ?_, ?_, ?_, ?_⟩
    · intro part member
      rcases List.mem_cons.mp member with rfl | later
      · exact made
      · exact readyRest.made part later
    · rw [nodes, List.map_cons, List.map_cons, readyRest.pieces]
    · rw [nodes, List.map_cons, items, List.map_cons, readyRest.stats, stat, stat?]
    · rw [items, List.map_cons, readyRest.items, named]

/-- A census whose snapshot can be written down, and with it every tagged tree of it. -/
structure Fits (census : Census) : Prop where
  whole : census.whole.Fits
  span : census.whole.span < 2 ^ 64

instance (census : Census) : Decidable census.Fits :=
  decidable_of_iff (census.whole.Fits ∧ census.whole.span < 2 ^ 64)
    ⟨fun ⟨whole, span⟩ => ⟨whole, span⟩, fun fits => ⟨fits.whole, fits.span⟩⟩

theorem Fits.content {census : Census} (fits : census.Fits) :
    (Content.dir census.tree.label.uid census.tree.label.gid census.inventory).Fits :=
  ⟨fits.whole.owners.1, fits.whole.owners.2.1, fits.whole.inside, fits.whole.span⟩

theorem Fits.room {census : Census} (fits : census.Fits) :
    (Content.dir census.tree.label.uid census.tree.label.gid census.inventory).room census.root + 100 < 2 ^ 64 := by
  have span := fits.span
  rw [Inventory.span, Census.whole, Inventory.room, Inventory.room] at span
  rw [Content.room]
  omega

theorem Fits.mountable {census : Census} (fits : census.Fits) (sound : census.Sound) :
    census.inventory.Mountable census.tree.label.uid census.tree.label.gid where
  proper := sound.proper
  fits := fits.whole.inside
  owner := ⟨fits.whole.owners.1, fits.whole.owners.2.1⟩
  small := by
    have room := fits.room
    rw [Content.room] at room
    rw [Inventory.span]
    omega

theorem ofBytes_single {piece : Piece} {data : Bytes} {block : Block} {below : Nodes}
    (reads : piece.block.Reads (.sound data block below)) (small : piece.room + 100 < 2 ^ 64) :
    StoredTree.ofBytes (StoredTree.seal (.ofNode [] [piece])) =
      .ok ⟨StoredTree.seal (.ofNode [] [piece]),
        .sound [] (.ofNode [] [piece]) (.entry piece.name data block below .done)⟩ := by
  have each : ∀ child ∈ [(piece, Node.sound data block below)], child.1.block.Reads child.2 := by
    intro child member
    rw [List.mem_singleton.mp member]
    exact reads
  refine StoredTree.ofBytes_seal (Block.ofNode_reads [] each) ?_
  have header : StoredTree.magic.length = 8 := rfl
  have sum : ([piece].map Piece.room).sum = piece.room := Nat.add_zero _
  have body : (Block.ofNode [] [piece]).bytes.length ≤ _ := Block.length_ofNode_le (by omega) (by decide)
  rw [sum, List.length_nil] at body
  simp only [StoredTree.seal, List.length_append, StoredTree.length_littleEndian]
  omega

/-- The bytes of a census can be opened, and mounted as a snapshot of its root with its contents. -/
theorem Fits.opens {census : Census} (fits : census.Fits) (sound : census.Sound) : ∃ lower top,
    StoredTree.ofBytes census.toBytes = .ok lower ∧
      (∀ source, Overlay.ofTree lower source = .ok ⟨census.root, lower, top, none⟩) ∧
      census.inventory.IsTop census.tree.label.uid census.tree.label.gid top := by
  obtain ⟨parts, ready⟩ := ready census.tree.below fun entry member =>
    fits.whole.inside.of_items entry (mem_contents.mpr (Or.inr member))
  obtain ⟨top, _, named, made⟩ := ready.node fits.content census.root
  have bytes : census.toBytes =
      StoredTree.seal (.ofNode [] [(node census.root census.tree.label (nodes census.tree.below)).1]) := rfl
  rw [bytes]
  generalize (node census.root census.tree.label (nodes census.tree.below)).1 = piece at named made ⊢
  have isTop : census.inventory.IsTop census.tree.label.uid census.tree.label.gid top := made.isNode
  have room : piece.room ≤ (Content.dir _ _ census.inventory).room piece.name := made.room
  have reads : piece.block.Reads top := made.reads
  have limit := fits.room
  rw [named] at room
  cases isTop with
  | @sound data block below decoded owned stored =>
    refine ⟨_, .sound data block below, ofBytes_single reads (by omega), fun source => ?_, .sound decoded owned stored⟩
    have absolute := sound.absolute
    rw [← named] at absolute ⊢
    simp only [Overlay.ofTree, Node.children, bind, Except.bind, if_pos absolute]
    rfl

end Census
end BackupAtlas
