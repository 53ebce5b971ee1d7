import BackupAtlas.Proofs.Inventories

namespace BackupAtlas

open TreePath

namespace Piece

/-- What is ascending already stays as it is. -/
theorem sort_ascending {α : Type} {entries : List (String × α)} (ascending : entries.Pairwise (·.1 < ·.1)) :
    sort entries = entries := by
  induction entries with
  | nil => rfl
  | cons head rest ih =>
    obtain ⟨first, tail⟩ := List.pairwise_cons.mp ascending
    change insert head.1 head.2 (sort rest) = _
    rw [ih tail]
    cases rest with
    | nil => rfl
    | cons next rest =>
      have notLess : ¬ next.1 < head.1 := String.lt_asymm (first next List.mem_cons_self)
      rw [insert, if_neg notLess]

end Piece

namespace Block

/-- The block of a node without children reads as that node. -/
theorem leaf_reads (data : Bytes) : (ofNode data []).Reads (.sound data (ofNode data []) .done) := by
  have each : ∀ child ∈ ([] : List (Piece × Node)), child.1.block.Reads child.2 :=
    fun child member => absurd member List.not_mem_nil
  exact ofNode_reads data each

theorem length_leaf_le {data : Bytes} (short : data.length ≤ 40) : (ofNode data []).bytes.length ≤ 70 := by
  have length : (ofNode data []).bytes.length ≤ 0 + data.length + 30 := length_ofNode_le (by decide) (by omega)
  omega

end Block

namespace Nodes

def pieces : Nodes → List (Piece × Node)
  | entry name data block below rest => (⟨name, block⟩, .sound data block below) :: pieces rest
  | _ => []

end Nodes

namespace Inventory

/-- Bytes that suffice for the node of a directory with the given contents. -/
def span (inventory : Inventory) : Nat := 100 + 120 * inventory.files.length + inventory.room

/-- Nodes of a tagged tree that are right about the contents of the directory to which names lead. The rule
of a uniform directory has all files in it; other directories have the shares of all rules. -/
inductive Classified (rule : List String → List Char → Nat) : List String → Inventory → Nodes → Prop
  | done {names : List String} : Classified rule names .done .done
  | file {names : List String} {name : String} {stat : FileStat} {rest : Inventory} {nodes : Nodes}
      (behind : Classified rule names rest nodes) : Classified rule names (.file name stat rest) nodes
  | uniform {names : List String} {name : String} {uid gid r : Nat} {below rest : Inventory} {dir : TaggedDir}
      {block : Block} {others : Nodes} (fits : dir.Fits) (tagging : dir.tagging = .uniform r)
      (all : ∀ file ∈ below.files, rule (names ++ [name] ++ file.dirs) file.name.toList = r)
      (reads : block.Reads (.sound dir.encode block .done)) (short : block.bytes.length ≤ below.span)
      (behind : Classified rule names rest others) :
      Classified rule names (.dir name uid gid below rest) (.entry name dir.encode block .done others)
  | shares {names : List String} {name : String} {uid gid : Nat} {below rest : Inventory} {dir : TaggedDir}
      {block : Block} {inner others : Nodes} (fits : dir.Fits)
      (tagging : dir.tagging = .shares (Share.tabulate (charges rule (names ++ [name]) below)))
      (reads : block.Reads (.sound dir.encode block inner)) (short : block.bytes.length ≤ below.span)
      (inside : Classified rule (names ++ [name]) below inner) (behind : Classified rule names rest others) :
      Classified rule names (.dir name uid gid below rest) (.entry name dir.encode block inner others)

namespace Classified

variable {rule rule' : List String → List Char → Nat} {names : List String} {inventory : Inventory} {nodes : Nodes}

/-- Only the rules of the files matter. -/
theorem congr (classified : Classified rule names inventory nodes)
    (same : ∀ file ∈ inventory.files, rule (names ++ file.dirs) file.name.toList =
    rule' (names ++ file.dirs) file.name.toList) :
    Classified rule' names inventory nodes := by
  induction classified with
  | done => exact .done
  | file behind ih => exact .file (ih fun file member => same file (List.mem_cons_of_mem _ member))
  | @uniform names name uid gid r below rest dir block others fits tagging all reads short behind ih =>
    have inside : ∀ file ∈ below.files, rule (names ++ [name] ++ file.dirs) file.name.toList =
        rule' (names ++ [name] ++ file.dirs) file.name.toList := by
      intro file member
      simpa [File.within] using same (file.within name) (List.mem_append_left _ (List.mem_map_of_mem member))
    exact .uniform fits tagging (fun file member => (inside file member).symm.trans (all file member)) reads short
      (ih fun file member => same file (List.mem_append_right _ member))
  | @shares names name uid gid below rest dir block inner others fits tagging reads short inside behind ihInside ih =>
    have within : ∀ file ∈ below.files, rule (names ++ [name] ++ file.dirs) file.name.toList =
        rule' (names ++ [name] ++ file.dirs) file.name.toList := by
      intro file member
      simpa [File.within] using same (file.within name) (List.mem_append_left _ (List.mem_map_of_mem member))
    have charged : charges rule (names ++ [name]) below = charges rule' (names ++ [name]) below :=
      List.map_congr_left fun file member => by rw [within file member]
    exact .shares fits (charged ▸ tagging) reads short (ihInside within)
      (ih fun file member => same file (List.mem_append_right _ member))

/-- Nodes that are right have no flaws. -/
theorem flawless (classified : Classified rule names inventory nodes) : nodes.flaw? = none := by
  induction classified with
  | done => rfl
  | file _ ih | uniform _ _ _ _ _ _ ih | shares _ _ _ _ _ _ _ ih => exact ih

theorem reads (classified : Classified rule names inventory nodes) :
    ∀ child ∈ nodes.pieces, child.1.block.Reads child.2 := by
  induction classified with
  | done => exact fun child member => absurd member List.not_mem_nil
  | file _ ih => exact ih
  | uniform _ _ _ reads _ _ ih | shares _ _ reads _ _ _ _ ih =>
    intro child member
    rcases List.mem_cons.mp member with rfl | later
    · exact reads
    · exact ih child later

theorem mem_names (classified : Classified rule names inventory nodes) :
    ∀ child ∈ nodes.pieces, child.1.name ∈ inventory.names := by
  induction classified with
  | done => exact fun child member => absurd member List.not_mem_nil
  | file _ ih => exact fun child member => List.mem_cons_of_mem _ (ih child member)
  | uniform _ _ _ _ _ _ ih | shares _ _ _ _ _ _ _ ih =>
    intro child member
    rcases List.mem_cons.mp member with rfl | later
    · exact List.mem_cons_self
    · exact List.mem_cons_of_mem _ (ih child later)

/-- The pieces of right nodes stand in the order of their names. -/
theorem ascending (classified : Classified rule names inventory nodes) (proper : inventory.Proper) :
    (nodes.pieces.map fun child => (child.1.name, child.2)).Pairwise (·.1 < ·.1) := by
  induction classified with
  | done => exact .nil
  | file _ ih => exact ih proper.2.2
  | uniform _ _ _ _ _ behind ih | shares _ _ _ _ _ behind _ ih =>
    refine List.pairwise_cons.mpr ⟨?_, ih proper.2.2.2⟩
    intro other member
    obtain ⟨child, listed, rfl⟩ := List.mem_map.mp member
    exact proper.2.1 _ (behind.mem_names child listed)

theorem ofList_pieces (classified : Classified rule names inventory nodes) :
    Nodes.ofList (nodes.pieces.map fun child => (child.1.name, child.2)) = nodes := by
  induction classified with
  | done => rfl
  | file _ ih => exact ih
  | uniform _ _ _ _ _ _ ih | shares _ _ _ _ _ _ _ ih =>
    rw [Nodes.pieces, List.map_cons, Nodes.ofList, List.foldr_cons, ← Nodes.ofList, ih]
    rfl

/-- Right nodes take no more room than the inventory allows them. -/
theorem room_le (classified : Classified rule names inventory nodes) :
    ((nodes.pieces.map (·.1)).map Piece.room).sum ≤ inventory.room := by
  induction classified with
  | done => exact Nat.le_refl _
  | file _ ih =>
    rw [Inventory.room]
    omega
  | uniform _ _ _ _ short _ ih | shares _ _ _ short _ _ _ ih =>
    simp only [Nodes.pieces, List.map_cons, List.sum_cons, Piece.room, Inventory.room, span] at ih short ⊢
    omega

/-- The node of a directory that has been put together from nodes that are right. -/
theorem sealed (classified : Classified rule names inventory nodes) (proper : inventory.Proper)
    (small : inventory.span < 2 ^ 64) {data : Bytes} (short : data.length ≤ 40 + 110 * inventory.files.length) :
    (Block.ofNode data (nodes.pieces.map (·.1))).Reads
    (.sound data (Block.ofNode data (nodes.pieces.map (·.1))) nodes) ∧
      (Block.ofNode data (nodes.pieces.map (·.1))).bytes.length ≤ inventory.span := by
  have whole := Block.ofNode_reads data classified.reads
  rw [Piece.sort_ascending (classified.ascending proper), classified.ofList_pieces] at whole
  have room := classified.room_le
  rw [span] at small ⊢
  have length : (Block.ofNode data (nodes.pieces.map (·.1))).bytes.length ≤ _ :=
    Block.length_ofNode_le (by omega) (by omega)
  exact ⟨whole, by omega⟩

end Classified

theorem Fits.span {name : String} {uid gid : Nat} {below rest : Inventory} (fits : (dir name uid gid below rest).Fits) :
    below.span < 2 ^ 64 := by
  have whole := fits.room
  rw [Inventory.room] at whole
  rw [Inventory.span]
  omega

end Inventory
end BackupAtlas
