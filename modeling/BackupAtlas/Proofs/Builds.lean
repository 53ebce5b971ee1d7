import BackupAtlas.Proofs.Walks

namespace BackupAtlas

open TreePath

/-- A node of a snapshot whose directory has the given owner and contents. -/
inductive Inventory.IsTop (uid gid : Nat) (inventory : Inventory) : Node → Prop
  | sound {data : Bytes} {block : Block} {lower : Nodes}
    (decoded : DirStat.decode data = .ok (.ofFiles uid gid inventory.stats))
      (owned : DirStat.decodeOwner data = .ok ⟨uid, gid⟩) (stored : inventory.Stored lower) :
      IsTop uid gid inventory (.sound data block lower)

/-- Contents that a mounted snapshot can have: their nodes can be written down, and with them the tagged tree. -/
structure Inventory.Mountable (uid gid : Nat) (inventory : Inventory) : Prop where
  proper : inventory.Proper
  fits : inventory.Fits
  owner : uid < 2 ^ 32 ∧ gid < 2 ^ 32
  small : inventory.span + 100 < 2 ^ 64

/-- The counterpart of a snapshot before its build. -/
def Counterpart.ofPrevious : Option StoredTree → Counterpart
  | some tree => .node tree.root
  | none => .absent

/-- A build walks the top of the snapshot beside what the previous tree has for it, and seals what it has written. -/
theorem build_eq (top : Node) (root : String) (dispatch : Dispatch) (previous : Option StoredTree) :
    build top root dispatch previous = (do
      let owner ← DirStat.decodeOwner (← top.data)
      let walk ← Walk.enter (Counterpart.ofPrevious previous) {}
      let walk ← Walk.nodes dispatch root.toList (← top.children) walk
      let bytes := StoredTree.seal (.ofNode (walk.tagged owner) walk.pieces)
      let tree ← StoredTree.ofBytes bytes
      pure (tree, { walk.report with bytes := bytes.length })) := by
  cases previous <;> rfl

variable {walked : List String → Prop} {missing : Prop} {before after : List String → List Char → Nat}
variable {dispatch : Dispatch} {scope : List String}
variable {uid gid : Nat} {inventory : Inventory} {top : Node} {previous : Option StoredTree}

/-- A build under directives that lead rightly succeeds, and its tagged tree charges each file to the rule that is
due. -/
theorem build_spec (leads : dispatch.Leads walked missing before after)
    (small : ∀ names rest, after names rest < 2 ^ 64)
    (here : walked scope) (isTop : inventory.IsTop uid gid top) (mountable : inventory.Mountable uid gid)
    (right : (Counterpart.ofPrevious previous).Right before missing scope inventory) : ∃ tree report,
      build top (String.ofList (dirOf scope)) dispatch previous = .ok (tree, report) ∧ tree.bytes.length < 2 ^ 64 ∧
      (Counterpart.ofPrevious (some tree)).Right after False scope inventory := by
  obtain ⟨decoded, owned, stored⟩ := isTop
  obtain ⟨prior, opened, ready⟩ := PriorChildren.ofCounterpart_right right
  have span := mountable.small
  let entered : Walk := { prior, report := { processed := 1 } }
  have enter_eq : Walk.enter (Counterpart.ofPrevious previous) {} = .ok entered := by
    rw [Walk.enter, opened]
    rfl
  have ready : entered.prior.Right before missing scope inventory := ready
  have sharesReady : entered.shares = Share.tabulate [] := rfl
  obtain ⟨done, upper, ran, charged, pieces, classified⟩ :=
    Walk.nodes_spec leads small inventory here mountable.proper mountable.fits stored ready sharesReady
  obtain ⟨dir, dirFits, tagging, encoded, reads, short⟩ := Walk.tagged_sealed mountable.proper (by omega)
    (mountable.fits.charges _ _ small) mountable.owner charged pieces classified
  have length : (StoredTree.seal (Block.ofNode dir.encode done.pieces)).length < 2 ^ 64 := by
    have header : StoredTree.magic.length = 8 := rfl
    simp only [StoredTree.seal, List.length_append, StoredTree.length_littleEndian]
    omega
  let block := Block.ofNode dir.encode done.pieces
  refine ⟨{ bytes := StoredTree.seal block, root := .sound dir.encode block upper },
    { done.report with bytes := (StoredTree.seal block).length }, ?_, length, .node dirFits tagging reads short classified⟩
  rw [build_eq]
  simp only [Node.data, Node.children, bind, Except.bind, owned, enter_eq, String.toList_ofList, ran, encoded,
    StoredTree.ofBytes_seal reads length]
  rfl

end BackupAtlas
