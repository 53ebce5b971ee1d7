import BackupAtlas.Proofs.Conservation
import BackupAtlas.Proofs.Outlines
import BackupAtlas.Proofs.Patches

namespace BackupAtlas

open TreePath

/-- Nodes that are written for the contents of a directory: those of its subdirectories, each with its owner, and below
it either nothing or nodes that are written for its own contents. -/
def Inventory.Owned : Inventory → Outline → Prop
  | done, outline => outline = .done
  | file _ _ rest, outline => rest.Owned outline
  | dir .., .done => False
  | dir name uid gid below rest, .entry key data _ inner others =>
    key = name ∧ DirStat.decodeOwner data = .ok ⟨uid, gid⟩ ∧ (inner = .done ∨ below.Owned inner) ∧ rest.Owned others

/-- A node that is written for a directory with the given owner and contents. -/
structure Part.Owned (uid gid : Nat) (inventory : Inventory) (part : Part) : Prop where
  owner : DirStat.decodeOwner part.data = .ok ⟨uid, gid⟩
  inside : part.below = .done ∨ inventory.Owned part.below

/-- The nodes of a directory as they are read back, if they are written in the order of their names. -/
def Outline.nodes (outline : Outline) : Nodes := .ofList outline.named

namespace Inventory.Owned

variable {inventory below rest : Inventory} {outline : Outline} {name : String} {uid gid : Nat}

theorem cons (owned : (dir name uid gid below rest).Owned outline) : ∃ data origin inner others,
    outline = .entry name data origin inner others ∧ Part.Owned uid gid below ⟨data, origin, inner⟩ ∧
      rest.Owned others := by
  cases outline with
  | done => exact absurd owned id
  | entry key data origin inner others =>
    obtain ⟨rfl, owner, inside, behind⟩ := owned
    exact ⟨data, origin, inner, others, rfl, ⟨owner, inside⟩, behind⟩

theorem names_subset (owned : inventory.Owned outline) : outline.names ⊆ inventory.names := by
  induction inventory generalizing outline with
  | done =>
    obtain rfl := owned
    exact List.Subset.refl _
  | file name stat rest ih => exact List.subset_cons_of_subset _ (ih owned)
  | dir name uid gid below rest _ ih =>
    obtain ⟨data, origin, inner, others, rfl, _, behind⟩ := owned.cons
    exact List.cons_subset_cons _ (ih behind)

theorem ascending (owned : inventory.Owned outline) (proper : inventory.Proper) :
    outline.named.Pairwise (·.1 < ·.1) := by
  induction inventory generalizing outline with
  | done =>
    obtain rfl := owned
    exact .nil
  | file name stat rest ih => exact ih owned proper.2.2
  | dir name uid gid below rest _ ih =>
    obtain ⟨data, origin, inner, others, rfl, _, behind⟩ := owned.cons
    refine List.pairwise_cons.mpr ⟨fun entry member => ?_, ih behind proper.2.2.2⟩
    have listed : entry.1 ∈ others.names := by
      rw [← Outline.names_eq]
      exact List.mem_map_of_mem member
    exact proper.2.1 _ (behind.names_subset listed)

/-- The nodes are read back in the order in which they are written. -/
theorem sort_named (owned : inventory.Owned outline) (proper : inventory.Proper) :
    Nodes.ofList (Piece.sort outline.named) = outline.nodes := by
  rw [Piece.sort_ascending (owned.ascending proper)]
  rfl

end Inventory.Owned

/-- What is found of a directory in a previous tree, if it is a node, was written for it. -/
def Counterpart.Owned (uid gid : Nat) (inventory : Inventory) (counterpart : Counterpart) : Prop :=
  ∀ node, counterpart = .node node → ∃ part : Part, node = part.node ∧ part.Owned uid gid inventory

theorem Counterpart.eq_of_ofNode {node other : Node} (opened : ofNode node = .ok (.node other)) : other = node := by
  rw [ofNode] at opened
  obtain ⟨data, _, opened⟩ := exists_of_bind_eq_ok opened
  obtain ⟨uniform, _, opened⟩ := exists_of_bind_eq_ok opened
  cases uniform with
  | some rule => cases opened
  | none => exact (Counterpart.node.inj (Except.ok.inj opened)).symm

/-- A node with the right owners opens as a counterpart with the right owners. -/
theorem Part.Owned.ofNode {uid gid : Nat} {inventory : Inventory} {part : Part} (owned : part.Owned uid gid inventory)
    {found : Counterpart} (opened : Counterpart.ofNode part.node = .ok found) : found.Owned uid gid inventory := by
  rintro node rfl
  exact ⟨part, Counterpart.eq_of_ofNode opened, owned⟩

namespace PriorChildren

/-- What is still to be read of a counterpart was written for the contents that are still to come. -/
inductive Owned (inventory : Inventory) : PriorChildren → Prop
  | absent : Owned inventory .absent
  | uniform (rule : Nat) : Owned inventory (.uniform rule)
  /-- Nothing was written for the contents. -/
  | ended : Owned inventory (.listed none .done)
  | listed {outline : Outline} {nodes : Nodes} (owned : inventory.Owned outline)
      (trails : Trails outline.nodes inventory.names nodes) : Owned inventory (.listed none nodes)

variable {inventory below rest : Inventory} {prior next : PriorChildren} {name : String} {uid gid : Nat}

theorem Owned.ofCounterpart {counterpart : Counterpart} (owned : counterpart.Owned uid gid inventory)
    (proper : inventory.Proper) (opened : ofCounterpart counterpart = .ok prior) : prior.Owned inventory := by
  cases counterpart with
  | node node =>
    obtain ⟨part, rfl, _, inside⟩ := owned node rfl
    obtain rfl := Except.ok.inj opened
    rcases inside with ended | inside
    · rw [ended]
      exact .ended
    · rw [inside.sort_named proper]
      exact .listed inside .here
  | uniform rule =>
    obtain rfl := Except.ok.inj opened
    exact .uniform rule
  | absent =>
    obtain rfl := Except.ok.inj opened
    exact .absent

theorem Owned.of_file {stat : FileStat} (owned : prior.Owned (.file name stat rest)) : prior.Owned rest := by
  cases owned with
  | absent => exact .absent
  | uniform rule => exact .uniform rule
  | ended => exact .ended
  | listed owned trails => exact .listed owned (trails.mono (List.subset_cons_self _ _))

/-- The counterpart of a subdirectory may be passed over. -/
theorem Owned.of_dir (owned : prior.Owned (.dir name uid gid below rest)) (first : ∀ other ∈ rest.names, name < other) :
    prior.Owned rest := by
  cases owned with
  | absent => exact .absent
  | uniform rule => exact .uniform rule
  | ended => exact .ended
  | listed owned trails =>
    obtain ⟨data, origin, inner, others, rfl, _, behind⟩ := owned.cons
    exact .listed behind (Trails.cons (trails.mono (List.subset_cons_self _ _)) first)

/-- What a search finds for the next subdirectory was written for it. -/
theorem Owned.seek (owned : prior.Owned (.dir name uid gid below rest)) {found : Counterpart} {visited : Nat}
    (sought : prior.seek name = .ok (found, next, visited)) : found.Owned uid gid below ∧ next.Owned rest := by
  cases owned with
  | absent =>
    cases sought
    exact ⟨nofun, .absent⟩
  | uniform rule =>
    cases sought
    exact ⟨nofun, .uniform rule⟩
  | ended =>
    cases sought
    exact ⟨nofun, .ended⟩
  | listed owned trails =>
    obtain ⟨data, origin, inner, others, rfl, here, behind⟩ := owned.cons
    have trails : Trails (.entry name data (Part.block ⟨data, origin, inner⟩) (.ofList (Piece.sort inner.named))
      others.nodes) (name :: rest.names) _ := trails
    obtain ⟨count, same⟩ := advance_eq trails 0
    rw [PriorChildren.seek, same, show Node.sound data _ _ = Part.node ⟨data, origin, inner⟩ from rfl] at sought
    cases opened : Counterpart.ofNode (Part.node ⟨data, origin, inner⟩) with
    | error reason =>
      rw [opened] at sought
      cases sought
    | ok counterpart =>
      rw [opened] at sought
      cases sought
      exact ⟨here.ofNode opened, .listed behind .here⟩

end PriorChildren

theorem TaggedDir.decodeOwner_encode {dir : TaggedDir} (owner : dir.uid < 2 ^ 32 ∧ dir.gid < 2 ^ 32) :
    DirStat.decodeOwner dir.encode = .ok ⟨dir.uid, dir.gid⟩ :=
  (Owner.takes_encode ⟨dir.uid, dir.gid⟩ owner.1 owner.2).run _ _

namespace Walk

variable {name : String} {uid gid rule : Nat} {below rest : Inventory} {data : Bytes} {block : Block} {inner : Nodes}
variable {walk next : Walk}

/-- A subdirectory has been dealt with, and a node been written for it. -/
structure Added (name : String) (uid gid : Nat) (below rest : Inventory) (walk next : Walk) : Prop where
  prior : next.prior.Owned rest
  piece : ∃ part : Part, next.pieces = walk.pieces ++ [⟨name, part.block⟩] ∧ part.Owned uid gid below

/-- A directory that is given one rule keeps its owner. -/
theorem uniform_added (decoded : DirStat.decode data = .ok (.ofFiles uid gid below.stats))
    (owner : uid < 2 ^ 32 ∧ gid < 2 ^ 32) (prior : walk.prior.Owned rest)
    (ran : walk.uniform name (.sound data block inner) rule = .ok next) :
    Added name uid gid below rest walk next := by
  rw [uniform] at ran
  obtain ⟨_, known, ran⟩ := exists_of_bind_eq_ok ran
  obtain rfl := Except.ok.inj known
  obtain ⟨dir, stat, ran⟩ := exists_of_bind_eq_ok ran
  obtain rfl := Except.ok.inj (decoded.symm.trans stat)
  obtain rfl := Except.ok.inj ran
  rw [DirStat.ofFiles_eq]
  let made : TaggedDir := { uid, gid, tagging := .uniform rule }
  exact ⟨prior, ⟨made.encode, none, .done⟩, rfl, made.decodeOwner_encode owner, Or.inl rfl⟩

/-- What a previous tree says of a subdirectory is kept. -/
theorem adopt_added {found : Counterpart} (decoded : DirStat.decode data = .ok (.ofFiles uid gid below.stats))
    (owner : uid < 2 ^ 32 ∧ gid < 2 ^ 32) (prior : walk.prior.Owned rest) (owned : found.Owned uid gid below)
    (ran : walk.adopt name (.sound data block inner) rule found = .ok next) :
    Added name uid gid below rest walk next := by
  cases found with
  | node previous =>
    obtain ⟨part, rfl, here⟩ := owned previous rfl
    rw [adopt] at ran
    obtain ⟨payload, _, ran⟩ := exists_of_bind_eq_ok ran
    obtain ⟨dir, _, ran⟩ := exists_of_bind_eq_ok ran
    obtain ⟨copied, known, ran⟩ := exists_of_bind_eq_ok ran
    obtain rfl := Except.ok.inj (part.block_node.symm.trans known)
    obtain rfl := Except.ok.inj ran
    exact ⟨prior, part, rfl, here⟩
  | uniform previous => exact uniform_added decoded owner prior ran
  | absent => exact uniform_added decoded owner prior ran

/-- The counterpart that is found has the owners of the directory. -/
theorem seek_owned {found : Counterpart} (prior : walk.prior.Owned (.dir name uid gid below rest))
    (sought : walk.seek name = .ok (found, next)) :
    found.Owned uid gid below ∧ next.prior.Owned rest ∧ next.pieces = walk.pieces := by
  rw [seek] at sought
  obtain ⟨⟨here, left, visited⟩, looked, made⟩ := exists_of_bind_eq_ok sought
  obtain ⟨rfl, rfl⟩ := Prod.mk.inj (Except.ok.inj made)
  obtain ⟨owned, behind⟩ := prior.seek looked
  exact ⟨owned, behind, rfl⟩

/-- A directory that is taken over has the owner that the snapshot has for it. -/
theorem reuse_added (decoded : DirStat.decode data = .ok (.ofFiles uid gid below.stats))
    (owner : uid < 2 ^ 32 ∧ gid < 2 ^ 32) (prior : walk.prior.Owned (.dir name uid gid below rest))
    (ran : walk.reuse name (.sound data block inner) rule = .ok next) : Added name uid gid below rest walk next := by
  let counted : Walk := { walk with report := { walk.report with reused := walk.report.reused + 1 } }
  have ready : counted.prior.Owned (.dir name uid gid below rest) := prior
  have whole := ran
  rw [reuse] at whole
  obtain ⟨⟨found, mid⟩, sought, _⟩ := exists_of_bind_eq_ok whole
  rw [reuse_eq rule sought] at ran
  obtain ⟨owned, behind, same⟩ := seek_owned ready sought
  obtain ⟨left, part, pieces, here⟩ := adopt_added decoded owner behind owned ran
  exact ⟨left, part, by rw [pieces, same], here⟩

theorem file_kept {dispatch : Dispatch} {path : List Char} {node : Node}
    (ran : walk.file dispatch path node = .ok next) : next.prior = walk.prior ∧ next.pieces = walk.pieces := by
  rw [file] at ran
  obtain ⟨data, _, ran⟩ := exists_of_bind_eq_ok ran
  obtain ⟨stat, _, ran⟩ := exists_of_bind_eq_ok ran
  rw [← Except.ok.inj ran]
  exact ⟨rfl, rfl⟩

/-- A walk through the contents of a directory writes nodes for them, if it ends well. -/
def Adds (dispatch : Dispatch) (inventory : Inventory) : Prop :=
  ∀ {path : List Char} {lower : Nodes} {walk next : Walk}, inventory.Stored lower → walk.prior.Owned inventory →
    nodes dispatch path lower walk = .ok next →
      ∃ outline : Outline, next.pieces = walk.pieces ++ outline.pieces ∧ inventory.Owned outline

variable {dispatch : Dispatch} {path : List Char}

/-- A subdirectory that is walked through gets a node with what was written for its contents below it. -/
theorem process_added {found : Counterpart} {mid entered inside : Walk} (adds : Adds dispatch below)
    (proper : below.Proper) (owner : uid < 2 ^ 32 ∧ gid < 2 ^ 32) (stored : below.Stored inner)
    (prior : walk.prior.Owned (.dir name uid gid below rest)) (sought : walk.seek name = .ok (found, mid))
    (opened : enter found mid.report = .ok entered) (ran : nodes dispatch path inner entered = .ok inside) :
    Added name uid gid below rest walk (mid.leave name ⟨uid, gid⟩ inside) := by
  obtain ⟨owned, behind, same⟩ := seek_owned prior sought
  rw [enter] at opened
  obtain ⟨left, known, opened⟩ := exists_of_bind_eq_ok opened
  obtain rfl := Except.ok.inj opened
  obtain ⟨outline, pieces, made⟩ := adds stored (.ofCounterpart owned proper known) ran
  let dir : TaggedDir := { uid, gid, tagging := .shares inside.shares }
  refine ⟨behind, ⟨dir.encode, none, outline⟩, ?_, dir.decodeOwner_encode owner, Or.inr made⟩
  rw [leave, pieces, same]
  rfl

/-- Whatever the directive of a subdirectory, a node is written for it. -/
theorem visit_added {others : Nodes} (adds : Adds dispatch below) (step : IsStep name.toList) (proper : below.Proper)
    (first : ∀ other ∈ rest.names, name < other) (owner : uid < 2 ^ 32 ∧ gid < 2 ^ 32)
    (decoded : DirStat.decode data = .ok (.ofFiles uid gid below.stats))
    (owned : DirStat.decodeOwner data = .ok ⟨uid, gid⟩) (stored : below.Stored inner)
    (prior : walk.prior.Owned (.dir name uid gid below rest))
    (ran : nodes dispatch path (.entry name data block inner others) walk = .ok next) :
    ∃ mid, Added name uid gid below rest walk mid ∧ nodes dispatch path others mid = .ok next := by
  rw [nodes] at ran
  simp only [step.isDir, if_true] at ran
  cases directive : dispatch.directiveFor (path ++ name.toList) with
  | process =>
    simp only [directive] at ran
    obtain ⟨⟨found, mid⟩, sought, ran⟩ := exists_of_bind_eq_ok ran
    obtain ⟨_, known, ran⟩ := exists_of_bind_eq_ok ran
    obtain rfl := Except.ok.inj (owned.symm.trans known)
    obtain ⟨entered, opened, ran⟩ := exists_of_bind_eq_ok ran
    obtain ⟨inside, through, later⟩ := exists_of_bind_eq_ok ran
    exact ⟨_, process_added adds proper owner stored prior sought opened through, later⟩
  | assign rule =>
    simp only [directive] at ran
    obtain ⟨mid, given, later⟩ := exists_of_bind_eq_ok ran
    let counted : Walk := { walk with report := { walk.report with assigned := walk.report.assigned + 1 } }
    have ready : counted.prior.Owned rest := prior.of_dir first
    obtain ⟨left, piece⟩ := uniform_added decoded owner ready given
    exact ⟨mid, ⟨left, piece⟩, later⟩
  | reuse rule =>
    simp only [directive] at ran
    obtain ⟨mid, kept, later⟩ := exists_of_bind_eq_ok ran
    exact ⟨mid, reuse_added decoded owner prior kept, later⟩
  | unmatched =>
    simp only [directive] at ran
    obtain ⟨mid, kept, later⟩ := exists_of_bind_eq_ok ran
    exact ⟨mid, reuse_added decoded owner prior kept, later⟩

/-- A walk writes nodes with the owners that the snapshot has. -/
theorem nodes_added (inventory : Inventory) (proper : inventory.Proper) (fits : inventory.OwnersFit) :
    Adds dispatch inventory := by
  induction inventory with
  | done =>
    intro path lower walk next stored prior ran
    cases stored
    obtain rfl := Except.ok.inj ran
    exact ⟨.done, (List.append_nil _).symm, rfl⟩
  | file name stat rest ih =>
    intro path lower walk next stored prior ran
    cases stored with
    | @file _ _ _ data block below others decoded behind =>
      rw [nodes] at ran
      simp only [not_isDir proper.1, Bool.false_eq_true, if_false] at ran
      obtain ⟨mid, filed, ran⟩ := exists_of_bind_eq_ok ran
      obtain ⟨samePrior, samePieces⟩ := file_kept filed
      obtain ⟨outline, pieces, made⟩ := ih proper.2.2 fits behind (samePrior ▸ prior.of_file) ran
      exact ⟨outline, by rw [pieces, samePieces], made⟩
  | dir name uid gid below rest ihBelow ihRest =>
    intro path lower walk next stored prior ran
    obtain ⟨step, first, properBelow, properRest⟩ := proper
    obtain ⟨user, group, fitsBelow, fitsRest⟩ := fits
    cases stored with
    | @dir _ _ _ _ _ data block inner others decoded owned inside behind =>
      obtain ⟨mid, ⟨left, part, pieces, here⟩, later⟩ := visit_added (ihBelow properBelow fitsBelow) step properBelow
        first ⟨user, group⟩ decoded owned inside prior ran
      obtain ⟨outline, more, listed⟩ := ihRest properRest fitsRest behind left later
      refine ⟨.entry name part.data part.origin part.below outline, ?_, rfl, here.owner, here.inside, listed⟩
      rw [more, pieces, List.append_assoc]
      rfl

end Walk

/-- A tagged tree that was written for a directory with the given owner and contents. -/
def StoredTree.Owned (uid gid : Nat) (inventory : Inventory) (tree : StoredTree) : Prop :=
  ∃ part : Part, tree.root = part.node ∧ part.Owned uid gid inventory

variable {uid gid : Nat} {inventory : Inventory} {top : Node} {root : String} {dispatch : Dispatch}

/-- Every directory of a tagged tree has the owner that the snapshot has for it. -/
theorem build_owned {previous : Option StoredTree} {tree : StoredTree} {report : Report}
    (isTop : inventory.IsTop uid gid top) (mountable : inventory.Mountable uid gid)
    (earlier : ∀ tree ∈ previous, tree.Owned uid gid inventory)
    (built : build top root dispatch previous = .ok (tree, report)) (short : tree.bytes.length < 2 ^ 64) :
    tree.Owned uid gid inventory := by
  have before : (Counterpart.ofPrevious previous).Owned uid gid inventory := by
    rintro node same
    cases previous with
    | none => cases same
    | some tree =>
      obtain ⟨part, rooted, owned⟩ := earlier tree rfl
      exact ⟨part, (Counterpart.node.inj same).symm.trans rooted, owned⟩
  cases isTop with
  | @sound data block lower decoded owned stored =>
    rw [build_eq] at built
    obtain ⟨_, known, built⟩ := exists_of_bind_eq_ok built
    obtain rfl := Except.ok.inj known
    obtain ⟨_, known, built⟩ := exists_of_bind_eq_ok built
    obtain rfl := Except.ok.inj (owned.symm.trans known)
    obtain ⟨entered, opened, built⟩ := exists_of_bind_eq_ok built
    obtain ⟨_, known, built⟩ := exists_of_bind_eq_ok built
    obtain rfl := Except.ok.inj known
    obtain ⟨walk, ran, built⟩ := exists_of_bind_eq_ok built
    obtain ⟨_, sealed, built⟩ := exists_of_bind_eq_ok built
    obtain ⟨rfl, _⟩ := Prod.mk.inj (Except.ok.inj built)
    rw [Walk.enter] at opened
    obtain ⟨prior, known, opened⟩ := exists_of_bind_eq_ok opened
    obtain rfl := Except.ok.inj opened
    obtain ⟨outline, pieces, made⟩ := Walk.nodes_added inventory mountable.proper mountable.fits.owners stored
      (.ofCounterpart before mountable.proper known) ran
    let dir : TaggedDir := { uid, gid, tagging := .shares walk.shares }
    let part : Part := ⟨dir.encode, none, outline⟩
    have whole : Block.ofNode (walk.tagged ⟨uid, gid⟩) walk.pieces = part.block := by
      rw [pieces]
      rfl
    rw [whole] at sealed
    rw [(StoredTree.root_stands sealed).1] at short
    rw [StoredTree.ofBytes_seal part.reads short] at sealed
    obtain rfl := Except.ok.inj sealed
    exact ⟨part, rfl, dir.decodeOwner_encode mountable.owner, Or.inr made⟩

/-- So it is with all trees of a chain of builds. -/
theorem Overlay.Built.owned {overlay : Overlay} {scope : List String} (rooted : overlay.root = String.ofList (dirOf scope))
    (isTop : inventory.IsTop uid gid overlay.top) (mountable : inventory.Mountable uid gid) {tree : StoredTree}
    (chain : overlay.Built tree) : tree.Owned uid gid inventory := by
  have step : ∀ {plan : Plan} {dispatch : Dispatch} {previous : Option StoredTree} {tree : StoredTree} {report : Report},
      plan.IdsFit → Dispatch.ofPlan plan = .ok dispatch →
      (∀ tree ∈ previous, overlay.Built tree ∧ tree.Owned uid gid inventory) →
      build overlay.top overlay.root dispatch previous = .ok (tree, report) → tree.Owned uid gid inventory := by
    intro plan dispatch previous tree report idsFit ready earlier built
    -- that the tree is short enough to be read back follows from what it charges
    obtain ⟨made, reported, also, short, _⟩ :=
      exists_built rooted isTop mountable idsFit ready fun tree known => (earlier tree known).1
    obtain ⟨rfl, _⟩ := Prod.mk.inj (Except.ok.inj (built.symm.trans also))
    exact build_owned isTop mountable (fun tree known => (earlier tree known).2) built short
  induction chain with
  | full idsFit ready built => exact step idsFit ready (by simp) built
  | @onto plan dispatch previous tree report earlier idsFit ready built ih =>
    exact step idsFit ready (fun tree known => Option.some.inj known ▸ ⟨earlier, ih⟩) built

end BackupAtlas
