import BackupAtlas.Proofs.Owners

namespace BackupAtlas

open TreePath

/-- A payload in a tagged tree has the owner that the payload of the directory has in the snapshot. -/
def Tagging.Labels (tagging : Tagging) (data payload : Bytes) : Prop :=
  ∃ stat, DirStat.decode data = .ok stat ∧ TaggedDir.decode payload = .ok ⟨stat.uid, stat.gid, tagging⟩

/-- Nodes of a tagged tree, and the nodes in a snapshot that they stand for: one for each subdirectory, in the same order,
and none for the files. A subdirectory is uniform and has nothing below it, or it has shares and below it nodes that
stand for its contents. -/
inductive Nodes.Mirrored : (lower upper : Nodes) → Prop
  | done : Mirrored .done .done
  | file {name : String} {data : Bytes} {block : Block} {below lower upper : Nodes} (plain : isDir name = false)
      (behind : Mirrored lower upper) : Mirrored (.entry name data block below lower) upper
  | uniform {name : String} {data payload : Bytes} {block block' : Block} {below lower upper : Nodes} {rule : Nat}
      (dirName : isDir name = true) (labels : (Tagging.uniform rule).Labels data payload)
      (behind : Mirrored lower upper) :
      Mirrored (.entry name data block below lower) (.entry name payload block' .done upper)
  | shares {name : String} {data payload : Bytes} {block block' : Block} {below inner lower upper : Nodes}
      {shares : List Share} (dirName : isDir name = true) (labels : (Tagging.shares shares).Labels data payload)
      (inside : Mirrored below inner) (behind : Mirrored lower upper) :
      Mirrored (.entry name data block below lower) (.entry name payload block' inner upper)

/-- The same of a single directory. -/
inductive Node.Mirrored : (lower upper : Node) → Prop
  | uniform {data payload : Bytes} {block block' : Block} {below : Nodes} {rule : Nat}
      (labels : (Tagging.uniform rule).Labels data payload) :
      Mirrored (.sound data block below) (.sound payload block' .done)
  | shares {data payload : Bytes} {block block' : Block} {below inner : Nodes} {shares : List Share}
      (labels : (Tagging.shares shares).Labels data payload) (inside : Nodes.Mirrored below inner) :
      Mirrored (.sound data block below) (.sound payload block' inner)

/-- A search goes the same way among nodes that begin with the same name. -/
theorem Nodes.find?_beside {key name : String} {data payload : Bytes} {block block' : Block}
    {below inner lower upper : Nodes} {node : Node}
    (here : (Node.sound data block below).Mirrored (.sound payload block' inner))
    (behind : lower.find? name = .ok (some node) → ∃ other, upper.find? name = .ok (some other) ∧ node.Mirrored other)
    (found : (entry key data block below lower).find? name = .ok (some node)) :
    ∃ other, (entry key payload block' inner upper).find? name = .ok (some other) ∧ node.Mirrored other := by
  rw [find?] at found ⊢
  split at found
  · rename_i less
    rw [if_pos less]
    exact behind found
  · rename_i notLess
    split at found
    · rename_i same
      obtain rfl := Option.some.inj (Except.ok.inj found)
      rw [if_neg notLess, if_pos same]
      exact ⟨_, rfl, here⟩
    · cases found

/-- A directory can be found in a tagged tree if it can be found in the snapshot. -/
theorem Nodes.Mirrored.find? {lower upper : Nodes} (mirrored : Mirrored lower upper) {name : String}
    (dirName : isDir name = true) {node : Node} (found : lower.find? name = .ok (some node)) :
    ∃ other, upper.find? name = .ok (some other) ∧ node.Mirrored other := by
  induction mirrored with
  | done => cases found
  | file plain _ ih =>
    rw [Nodes.find?] at found
    split at found
    · exact ih found
    · split at found
      · rename_i same
        rw [same, dirName] at plain
        cases plain
      · cases found
  | uniform _ labels _ ih => exact Nodes.find?_beside (.uniform labels) ih found
  | shares _ labels inside _ _ ih => exact Nodes.find?_beside (.shares labels inside) ih found

/-- A node of a tagged tree that gives everything below it to one rule. -/
def Node.IsUniform (node : Node) : Prop :=
  ∃ payload dir rule, node.data = .ok payload ∧ TaggedDir.decode payload = .ok dir ∧ dir.tagging = .uniform rule

/-- A directory has a node of its own in the tagged tree, or it lies below a uniform one. -/
theorem Node.Mirrored.descend? {path : List String} {lower upper node : Node} (mirrored : lower.Mirrored upper)
    (dirs : ∀ name ∈ path, isDir name = true) (leads : lower.descend? path = .ok (some node)) :
    (∃ other, upper.descend? path = .ok (some other) ∧ node.Mirrored other) ∨
      ∃ above name more other, path = above ++ name :: more ∧ upper.descend? above = .ok (some other) ∧
        other.IsUniform := by
  induction path generalizing lower upper with
  | nil =>
    obtain rfl := Option.some.inj (Except.ok.inj leads)
    exact Or.inl ⟨upper, rfl, mirrored⟩
  | cons name path ih =>
    cases mirrored with
    | @uniform data payload block block' below rule labels =>
      obtain ⟨stat, _, tagged⟩ := labels
      exact Or.inr ⟨[], name, path, _, rfl, rfl, payload, _, rule, rfl, tagged, rfl⟩
    | @shares data payload block block' below inner shares labels inside =>
      rw [Node.descend?] at leads
      obtain ⟨child, found, leads⟩ := exists_of_bind_eq_ok leads
      cases child with
      | none => cases leads
      | some child =>
        obtain ⟨other, known, here⟩ := inside.find? (dirs name List.mem_cons_self) found
        have step : ∀ rest, (Node.sound payload block' inner).descend? (name :: rest) = other.descend? rest := by
          intro rest
          rw [Node.descend?, Node.child?, Node.children]
          simp only [bind, Except.bind, known]
        rcases ih here (fun name member => dirs name (List.mem_cons_of_mem _ member)) leads with own | shared
        · rw [step]
          exact Or.inl own
        · obtain ⟨above, next, more, last, rfl, led, uniform⟩ := shared
          exact Or.inr ⟨name :: above, next, more, last, rfl, (step above).trans led, uniform⟩

section

variable {rule : List String → List Char → Nat} {scope names : List String} {uid gid : Nat} {inventory : Inventory}
variable {lower upper : Nodes} {outline : Outline}

theorem TaggedDir.Fits.labels {dir : TaggedDir} (fits : dir.Fits) {data : Bytes} {stats : List FileStat}
    (decoded : DirStat.decode data = .ok (.ofFiles uid gid stats))
    (owner : DirStat.decodeOwner dir.encode = .ok ⟨uid, gid⟩) : dir.tagging.Labels data dir.encode := by
  have same := owner.symm.trans (dir.decodeOwner_encode ⟨fits.uid, fits.gid⟩)
  obtain ⟨rfl, rfl⟩ := Owner.mk.inj (Except.ok.inj same)
  refine ⟨_, decoded, ?_⟩
  rw [DirStat.ofFiles_eq]
  exact TaggedDir.decode_encode fits

/-- Where nothing is written, there are no subdirectories. -/
theorem Inventory.Classified.owned_done (classified : inventory.Classified rule names .done) :
    inventory.Owned .done := by
  induction inventory with
  | done => rfl
  | file name stat rest ih =>
    cases classified with
    | file behind => exact ih behind
  | dir name uid gid below rest => cases classified

/-- Nodes that are right about the contents of a directory, and were written for them, stand for these. -/
theorem Inventory.Classified.mirrored (classified : inventory.Classified rule names upper) (proper : inventory.Proper)
    (stored : inventory.Stored lower) (owned : inventory.Owned outline) (same : outline.nodes = upper) :
    Nodes.Mirrored lower upper := by
  induction classified generalizing lower outline with
  | done =>
    cases stored
    exact .done
  | file _ ih =>
    cases stored with
    | file _ behind => exact .file (Walk.not_isDir proper.1) (ih proper.2.2 behind owned same)
  | @uniform names name uid gid r below rest dir block others fits tagging all reads short behind ih =>
    obtain ⟨data, origin, inner, more, rfl, here, later⟩ := owned.cons
    obtain ⟨_, rfl, _, _, listed⟩ := Nodes.entry.inj same
    cases stored with
    | dir decoded _ _ storedRest =>
      have labels := fits.labels decoded here.owner
      rw [tagging] at labels
      exact .uniform proper.1.isDir labels (ih proper.2.2.2 storedRest later listed)
  | @shares names name uid gid below rest dir block inner others fits tagging reads short inside behind ihInside ih =>
    obtain ⟨data, origin, written, more, rfl, here, later⟩ := owned.cons
    obtain ⟨_, rfl, _, below_eq, listed⟩ := Nodes.entry.inj same
    cases stored with
    | dir decoded _ storedBelow storedRest =>
      have labels := fits.labels decoded here.owner
      rw [tagging] at labels
      refine .shares proper.1.isDir labels ?_ (ih proper.2.2.2 storedRest later listed)
      rcases here.inside with ended | made
      · -- a directory without subdirectories may look like a uniform one
        have nothing : written = .done := ended
        subst nothing
        obtain rfl : Nodes.done = inner := below_eq
        exact ihInside proper.2.2.1 storedBelow inside.owned_done rfl
      · exact ihInside proper.2.2.1 storedBelow made ((made.sort_named proper.2.2.1).symm.trans below_eq)

/-- The top of every tree of a chain of builds has shares, and below it what stands for the contents of the snapshot. -/
theorem Overlay.Built.mirrored {overlay : Overlay} (rooted : overlay.root = String.ofList (dirOf scope))
    (isTop : inventory.IsTop uid gid overlay.top) (mountable : inventory.Mountable uid gid) {tree : StoredTree}
    (chain : overlay.Built tree) : ∃ data block below payload block' inner shares,
      overlay.top = .sound data block below ∧ tree.root = .sound payload block' inner ∧
      (Tagging.shares shares).Labels data payload ∧ Nodes.Mirrored below inner := by
  obtain ⟨rule, _, right⟩ := chain.charges rooted isTop mountable
  obtain ⟨part, written, owner, inside⟩ := chain.owned rooted isTop mountable
  generalize topEq : overlay.top = top at isTop
  generalize rootEq : tree.root = root at right written
  cases isTop with
  | @sound data block lower decoded owned stored =>
    cases right with
    | @node dir block' nodes fits tagging reads short classified =>
      obtain ⟨same, _, nodes_eq⟩ := Node.sound.inj written
      rw [← same] at owner
      have labels := fits.labels decoded owner
      rw [tagging] at labels
      refine ⟨data, block, lower, _, block', nodes, _, rfl, rfl, labels, ?_⟩
      rcases inside with ended | made
      · rw [ended] at nodes_eq
        obtain rfl : nodes = .done := nodes_eq
        exact classified.mirrored mountable.proper stored classified.owned_done rfl
      · exact classified.mirrored mountable.proper stored made ((made.sort_named mountable.proper).symm.trans nodes_eq.symm)

end

/-- In every tree of a chain of builds, whatever their plans are, the top has shares, and each node has the owner of its
directory in the snapshot. A node with shares has a child for each subdirectory, in the same order, and none for files; a
uniform node has no children. So each directory of the snapshot has a node of its own, or lies below a uniform one. -/
theorem built_mirrors {census : Census} (recorded : census.Reached) (fits : census.Fits) (source : String) :
    ∃ lower overlay, StoredTree.ofBytes census.toBytes = .ok lower ∧ Overlay.ofTree lower source = .ok overlay ∧
      (∀ plan dispatch previous, Plan.IdsFit plan → Dispatch.ofPlan plan = .ok dispatch →
        (∀ tree ∈ previous, overlay.Built tree) →
        ∃ tree report, build overlay.top overlay.root dispatch previous = .ok (tree, report) ∧ overlay.Built tree) ∧
      ∀ tree, overlay.Built tree →
        (∃ data block below payload block' inner shares, overlay.top = .sound data block below ∧
          tree.root = .sound payload block' inner ∧ (Tagging.shares shares).Labels data payload ∧
          Nodes.Mirrored below inner) ∧
        ∀ path node, (∀ name ∈ path, isDir name = true) → overlay.top.descend? path = .ok (some node) →
          (∃ other, tree.root.descend? path = .ok (some other) ∧ node.Mirrored other) ∨
          ∃ above name more other, path = above ++ name :: more ∧ tree.root.descend? above = .ok (some other) ∧
            other.IsUniform := by
  have sound := recorded.sound
  obtain ⟨scope, _, rooted⟩ := exists_dirOf_of_isAbsoluteDir sound.absolute
  obtain ⟨lower, top, opened, mounted, isTop⟩ := fits.opens sound
  have mountable := fits.mountable sound
  refine ⟨lower, ⟨census.root, lower, top, none⟩, opened, mounted source, ?_, fun tree chain => ?_⟩
  · intro plan dispatch previous idsFit ready chain
    obtain ⟨tree, report, built, _, next⟩ := Overlay.exists_built rooted isTop mountable idsFit ready chain
    exact ⟨tree, report, built, next⟩
  · have mirrored := chain.mirrored rooted isTop mountable
    refine ⟨mirrored, fun path node dirs leads => ?_⟩
    obtain ⟨data, block, below, payload, block', inner, shares, topEq, rootEq, labels, inside⟩ := mirrored
    rw [topEq] at leads
    rw [rootEq]
    exact Node.Mirrored.descend? (.shares labels inside) dirs leads

/-- A uniform node is written, and kept by a later build. -/
theorem built_mirrors_assigned_then_kept : ∃ census : Census, census.Reached ∧ census.Fits ∧
    census.files = [("/a/b/c", { size := 3 })] ∧ ∃ lower overlay first second earlier tree report report',
      StoredTree.ofBytes census.toBytes = .ok lower ∧ Overlay.ofTree lower "tree" = .ok overlay ∧
      Dispatch.ofPlan ⟨[], [("/a/b/".toList, .assign 5)]⟩ = .ok first ∧
      Dispatch.ofPlan ⟨[("/a/b/*".toList, 7)], [("/a/b/".toList, .reuse 9)]⟩ = .ok second ∧
      build overlay.top overlay.root first none = .ok (earlier, report) ∧
      build overlay.top overlay.root second (some earlier) = .ok (tree, report') ∧
      ∃ node other, overlay.top.descend? ["b/"] = .ok (some node) ∧ tree.root.descend? ["b/"] = .ok (some other) ∧
        node.Mirrored other := by
  obtain ⟨census, recorded, fits, _, files, whole⟩ := Census.exists_single_whole
  obtain ⟨lower, overlay, opened, mounted, builds, mirrors⟩ := built_mirrors recorded fits "tree"
  obtain ⟨first, second, earlier, tree, report, report', ready, also, built, rebuilt, chain⟩ :=
    Overlay.exists_assigned_then_kept builds
  obtain ⟨⟨data, block, below, payload, block', inner, shares, topEq, rootEq, ⟨stat, _, tagged⟩, _⟩, found⟩ :=
    mirrors tree chain
  obtain ⟨node, leads⟩ : ∃ node, overlay.top.descend? ["b/"] = .ok (some node) := by
    obtain ⟨lower', top, opened', mounts, isTop⟩ := fits.opens recorded.sound
    obtain rfl := Except.ok.inj (opened.symm.trans opened')
    obtain rfl := Except.ok.inj (mounted.symm.trans (mounts "tree"))
    obtain ⟨_, _, _, contents, _⟩ := Inventory.dir.inj whole
    have proper := recorded.sound.proper
    rw [contents] at isTop proper
    cases isTop with
    | sound _ _ stored =>
      rcases stored.find?_dir proper (by decide +kernel : isDir "b/" = true) with
        ⟨_, _, _, node, _, sought, _⟩ | ⟨missing, _⟩
      · refine ⟨node, ?_⟩
        simp only [Node.descend?, Node.child?, Node.children, bind, Except.bind, sought]
      · exact absurd missing (by decide +kernel)
  rcases found ["b/"] node (by decide +kernel) leads with
    ⟨other, known, mirrored⟩ | ⟨above, name, more, other, same, led, payload', dir, rule, read, decoded, tagging⟩
  · exact ⟨census, recorded, fits, files, lower, overlay, first, second, earlier, tree, report, report', opened, mounted,
      ready, also, built, rebuilt, node, other, leads, known, mirrored⟩
  · -- only the top stands above, and it has shares
    cases above with
    | nil =>
      obtain rfl := Option.some.inj (Except.ok.inj led)
      rw [rootEq] at read
      obtain rfl := Except.ok.inj read
      rw [tagged] at decoded
      obtain rfl := Except.ok.inj decoded
      cases tagging
    | cons first above => simp at same

end BackupAtlas
