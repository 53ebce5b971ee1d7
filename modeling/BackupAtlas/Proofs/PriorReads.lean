import BackupAtlas.Proofs.Owners
import BackupAtlas.Proofs.WrittenTrees

namespace BackupAtlas

/-- All nodes, at any depth. -/
def Nodes.total : Nodes → Nat
  | done => 0
  | flaw _ rest => rest.total
  | torn _ _ rest => rest.total + 1
  | entry _ _ _ below rest => below.total + rest.total + 1

/-- All nodes below this one. -/
def Node.total : Node → Nat
  | torn _ => 0
  | sound _ _ below => below.total

/-- All nodes below the part of a tree that stands for a directory. -/
def Counterpart.total : Counterpart → Nat
  | node found => found.total
  | uniform _ | absent => 0

/-- What a node opens as has no more entries than the node. -/
theorem Counterpart.total_le {node : Node} {found : Counterpart} (opened : ofNode node = .ok found) :
    found.total ≤ node.total := by
  cases found with
  | node other => exact Nat.le_of_eq (congrArg Node.total (eq_of_ofNode opened))
  | uniform rule => exact Nat.zero_le _
  | absent => exact Nat.zero_le _

namespace PriorChildren

/-- How many nodes can still be read, in a directory and in those below it. What is pending has been read. -/
def left : PriorChildren → Nat
  | listed none rest => rest.total
  | listed (some (_, node)) rest => node.total + rest.total
  | uniform _ | absent => 0

variable {name key : String} {node : Node} {nodes rest : Nodes} {prior next : PriorChildren} {found : Counterpart}
  {visited count : Nat}

theorem left_ofCounterpart (opened : ofCounterpart found = .ok prior) : prior.left = found.total := by
  cases found with
  | node here =>
    cases here with
    | torn reason => cases opened
    | sound data block below => rw [← Except.ok.inj opened]; rfl
  | uniform rule => rw [← Except.ok.inj opened]; rfl
  | absent => rw [← Except.ok.inj opened]; rfl

/-- An entry is passed on to one directory, or it is kept. -/
theorem settle_ok (settled : settle name key node rest visited = some (.ok (found, next, count))) :
    count + found.total + next.left ≤ visited + node.total + rest.total := by
  unfold settle at settled
  split at settled
  · cases settled
  · split at settled
    · cases opened : Counterpart.ofNode node with
      | error reason =>
        rw [opened] at settled
        cases Option.some.inj settled
      | ok here =>
        rw [opened] at settled
        obtain ⟨rfl, rfl, rfl⟩ := Except.ok.inj (Option.some.inj settled)
        have within := Counterpart.total_le opened
        simp only [left]
        omega
    · obtain ⟨rfl, rfl, rfl⟩ := Except.ok.inj (Option.some.inj settled)
      simp only [left, Counterpart.total]
      omega

theorem settled_or_later
    (sought : (settle name key node rest visited).getD (advance name visited rest) = .ok (found, next, count))
    (later : advance name visited rest = .ok (found, next, count) →
      count + found.total + next.left ≤ visited + rest.total) :
    count + found.total + next.left ≤ visited + node.total + rest.total := by
  cases settled : settle name key node rest visited with
  | none =>
    rw [settled] at sought
    have bound := later sought
    omega
  | some answer =>
    rw [settled, Option.getD_some] at sought
    exact settle_ok (sought ▸ settled)

/-- A search reads entries at most once, and leaves the rest to be read. -/
theorem advance_ok (sought : advance name visited nodes = .ok (found, next, count)) :
    count + found.total + next.left ≤ visited + nodes.total := by
  induction nodes generalizing visited with
  | done =>
    obtain ⟨rfl, rfl, rfl⟩ := Except.ok.inj sought
    exact Nat.le_refl _
  | flaw reason rest _ => cases sought
  | torn key reason rest ih =>
    unfold advance at sought
    have bound := settled_or_later sought ih
    simp only [Node.total, Nodes.total] at bound ⊢
    omega
  | entry key data block below rest _ ih =>
    unfold advance at sought
    have bound := settled_or_later sought ih
    simp only [Node.total, Nodes.total] at bound ⊢
    omega

/-- What a search reads, what it passes on and what it leaves was all there before. -/
theorem seek_ok (sought : seek name prior = .ok (found, next, count)) :
    count + found.total + next.left ≤ prior.left := by
  cases prior with
  | listed pending rest =>
    cases pending with
    | none =>
      have bound : count + found.total + next.left ≤ 0 + rest.total := advance_ok sought
      rwa [Nat.zero_add] at bound
    | some entry =>
      have bound : count + found.total + next.left ≤ 0 + entry.2.total + rest.total :=
        settled_or_later sought advance_ok
      rwa [Nat.zero_add] at bound
  | uniform rule =>
    obtain ⟨rfl, rfl, rfl⟩ := Except.ok.inj sought
    exact Nat.le_refl _
  | absent =>
    obtain ⟨rfl, rfl, rfl⟩ := Except.ok.inj sought
    exact Nat.le_refl _

end PriorChildren

namespace Walk

/-- How much of the previous tree has been read in all, and can still be read for the directory that is walked. -/
def reads (walk : Walk) : Nat := walk.report.priorVisited + walk.prior.left

variable {walk next : Walk} {name : String} {node : Node} {rule : Nat} {found : Counterpart} {dispatch : Dispatch}

/-- Looking for a counterpart reads no entry twice. -/
theorem seek_reads (sought : walk.seek name = .ok (found, next)) : next.reads + found.total ≤ walk.reads := by
  rw [seek] at sought
  obtain ⟨⟨here, prior, visited⟩, looked, made⟩ := exists_of_bind_eq_ok sought
  obtain ⟨rfl, rfl⟩ := Prod.mk.inj (Except.ok.inj made)
  have bound := PriorChildren.seek_ok looked
  simp only [reads]
  omega

theorem uniform_reads (ran : walk.uniform name node rule = .ok next) : next.reads = walk.reads := by
  rw [uniform] at ran
  obtain ⟨data, _, ran⟩ := exists_of_bind_eq_ok ran
  obtain ⟨dir, _, ran⟩ := exists_of_bind_eq_ok ran
  rw [← Except.ok.inj ran]
  rfl

theorem adopt_reads (ran : walk.adopt name node rule found = .ok next) : next.reads = walk.reads := by
  cases found with
  | node previous =>
    rw [adopt] at ran
    obtain ⟨data, _, ran⟩ := exists_of_bind_eq_ok ran
    obtain ⟨dir, _, ran⟩ := exists_of_bind_eq_ok ran
    obtain ⟨block, _, ran⟩ := exists_of_bind_eq_ok ran
    rw [← Except.ok.inj ran]
    rfl
  | uniform previous => exact uniform_reads ran
  | absent => exact uniform_reads ran

/-- To take over a directory reads no entry twice. -/
theorem reuse_reads (ran : walk.reuse name node rule = .ok next) : next.reads ≤ walk.reads := by
  have whole := ran
  rw [reuse] at whole
  obtain ⟨⟨found, mid⟩, sought, _⟩ := exists_of_bind_eq_ok whole
  rw [reuse_eq rule sought] at ran
  have bound := seek_reads sought
  rw [adopt_reads ran]
  have same : reads { walk with report := { walk.report with reused := walk.report.reused + 1 } } = walk.reads := rfl
  omega

theorem file_reads {path : List Char} (ran : walk.file dispatch path node = .ok next) : next.reads = walk.reads := by
  rw [file] at ran
  obtain ⟨data, _, ran⟩ := exists_of_bind_eq_ok ran
  obtain ⟨stat, _, ran⟩ := exists_of_bind_eq_ok ran
  rw [← Except.ok.inj ran]
  rfl

/-- When a directory is entered, all entries of its counterpart can still be read. -/
theorem enter_reads {report : Report} (opened : enter found report = .ok walk) :
    walk.reads = report.priorVisited + found.total := by
  rw [enter] at opened
  obtain ⟨prior, known, opened⟩ := exists_of_bind_eq_ok opened
  obtain rfl := Except.ok.inj opened
  rw [reads, PriorChildren.left_ofCounterpart known]

/-- The counterpart of a subdirectory has been put aside for the walk through it. -/
theorem leave_reads (owner : Owner) {mid entered inside : Walk} (sought : walk.seek name = .ok (found, mid))
    (opened : enter found mid.report = .ok entered) (below : inside.reads ≤ entered.reads) :
    (mid.leave name owner inside).reads ≤ walk.reads := by
  have bound := seek_reads sought
  rw [enter_reads opened] at below
  simp only [reads, leave] at bound below ⊢
  omega

/-- Walking through a directory only turns what can be read into what has been read. -/
theorem nodes_reads {path : List Char} {lower : Nodes} (ran : nodes dispatch path lower walk = .ok next) :
    next.reads ≤ walk.reads := by
  induction lower generalizing path walk next with
  | done =>
    obtain rfl := Except.ok.inj ran
    exact Nat.le_refl _
  | flaw reason rest _ => cases ran
  | torn name reason rest ih =>
    unfold nodes at ran
    split at ran
    · cases directive : dispatch.directiveFor (path ++ name.toList) with
      | process =>
        simp only [directive] at ran
        obtain ⟨_, _, ran⟩ := exists_of_bind_eq_ok ran
        cases ran
      | assign rule =>
        simp only [directive] at ran
        cases ran
      | reuse rule =>
        simp only [directive] at ran
        obtain ⟨mid, kept, ran⟩ := exists_of_bind_eq_ok ran
        exact (ih ran).trans (reuse_reads kept)
      | unmatched =>
        simp only [directive] at ran
        obtain ⟨mid, kept, ran⟩ := exists_of_bind_eq_ok ran
        exact (ih ran).trans (reuse_reads kept)
    · cases ran
  | entry name data block below rest ihBelow ihRest =>
    unfold nodes at ran
    split at ran
    · cases directive : dispatch.directiveFor (path ++ name.toList) with
      | process =>
        simp only [directive] at ran
        obtain ⟨⟨found, mid⟩, sought, ran⟩ := exists_of_bind_eq_ok ran
        obtain ⟨owner, _, ran⟩ := exists_of_bind_eq_ok ran
        obtain ⟨entered, opened, ran⟩ := exists_of_bind_eq_ok ran
        obtain ⟨inside, through, ran⟩ := exists_of_bind_eq_ok ran
        exact (ihRest ran).trans (leave_reads owner sought opened (ihBelow through))
      | assign rule =>
        simp only [directive] at ran
        obtain ⟨mid, given, ran⟩ := exists_of_bind_eq_ok ran
        have same := uniform_reads given
        exact (ihRest ran).trans (Nat.le_of_eq same)
      | reuse rule =>
        simp only [directive] at ran
        obtain ⟨mid, kept, ran⟩ := exists_of_bind_eq_ok ran
        exact (ihRest ran).trans (reuse_reads kept)
      | unmatched =>
        simp only [directive] at ran
        obtain ⟨mid, kept, ran⟩ := exists_of_bind_eq_ok ran
        exact (ihRest ran).trans (reuse_reads kept)
    · obtain ⟨mid, filed, ran⟩ := exists_of_bind_eq_ok ran
      exact (ihRest ran).trans (Nat.le_of_eq (file_reads filed))

end Walk

/-- A build reads no more entries than the previous tree has, however the trees differ. -/
theorem build_priorVisited_le {top : Node} {root : String} {dispatch : Dispatch} {previous : Option StoredTree}
    {tree : StoredTree} {report : Report} (built : build top root dispatch previous = .ok (tree, report)) :
    report.priorVisited ≤ (Counterpart.ofPrevious previous).total := by
  rw [build_eq] at built
  obtain ⟨data, _, built⟩ := exists_of_bind_eq_ok built
  obtain ⟨owner, _, built⟩ := exists_of_bind_eq_ok built
  obtain ⟨entered, opened, built⟩ := exists_of_bind_eq_ok built
  obtain ⟨lower, _, built⟩ := exists_of_bind_eq_ok built
  obtain ⟨walk, ran, built⟩ := exists_of_bind_eq_ok built
  obtain ⟨made, _, built⟩ := exists_of_bind_eq_ok built
  obtain ⟨_, rfl⟩ := Prod.mk.inj (Except.ok.inj built)
  have spent := Walk.nodes_reads ran
  rw [Walk.enter_reads opened] at spent
  simp only [Walk.reads] at spent
  change walk.report.priorVisited ≤ _
  have fresh : ({} : Report).priorVisited = 0 := rfl
  omega

/-- All nodes that are described, at any depth. -/
def Outline.total : Outline → Nat
  | done => 0
  | entry _ _ _ below rest => below.total + rest.total + 1

theorem Nodes.total_ofList (children : List (String × Node)) :
    (ofList children).total = (children.map fun child => child.2.total + 1).sum := by
  induction children with
  | nil => rfl
  | cons child rest ih =>
    obtain ⟨name, node⟩ := child
    rw [List.map_cons, List.sum_cons, ← ih]
    cases node with
    | torn reason =>
      change (ofList rest).total + 1 = 0 + 1 + (ofList rest).total
      omega
    | sound data block below =>
      change below.total + (ofList rest).total + 1 = below.total + 1 + (ofList rest).total
      omega

/-- The order of the children makes no difference to how many nodes there are. -/
theorem Part.total_eq_sum (part : Part) :
    part.node.total = (part.below.named.map fun child => child.2.total + 1).sum := by
  rw [node, Node.total, Nodes.total_ofList]
  exact ((Piece.sort_perm _).map _).sum_eq

theorem Outline.sum_named (outline : Outline) :
    (outline.named.map fun child => child.2.total + 1).sum = outline.total := by
  induction outline with
  | done => rfl
  | entry name data origin below rest ihBelow ihRest =>
    have step : (entry name data origin below rest).named = (name, Part.node ⟨data, origin, below⟩) :: rest.named := rfl
    rw [step, List.map_cons, List.sum_cons, ihRest, Part.total_eq_sum, ihBelow, total]
    omega

theorem Part.total_node (part : Part) : part.node.total = part.below.total := by
  rw [part.total_eq_sum, part.below.sum_named]

/-- A build reads no entry of the previous tree twice: whatever snapshot is walked and whatever the directives are, it
reads as many entries at most as calls have written below the topmost node, and none if there is no previous tree. -/
theorem prior_entries_read_once {script : Script} {data : Bytes} (proper : script.Proper)
    (complete : script.Complete data) : ∃ previous, (script.run {}).tree data = .ok previous ∧
      ∀ top root dispatch tree report,
        (build top root dispatch (some previous) = .ok (tree, report) →
          report.priorVisited ≤ (script.part data).below.total) ∧
        (build top root dispatch none = .ok (tree, report) → report.priorVisited = 0) := by
  obtain ⟨bytes, written⟩ := proper.tree complete
  refine ⟨_, written, fun top root dispatch tree report => ⟨fun built => ?_, fun built => ?_⟩⟩
  · have bound := build_priorVisited_le built
    change _ ≤ (script.part data).node.total at bound
    rwa [Part.total_node] at bound
  · exact Nat.le_zero.mp (build_priorVisited_le built)

/-- Two entries are read in step with one subdirectory: the one in front of it, and its own. -/
theorem prior_entries_read_once_skipped :
    let uniform := TaggedDir.encode { uid := 0, gid := 0, tagging := .uniform 5 }
    let script := Script.leaf "a/" uniform (.leaf "b/" uniform .done)
    let top := Node.sound (DirStat.encode {}) ⟨[], 0⟩ (.entry "b/" (DirStat.encode {}) ⟨[], 0⟩ .done .done)
    script.Proper ∧ script.Complete [] ∧ (script.part []).below.total = 2 ∧ ∃ previous tree report,
      (script.run {}).tree [] = .ok previous ∧ build top "/s/" {} (some previous) = .ok (tree, report) ∧
      report.priorVisited = 2 ∧ report.priorVisited ≤ (script.part []).below.total := by
  intro uniform script top
  have proper : script.Proper := trivial
  have complete : script.Complete [] := proper.complete (by decide +kernel) (by decide +kernel) (by decide +kernel)
  obtain ⟨previous, written, bounds⟩ := prior_entries_read_once proper complete
  obtain ⟨bytes, same⟩ := proper.tree complete
  obtain rfl := Except.ok.inj (written.symm.trans same)
  let kept : Part :=
    ⟨TaggedDir.encode { uid := 0, gid := 0, tagging := .shares [] }, none, .entry "b/" uniform none .done .done⟩
  have walked : (do
      let owner ← DirStat.decodeOwner (← top.data)
      let walk ← Walk.enter (.node (script.part []).node) {}
      let walk ← Walk.nodes {} "/s/".toList (← top.children) walk
      pure (Block.ofNode (walk.tagged owner) walk.pieces, walk.report) : Except Error (Block × Report)) =
        .ok (kept.block, { processed := 1, reused := 1, priorVisited := 2 }) := by
    decide +kernel
  obtain ⟨data, known, walked⟩ := exists_of_bind_eq_ok walked
  obtain ⟨owner, owned, walked⟩ := exists_of_bind_eq_ok walked
  obtain ⟨entered, opened, walked⟩ := exists_of_bind_eq_ok walked
  obtain ⟨lower, below, walked⟩ := exists_of_bind_eq_ok walked
  obtain ⟨walk, ran, walked⟩ := exists_of_bind_eq_ok walked
  obtain ⟨made, reported⟩ := Prod.mk.inj (Except.ok.inj walked)
  have short : (StoredTree.seal kept.block).length < 2 ^ 64 := by decide +kernel
  have built : build top "/s/" {} (some ⟨bytes, (script.part []).node⟩) =
      .ok ({ bytes := StoredTree.seal kept.block, root := kept.node },
        { walk.report with bytes := (StoredTree.seal kept.block).length }) := by
    rw [build_eq]
    simp only [Counterpart.ofPrevious, known, owned, opened, below, ran, bind, Except.bind, made,
      StoredTree.ofBytes_seal kept.reads short]
    rfl
  have bound := (bounds _ _ _ _ _).1 built
  have count : walk.report.priorVisited = 2 := by rw [reported]
  exact ⟨proper, complete, rfl, _, _, _, written, built, count, bound⟩

end BackupAtlas
