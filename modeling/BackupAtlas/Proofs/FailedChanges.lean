import BackupAtlas.Proofs.Registries
import BackupAtlas.Proofs.Upkeep

namespace BackupAtlas

namespace Walk

variable {dispatch : Dispatch} {path : List Char} {name : String} {data : Bytes} {block : Block} {below rest : Nodes}
variable {walk : Walk} {reason : Error}

/-- A walk fails at a file whose payload makes no sense. -/
theorem nodes_file_error (plain : TreePath.isDir name = false) (torn : FileStat.decode data = .error reason) :
    nodes dispatch path (.entry name data block below rest) walk = .error reason := by
  have failed : walk.file dispatch (path ++ name.toList) (.sound data block below) = .error reason := by
    change (FileStat.decode data >>= _) = _
    rw [torn]
    rfl
  rw [nodes]
  simp only [plain, Bool.false_eq_true, if_false, failed]
  rfl

/-- What goes wrong in a directory that is walked goes wrong outside. -/
theorem nodes_inside_error (fresh : walk.prior = .absent) (isDir : TreePath.isDir name)
    (told : dispatch.directiveFor (path ++ name.toList) = .process) {owner : Owner}
    (owned : DirStat.decodeOwner data = .ok owner)
    (inside : ∀ walk, walk.prior = .absent → nodes dispatch (path ++ name.toList) below walk = .error reason) :
    nodes dispatch path (.entry name data block below rest) walk = .error reason := by
  have sought : walk.seek name = .ok (.absent, { walk with
      report := { walk.report with priorVisited := walk.report.priorVisited + 0 } }) := by
    rw [seek, fresh]
    cases walk
    cases fresh
    rfl
  have entered : ∀ report, enter .absent report =
    .ok { prior := .absent, report := { report with processed := report.processed + 1 } } := fun _ => rfl
  rw [nodes]
  simp only [isDir, if_true, told, sought, bind, Except.bind, owned, entered, inside]

end Walk

/-- What goes wrong in a walk fails a build. -/
theorem build_error {data : Bytes} {block : Block} {nodes : Nodes} {root : String} {dispatch : Dispatch} {owner : Owner}
    {reason : Error} (owned : DirStat.decodeOwner data = .ok owner)
    (failed : ∀ walk : Walk, walk.prior = .absent → Walk.nodes dispatch root.toList nodes walk = .error reason) :
    build (.sound data block nodes) root dispatch none = .error reason := by
  have entered : Walk.enter .absent {} = .ok { prior := .absent, report := { processed := 1 } } := rfl
  rw [build_eq]
  simp only [Node.data, Node.children, bind, Except.bind, owned, Counterpart.ofPrevious, entered, failed]

namespace Atlas

/-- If one of several calls fails, they fail together. -/
theorem mapM_error {α β : Type} {f : α → Except Error β} {values : List α} {value : α} {reason : Error}
    (member : value ∈ values) (failed : f value = .error reason) : ∃ e, values.mapM f = .error e := by
  induction values with
  | nil => exact absurd member List.not_mem_nil
  | cons head rest ih =>
    rw [List.mapM_cons]
    cases first : f head with
    | error e => exact ⟨e, rfl⟩
    | ok b =>
      have later : value ∈ rest := by
        rcases List.mem_cons.mp member with rfl | later
        · exact absurd (first.symm.trans failed) (by simp)
        · exact later
      obtain ⟨e, same⟩ := ih later
      exact ⟨e, by rw [same]; rfl⟩

theorem rebuild_error {rules : RuleSet} {changed : List String} (overlay : Overlay) {dispatch : Dispatch}
    (fresh : overlay.upper = none) (planned : Dispatch.ofPlan (Plan.compile rules overlay.root none) = .ok dispatch)
    {reason : Error} (failed : build overlay.top overlay.root dispatch none = .error reason) :
    rebuild rules changed overlay = .error reason := by
  simp only [rebuild, fresh, Option.map_none, planned, failed, bind, Except.bind]

/-- One snapshot that has to do with a change and cannot be built again is enough for the change to fail. -/
theorem commit_error {atlas : Atlas} {rules : RuleSet} {changed : List String} {dispatch : Dispatch}
    (ready : Dispatch.all rules = .ok dispatch) {overlay : Overlay} (mounted : overlay ∈ atlas.sites.overlays)
    (affected : changed.any (isAffected overlay.root)) {reason : Error}
    (broken : rebuild rules changed overlay = .error reason) : ∃ e, commit rules changed atlas = .error e atlas := by
  have member : overlay ∈ atlas.sites.overlays.filter fun overlay => changed.any (isAffected overlay.root) :=
    List.mem_filter.mpr ⟨mounted, affected⟩
  obtain ⟨e, failed⟩ := mapM_error member broken
  refine ⟨e, ?_⟩
  simp only [commit, bind_eq, get_eq, ready, settled, failed]

/-- A batch of which every rule is admitted still fails if a snapshot that has to do with it cannot be built again. -/
theorem addRules_error {atlas : Atlas} {entry : String × Rule} {batch : List (String × Rule)} {rules : RuleSet}
    (admitted : (entry :: batch).forM (fun entry => RuleSet.addRule entry.1 entry.2) atlas.rules = .ok () rules)
    {dispatch : Dispatch} (ready : Dispatch.all rules = .ok dispatch) {overlay : Overlay}
    (mounted : overlay ∈ atlas.sites.overlays)
    (affected : (directories (entry :: batch)).any (isAffected overlay.root)) {reason : Error}
    (broken : rebuild rules (directories (entry :: batch)) overlay = .error reason) :
    ∃ e, addRules (entry :: batch) atlas = .error e atlas := by
  obtain ⟨e, fails⟩ := commit_error ready mounted affected broken
  refine ⟨e, ?_⟩
  change (proposed ((entry :: batch).forM fun entry => RuleSet.addRule entry.1 entry.2) >>= fun answer =>
    commit answer.2 (directories (entry :: batch))) atlas = _
  rw [bind_eq, proposed, admitted]
  exact fails

/-- A call that is to change an atlas. -/
inductive Call where
  | addTree (lower : StoredTree) (source : String)
  | claim (directory : Directory)
  | updateDirectory (directory : Directory)
  | revoke (path : String)
  | addRule (dir : String) (rule : Rule)
  | addRules (batch : List (String × Rule))
  | removeRule (dir pattern : String)
  | updateRule (dir : String) (rule : Rule)

/-- What a call does, apart from its answer. -/
def Call.run : Call → Change Unit
  | addTree lower source => discard (Atlas.addTree lower source)
  | claim directory => Atlas.claim directory
  | updateDirectory directory => Atlas.updateDirectory directory
  | revoke path => discard (Atlas.revoke path)
  | addRule dir rule => discard (Atlas.addRule dir rule)
  | addRules batch => discard (Atlas.addRules batch)
  | removeRule dir pattern => discard (Atlas.removeRule dir pattern)
  | updateRule dir rule => discard (Atlas.updateRule dir rule)

/-- What a run of calls leaves, whether these succeed or fail. -/
def afterCalls (atlas : Atlas) (calls : List Call) : Atlas := calls.foldl (fun atlas call => after call.run atlas) atlas

/-- The calls of a run that succeed. -/
def succeeding : Atlas → List Call → List Call
  | _, [] => []
  | atlas, call :: calls =>
    match call.run atlas with
    | .ok _ next => call :: succeeding next calls
    | .error _ next => succeeding next calls

variable {α : Type} {atlas : Atlas}

theorem discard_ends {change : Change α} {good : α → Atlas → Prop}
    (ends : Ends good (fun _ next => next = atlas) (change atlas)) :
    Ends (fun _ _ => True) (fun _ next => next = atlas) ((discard change : Change Unit) atlas) := by
  rw [discard_eq]
  cases ran : change atlas with
  | ok a next => trivial
  | error e next =>
    rw [ran] at ends
    exact ends

/-- A call ends well or leaves the atlas as it was. -/
theorem Call.run_ends (call : Call) : Ends (fun _ _ => True) (fun _ next => next = atlas) (call.run atlas) := by
  cases call with
  | addTree lower source => exact discard_ends (addTree_ends lower source)
  | claim directory => exact (claim_ends directory).imp (fun _ _ _ => trivial) fun _ _ failed => failed.2
  | updateDirectory directory =>
    exact (updateDirectory_ends directory).imp (fun _ _ _ => trivial) fun _ _ failed => failed.2
  | revoke path => exact discard_ends ((revoke_ends path).imp (fun _ _ done => done) fun _ _ failed => failed.2)
  | addRule dir rule => exact discard_ends (addRule_ends dir rule)
  | addRules batch => exact discard_ends (addRules_ends batch)
  | removeRule dir pattern => exact discard_ends (removeRule_ends dir pattern)
  | updateRule dir rule => exact discard_ends (updateRule_ends dir rule)

/-- A call that fails leaves the atlas as it was. -/
theorem Call.unchanged {call : Call} {e : Error} {next : Atlas} (failed : call.run atlas = .error e next) :
    next = atlas := by
  have ends : Ends (fun _ _ => True) (fun _ next => next = atlas) (call.run atlas) := call.run_ends
  rw [failed] at ends
  exact ends

/-- Calls that fail could be left out. -/
theorem afterCalls_succeeding (atlas : Atlas) (calls : List Call) :
    atlas.afterCalls calls = atlas.afterCalls (succeeding atlas calls) := by
  induction calls generalizing atlas with
  | nil => rfl
  | cons call calls ih =>
    have left : atlas.afterCalls (call :: calls) = (after call.run atlas).afterCalls calls := rfl
    rw [left, succeeding, after]
    cases ran : call.run atlas with
    | ok a next =>
      have first : atlas.afterCalls (call :: succeeding next calls) =
        (after call.run atlas).afterCalls (succeeding next calls) := rfl
      simp only [first, after, ran]
      exact ih next
    | error e next =>
      obtain rfl := Call.unchanged ran
      exact ih next

/-- A call that fails in the course of a run leaves the atlas as it was, so that a run ends as if the calls that fail
had not been made. -/
theorem failures_leave_no_trace (atlas : Atlas) (calls : List Call) :
    (∀ call e next, Call.run call (atlas.afterCalls calls) = .error e next → next = atlas.afterCalls calls) ∧
      atlas.afterCalls calls = atlas.afterCalls (succeeding atlas calls) :=
  ⟨fun _ _ _ failed => Call.unchanged failed, afterCalls_succeeding atlas calls⟩

/-- The second of two snapshots has a file whose payload makes no sense, in a directory that gets a rule. The first
one has been built again when this is found. -/
theorem failures_leave_no_trace_later_build :
    let first : Overlay := { root := "/a/", lower := ⟨[], .sound [] ⟨[], 0⟩ .done⟩, top := .sound [0, 0, 0, 0] ⟨[], 0⟩ .done }
    let inner : Nodes := .entry "x" [] ⟨[], 0⟩ .done .done
    let second : Overlay := { first with
      root := "/m/", top := .sound [0, 0, 0, 0] ⟨[], 0⟩ (.entry "b/" [0, 0, 0, 0] ⟨[], 0⟩ inner .done) }
    let batch : List (String × Rule) := [("/a/", { id := 1, pattern := "x" }), ("/m/b/", { id := 2, pattern := "x" })]
    ∃ rules next, RuleSet.ofRecords [{ id := 1, path := "/a/" }, { id := 2, path := "/m/b/" }] [] = .ok rules ∧
      batch.forM (fun entry => RuleSet.addRule entry.1 entry.2) rules = .ok () next ∧
      (∃ rebuilt, rebuild next (directories batch) first = .ok rebuilt) ∧
      ∃ (atlas : Atlas) (e : Error) (left : Atlas),
        atlas = { sites := .mount "a/" first (.mount "m/" second .nil), rules } ∧
        Call.run (.addRules batch) atlas = .error e left ∧ left = atlas := by
  intro first inner second batch
  have known : (RuleSet.ofRecords [{ id := 1, path := "/a/" }, { id := 2, path := "/m/b/" }] []).toOption.map
      (fun rules => match batch.forM (fun entry => RuleSet.addRule entry.1 entry.2) rules with
        | .error _ _ => none
        | .ok _ next => some ((Dispatch.all next).toOption.map fun _ => (),
          (Dispatch.ofPlan (Plan.compile next "/a/" none)).toOption.map fun _ => (),
          (Dispatch.ofPlan (Plan.compile next "/m/" none)).toOption.map fun dispatch =>
            dispatch.dirs.top.search "/m/b/".toList)) = some (some (some (), some (), some (some .process))) := by
    decide +kernel
  have owned : DirStat.decodeOwner [0, 0, 0, 0] = .ok ⟨0, 0⟩ := rfl
  obtain ⟨rules, loaded, found⟩ := exists_ok_of_map known
  cases added : batch.forM (fun entry => RuleSet.addRule entry.1 entry.2) rules with
  | error e next => simp [added] at found
  | ok done next =>
    simp only [added, Option.some.injEq, Prod.mk.injEq] at found
    obtain ⟨all, here, there⟩ := found
    obtain ⟨dispatch, ready, _⟩ := exists_ok_of_map all
    obtain ⟨firstDispatch, firstReady, _⟩ := exists_ok_of_map here
    have built : ∃ rebuilt, rebuild next (directories batch) first = .ok rebuilt := by
      have sealed := StoredTree.ofBytes_seal
        (Block.leaf_reads (TaggedDir.encode { uid := 0, gid := 0, tagging := .shares [] })) (by decide +kernel)
      simp only [rebuild, first, Option.map_none, firstReady, build_eq, Node.data, Node.children, bind, Except.bind,
        owned, Walk.enter, Counterpart.ofPrevious, PriorChildren.ofCounterpart, pure, Except.pure, Walk.nodes,
        Walk.tagged, sealed]
      exact ⟨_, rfl⟩
    have broken : rebuild next (directories batch) second =
        .error (.corrupt "snapshot file payload" "truncated varint at offset 0") := by
      obtain ⟨dispatch, planned, searched⟩ := exists_ok_of_map there
      have walked : dispatch.directiveFor "/m/b/".toList = .process := Dispatch.directiveFor_of_search searched
      have failed : build second.top "/m/" dispatch none =
          .error (.corrupt "snapshot file payload" "truncated varint at offset 0") := by
        refine build_error owned fun walk fresh => ?_
        refine Walk.nodes_inside_error fresh (by decide +kernel) walked owned fun inside _ => ?_
        exact Walk.nodes_file_error (by decide +kernel) rfl
      exact rebuild_error second rfl planned failed
    let atlas : Atlas := { sites := .mount "a/" first (.mount "m/" second .nil), rules }
    have mounted : second ∈ atlas.sites.overlays := List.mem_cons_of_mem _ List.mem_cons_self
    obtain ⟨e, ran⟩ : ∃ e, addRules batch atlas = .error e atlas :=
      addRules_error added ready mounted (by decide +kernel) broken
    have failed : Call.run (.addRules batch) atlas = .error e atlas := by rw [Call.run, discard_eq, ran]
    exact ⟨rules, next, loaded, added, built, atlas, e, atlas, rfl, failed,
      (failures_leave_no_trace atlas []).1 _ _ _ failed⟩

end Atlas
end BackupAtlas
