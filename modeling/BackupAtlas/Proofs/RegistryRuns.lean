import BackupAtlas.Proofs.AtlasRuns
import BackupAtlas.Proofs.LoadedRecords
import BackupAtlas.Proofs.Registries

namespace BackupAtlas

namespace Atlas.Op

/-- An operation on an atlas succeeds and leaves another atlas. -/
def Succeeds (atlas next : Atlas) : Op → Prop
  | claim directory => Atlas.claim directory atlas = .ok () next
  | updateDirectory directory => Atlas.updateDirectory directory atlas = .ok () next
  | revoke path => ∃ directory, Atlas.revoke path atlas = .ok directory next
  | addRule dir rule => ∃ builds, Atlas.addRule dir rule atlas = .ok builds next
  | addRules batch => ∃ builds, Atlas.addRules batch atlas = .ok builds next
  | removeRule dir pattern => ∃ answer, Atlas.removeRule dir pattern atlas = .ok answer next
  | updateRule dir rule => ∃ builds, Atlas.updateRule dir rule atlas = .ok builds next
  | addTreeFile disk path => ∃ build, Atlas.addTreeFile disk path atlas = .ok build next

end Atlas.Op

namespace Registry

variable {σ α : Type} {registry : Registry σ} {holds : σ → Atlas → Prop}

/-- What a change leaves, whether it succeeds or fails. -/
def after (change : Change σ α) (registry : Registry σ) : Registry σ :=
  match change registry with
  | .ok _ next => next
  | .error _ next => next

theorem after_answer (change : Change σ α) {β : Type} (answer : α → β) (registry : Registry σ) :
    after (do return answer (← change)) registry = after change registry := by
  rw [after, after, bind_eq]
  cases change registry <;> rfl

/-- Many snapshots are mounted without a change of the store or of the rules. -/
theorem forM_addTree_leaves {timing : Timing} (paths : List String) (here : holds registry.store registry.atlas)
    (keeps : ∀ store atlas next, next.rules = atlas.rules → next.dispatch = atlas.dispatch → holds store atlas →
      holds store next) :
    Leaves holds (paths.forM (fun path => discard (addTree timing path)) registry) := by
  induction paths generalizing registry with
  | nil => exact here
  | cons path paths ih =>
    have mounted : Leaves holds (addTree timing path registry) := by
      refine (addTree_settles fun _ next _ rules dispatch =>
        keeps registry.store registry.atlas next rules dispatch here).leaves ?_
      rintro next ⟨store, beside⟩
      rwa [store, beside.atlas]
    rw [List.forM]
    refine Ends.bind.mpr ?_
    rw [discard_eq]
    cases ran : addTree timing path registry with
    | ok build next =>
      rw [ran] at mounted
      exact ih mounted
    | error e next =>
      rw [ran] at mounted
      exact mounted

/-- Something that is done to a registry. A snapshot is mounted from the disk as it is by then. -/
inductive Op where
  | claim (path claimedBy : String)
  | passClaim (path claimedBy : String)
  | revoke (path : String)
  | createRule (dir : String) (rule : Rule)
  | createRules (batch : List (String × Rule))
  | removeRule (dir pattern : String)
  | updateRule (dir : String) (rule : Rule)
  | addTree (disk : Disk) (path : String)

/-- The most records that an operation may add. -/
def Op.creations : Op → Nat
  | claim _ _ | createRule _ _ => 1
  | createRules batch => batch.length
  | passClaim _ _ | revoke _ | removeRule _ _ | updateRule _ _ | addTree _ _ => 0

/-- The most records that a run of operations may add. -/
def creations (ops : List (Timing × Op)) : Nat := (ops.map (·.2.creations)).sum

theorem creations_cons (entry : Timing × Op) (ops : List (Timing × Op)) :
    creations (entry :: ops) = entry.2.creations + creations ops := by rw [creations, List.map_cons, List.sum_cons, creations]

theorem creations_append (before after : List (Timing × Op)) :
    creations (before ++ after) = creations before + creations after := by
  rw [creations, List.map_append, List.sum_append_nat, creations, creations]

theorem creations_le {before ops : List (Timing × Op)} (early : before <+: ops) : creations before ≤ creations ops := by
  obtain ⟨after, rfl⟩ := early
  rw [creations_append]
  exact Nat.le_add_right _ _

/-- An operation on a registry does one on its atlas, unless it fails. -/
inductive Op.Does : Op → Atlas.Op → Prop
  | claim {path claimedBy : String} {directory : Directory} (same : directory.path = path) :
      Does (.claim path claimedBy) (.claim directory)
  | passClaim {path claimedBy : String} {directory : Directory} :
      Does (.passClaim path claimedBy) (.updateDirectory directory)
  | revoke {path : String} : Does (.revoke path) (.revoke path)
  | createRule {dir : String} {rule stored : Rule} : Does (.createRule dir rule) (.addRule dir stored)
  | createRules {batch stored : List (String × Rule)} : Does (.createRules batch) (.addRules stored)
  | removeRule {dir pattern : String} : Does (.removeRule dir pattern) (.removeRule dir pattern)
  | updateRule {dir : String} {rule stored : Rule} : Does (.updateRule dir rule) (.updateRule dir stored)
  | addTree {disk : Disk} {path : String} : Does (.addTree disk path) (.addTreeFile disk path)

variable [RuleStore σ]

/-- What an operation leaves, whether it succeeds or fails. -/
def Op.leaves (timing : Timing) (registry : Registry σ) : Op → Registry σ
  | claim path claimedBy => after (Registry.claim timing path claimedBy) registry
  | passClaim path claimedBy => after (Registry.passClaim timing path claimedBy) registry
  | revoke path => after (Registry.revoke timing path) registry
  | createRule dir rule => after (Registry.createRule timing dir rule) registry
  | createRules batch => after (Registry.createRules timing batch) registry
  | removeRule dir pattern => after (Registry.removeRule timing dir pattern) registry
  | updateRule dir rule => after (Registry.updateRule timing dir rule) registry
  | addTree disk path => after (Registry.addTree timing path) { registry with disk }

/-- What an operation answers. -/
inductive Answer where
  | claim (directory : Directory)
  | change (change : RuleChange)
  | batch (rules : List (String × Rule)) (builds : List MountBuild)
  | mount (build : MountBuild)
  deriving DecidableEq

/-- Does an operation. -/
def Op.perform (timing : Timing) : Op → Change σ Answer
  | claim path claimedBy => return .claim (← Registry.claim timing path claimedBy)
  | passClaim path claimedBy => return .claim (← Registry.passClaim timing path claimedBy)
  | revoke path => return .claim (← Registry.revoke timing path)
  | createRule dir rule => return .change (← Registry.createRule timing dir rule)
  | createRules batch => do
    let (rules, builds) ← Registry.createRules timing batch
    return .batch rules builds
  | removeRule dir pattern => return .change (← Registry.removeRule timing dir pattern)
  | updateRule dir rule => return .change (← Registry.updateRule timing dir rule)
  | addTree disk path => do
    modify fun registry => { registry with disk }
    return .mount (← Registry.addTree timing path)

/-- What an operation leaves is what its answer comes with. -/
theorem Op.leaves_eq (timing : Timing) (registry : Registry σ) (op : Op) :
    op.leaves timing registry = after (op.perform timing) registry := by
  cases op with
  | addTree disk path => exact (after_answer (Registry.addTree timing path) _ { registry with disk }).symm
  | _ => exact (after_answer _ _ registry).symm

/-- What a run of operations leaves, each of them done at its time. -/
def afterRun (registry : Registry σ) (ops : List (Timing × Op)) : Registry σ :=
  ops.foldl (fun registry (timing, op) => op.leaves timing registry) registry

/-- Reading the store gives the rules that are applied, apart from the times of the records. -/
def InStep (registry : Registry σ) : Prop := ∃ directories rules loaded,
  RuleStore.readDirectories registry.store = .ok directories registry.store ∧
  RuleStore.readRules registry.store = .ok rules registry.store ∧
  RuleSet.ofRecords directories rules = .ok loaded ∧ loaded.untimed = registry.atlas.rules.untimed

variable {store : σ}

/-- A registry that has not noted yet that it begins. -/
def opened (config : Config) (names : NameTable) (timing : Timing) (store : σ) (atlas : Atlas) (disk : Disk) :
    Registry σ :=
  let (journal, disk) := Journal.start config.journal timing.now disk
  { config, names, store, atlas, journal, disk }

/-- Notes the beginning and mounts the configured snapshots. -/
def mountConfigured (config : Config) (timing : Timing) (atlas : Atlas) : Change σ Unit := do
  note timing (.started config.hash atlas.counts.1 atlas.counts.2)
  config.snapshotFiles.forM fun path => discard (addTree timing path)

/-- Once a store has been loaded, only a snapshot of the configuration can stop a start. -/
theorem start_eq (config : Config) (names : NameTable) (timing : Timing) (disk : Disk) {atlas : Atlas} {left : σ}
    (loaded : load store = .ok atlas left) : start config names timing store disk =
      match mountConfigured config timing atlas (opened config names timing left atlas disk) with
      | .ok () registry => .ok registry
      | .error e registry => .error (e, registry.close) := by
  rw [start, loaded]
  rfl

/-- A registry without configured snapshots begins with what is in the store. -/
theorem start_bare {config : Config} (bare : config.snapshotFiles = []) (names : NameTable) (timing : Timing)
    (disk : Disk) {atlas : Atlas} (loaded : load store = .ok atlas store) : ∃ registry,
      start config names timing store disk = .ok registry ∧ registry.store = store ∧ registry.atlas = atlas := by
  rw [start_eq config names timing disk loaded, mountConfigured, bare]
  exact ⟨_, rfl, rfl, rfl⟩

variable [RuleStore.Lawful σ] {room : Nat} {timed : Prop} {good : Atlas → Prop}

open RuleStore.Lawful (Holds)

/-- What is loaded from a store that keeps some records is what these records make, and the store stays as it is. -/
theorem load_eq {directories : List Directory} {rules : List Rule} (kept : Holds room store directories rules) :
    load store = match RuleSet.ofRecords directories rules >>= Atlas.ofRules with
      | .ok atlas => .ok atlas store
      | .error e => .error e store := by
  obtain ⟨first, second⟩ := RuleStore.Lawful.reads kept
  rw [load, bind_eq, first]
  simp only [bind_eq, second]
  cases RuleSet.ofRecords directories rules >>= Atlas.ofRules <;> rfl

/-- What holds when the store has been read holds when the configured snapshots are mounted, too. -/
theorem start_leaves {config : Config} {names : NameTable} {timing : Timing} {disk : Disk}
    {directories : List Directory} {rules : List Rule} (kept : Holds room store directories rules)
    (begun : start config names timing store disk = .ok registry)
    (made : ∀ set atlas, RuleSet.ofRecords directories rules = .ok set → Atlas.ofRules set = .ok atlas →
      holds store atlas)
    (keeps : ∀ store atlas next, next.rules = atlas.rules → next.dispatch = atlas.dispatch → holds store atlas →
      holds store next) :
    holds registry.store registry.atlas := by
  have read := load_eq kept
  cases listed : RuleSet.ofRecords directories rules with
  | error e =>
    rw [listed] at read
    rw [start, show load store = .error e store from read] at begun
    cases begun
  | ok set =>
    rw [listed] at read
    cases ready : Atlas.ofRules set with
    | error e =>
      rw [start, show load store = .error e store by rw [read]; simp only [bind, Except.bind, ready]] at begun
      cases begun
    | ok atlas =>
      have loaded : load store = .ok atlas store := by
        rw [read]
        simp only [bind, Except.bind, ready]
      rw [start_eq config names timing disk loaded] at begun
      have here := made set atlas listed ready
      have mounted : Leaves holds
          (mountConfigured config timing atlas (opened config names timing store atlas disk)) := by
        refine Ends.bind.mpr ?_
        exact forM_addTree_leaves config.snapshotFiles here keeps
      split at begun
      · rename_i next ran
        rw [ran] at mounted
        exact Except.ok.inj begun ▸ mounted
      · cases begun

theorem Agrees.inStep (agrees : Agrees room timed good registry.store registry.atlas) : registry.InStep := by
  obtain ⟨directories, rules, kept, recorded, _⟩ := agrees
  obtain ⟨first, second⟩ := RuleStore.Lawful.reads kept
  obtain ⟨distinct, distinctRules⟩ := RuleStore.Lawful.distinct kept
  obtain ⟨loaded, read, same, _⟩ := recorded.loads distinct distinctRules
  exact ⟨directories, rules, loaded, first, second, read, same⟩

/-- The records of rules that may be left by an operation that fails: those that were there, of which one may have
another time of its last change. An update that cannot be applied leaves its own time, and a rule that cannot be removed
comes back with the time it was applied with. -/
inductive Op.Spares (timing : Timing) (atlas : Atlas) (rules : List Rule) : Op → List Rule → Prop
  | all (op : Op) : Spares timing atlas rules op rules
  | updateRule {dir : String} {rule : Rule} (refused : ¬ atlas.Applies) :
    Spares timing atlas rules (.updateRule dir rule) (rules.map (Rule.redated rule.id timing.seconds))
  | removeRule {dir pattern : String} {rule : Rule} (known : atlas.rules.rule? dir pattern = some rule) :
    Spares timing atlas rules (.removeRule dir pattern) (rules.map (Rule.redated rule.id rule.modified))

/-- What is spared records the same rules; where times count, updates must not be refused for that. -/
theorem Op.Spares.recorded {op : Op} {timing : Timing} {atlas : Atlas} {directories : List Directory}
    {rules rules' : List Rule} (spares : op.Spares timing atlas rules rules')
    (recorded : Recorded timed directories rules atlas.rules)
    (steady : timed → atlas.Applies ∨ ∀ dir rule, op ≠ .updateRule dir rule) :
    Recorded timed directories rules' atlas.rules := by
  cases spares with
  | all => exact recorded
  | updateRule refused =>
    exact recorded.redate (fun counts => (steady counts).elim refused fun other => other _ _ rfl) _ _
  | @removeRule dir pattern rule known =>
    obtain ⟨row, member, alike⟩ := recorded.stored dir pattern rule known
    exact recorded.retime known (.refl timed rule) (recorded.mem_redated member alike rule.modified)

/-- Each operation keeps the store in agreement with the atlas, and of the atlas whatever its operations keep. One that
fails leaves the atlas alone. -/
theorem Op.settles {directories : List Directory} {rules : List Rule} (op : Op)
    (kept : Holds (op.creations + room) registry.store directories rules)
    (recorded : Recorded timed directories rules registry.atlas.rules) (timing : Timing)
    (keeps : ∀ change next, op.Does change → change.Succeeds registry.atlas next → good next) :
    Settles (Agrees room timed good)
      (fun next => ∃ rules', op.Spares timing registry.atlas rules rules' ∧ registry.Undone room directories rules' next)
      (op.perform timing registry) := by
  have spared : ∀ {result : EStateM.Result Error (Registry σ) Answer},
      Settles (Agrees room timed good) (registry.Undone room directories rules) result → Settles (Agrees room timed good)
        (fun next => ∃ rules', op.Spares timing registry.atlas rules rules' ∧ registry.Undone room directories rules' next)
        result := fun settles => settles.imp (fun _ _ here => here) fun _ _ undone => ⟨rules, .all op, undone⟩
  -- all but new rules have nothing to do with how many ids are left
  have still : Holds room registry.store directories rules := RuleStore.Lawful.spent kept
  cases op with
  | claim path claimedBy =>
    exact spared (Ends.bind.mpr (claim_settles still recorded claimedBy fun _ next same ran =>
      keeps _ next (.claim same) ran))
  | passClaim path claimedBy =>
    exact spared (Ends.bind.mpr (passClaim_settles still recorded path claimedBy fun _ next ran =>
      keeps _ next .passClaim ran))
  | revoke path =>
    exact spared (Ends.bind.mpr (revoke_settles still recorded fun _ next ran => keeps _ next .revoke ⟨_, ran⟩))
  | createRule dir rule =>
    exact spared (Ends.bind.mpr (createRule_settles kept recorded rule fun _ _ next ran =>
      keeps _ next .createRule ⟨_, ran⟩))
  | createRules batch =>
    exact spared (Ends.bind.mpr (createRules_settles kept recorded fun _ _ next ran =>
      keeps _ next .createRules ⟨_, ran⟩))
  | removeRule dir pattern =>
    refine Ends.bind.mpr ((removeRule_settles still recorded fun _ next ran => keeps _ next .removeRule ⟨_, ran⟩).imp
      (fun _ _ here => here) ?_)
    rintro _ next (undone | ⟨rule, known, undone⟩)
    · exact ⟨rules, .all _, undone⟩
    · exact ⟨_, .removeRule known, undone⟩
  | updateRule dir rule =>
    refine Ends.bind.mpr ((updateRule_settles still recorded rule fun _ _ next ran =>
      keeps _ next .updateRule ⟨_, ran⟩).imp (fun _ _ here => here) ?_)
    rintro _ next (undone | ⟨refused, undone⟩)
    · exact ⟨rules, .all _, undone⟩
    · exact ⟨_, .updateRule refused, undone⟩
  | addTree disk path =>
    let ready : Registry σ := { registry with disk }
    have mounted : Settles (Agrees room timed good) (fun next => next.store = ready.store ∧ ready.Beside next)
        (Registry.addTree timing path ready) := by
      refine addTree_settles fun _ next ran same _ => ?_
      exact ⟨directories, rules, still, same ▸ recorded, keeps _ next .addTree ⟨_, ran⟩⟩
    have opens : (modify fun registry => { registry with disk } : Change σ Unit) registry = .ok () ready := rfl
    refine (Ends.bind_ok opens).mpr (Ends.bind.mpr (mounted.imp (fun _ _ here => here) ?_))
    rintro _ next ⟨store, beside⟩
    exact ⟨rules, .all _, ⟨⟨beside.atlas, beside.names⟩, store ▸ still⟩⟩

/-- What an operation leaves agrees as before; where times count, no update of a rule may have been taken back. -/
theorem Agrees.leaves (op : Op) (agrees : Agrees (op.creations + room) timed good registry.store registry.atlas)
    (timing : Timing)
    (steady : timed → registry.atlas.Applies ∨
      ∀ dir rule e next, op = .updateRule dir rule → op.perform timing registry ≠ .error e next)
    (keeps : ∀ change next, op.Does change → change.Succeeds registry.atlas next → good next) :
    Agrees room timed good (op.leaves timing registry).store (op.leaves timing registry).atlas := by
  obtain ⟨directories, rules, kept, recorded, fine⟩ := agrees
  have settles := op.settles kept recorded timing keeps
  rw [Op.leaves_eq, after]
  cases ran : op.perform timing registry with
  | ok answer next =>
    rw [ran] at settles
    exact settles
  | error e next =>
    rw [ran] at settles
    obtain ⟨rules', spares, undone⟩ := settles
    refine undone.agrees (spares.recorded recorded fun counts => ?_) fine
    exact (steady counts).imp_right fun other dir rule same => other dir rule e next same ran

/-- Of the atlas, a run keeps what all successful operations keep, as long as `fits` holds of what they leave. -/
theorem Agrees.afterRun (fits : Atlas → Prop) {ops : List (Timing × Op)}
    (agrees : Agrees (creations ops + room) timed good registry.store registry.atlas)
    (applies : timed → ∀ atlas, good atlas → atlas.Applies)
    (keeps : ∀ entry ∈ ops, ∀ atlas change next, good atlas → entry.2.Does change → change.Succeeds atlas next →
      fits next → good next)
    (fit : ∀ before, before <+: ops → fits (registry.afterRun before).atlas) :
    Agrees room timed good (registry.afterRun ops).store (registry.afterRun ops).atlas := by
  induction ops generalizing registry with
  | nil => exact agrees.spent
  | cons entry ops ih =>
    obtain ⟨directories, rules, kept, recorded, fine⟩ := agrees
    rw [creations_cons, Nat.add_assoc] at kept
    have here : Agrees _ timed (fun next => fits next → good next) registry.store registry.atlas :=
      ⟨directories, rules, kept, recorded, fun _ => fine⟩
    obtain ⟨directories', rules', keptNext, recordedNext, fineNext⟩ :=
      here.leaves entry.2 entry.1 (fun counts => Or.inl (applies counts _ fine)) fun change next does ran =>
        keeps entry List.mem_cons_self registry.atlas change next fine does ran
    refine ih ⟨directories', rules', keptNext, recordedNext, fineNext (fit [entry] ⟨ops, rfl⟩)⟩
      (fun other member => keeps other (List.mem_cons_of_mem _ member)) fun before early => ?_
    exact fit (entry :: before) (List.prefix_cons_inj entry |>.mpr early)

/-- A registry agrees with the store that it begins with. -/
theorem start_agrees {config : Config} {names : NameTable} {timing : Timing} {disk : Disk}
    {directories : List Directory} {rules : List Rule} (kept : Holds room store directories rules)
    (begun : start config names timing store disk = .ok registry)
    (fine : ∀ set atlas, RuleSet.ofRecords directories rules = .ok set → Atlas.ofRules set = .ok atlas → good atlas)
    (keeps : ∀ atlas next : Atlas, next.rules = atlas.rules → next.dispatch = atlas.dispatch → good atlas →
      good next) :
    Agrees room timed good registry.store registry.atlas := by
  obtain ⟨first, second⟩ := RuleStore.Lawful.ascending kept
  refine start_leaves kept begun (fun set atlas read ready => ?_) fun store atlas next same dispatch agrees => ?_
  · have recorded : Recorded timed directories rules set :=
      .of_ofRecords (first.imp fun less => by omega) (second.imp fun less => by omega) read
    exact ⟨directories, rules, kept, (Atlas.ofRules_eq ready).1 ▸ recorded, fine set atlas read ready⟩
  · obtain ⟨directories, rows, kept, recorded, here⟩ := agrees
    exact ⟨directories, rows, kept, same ▸ recorded, keeps atlas next same dispatch here⟩

/-- A registry that has just begun applies the rules that its store keeps. -/
theorem start_agrees_rules {config : Config} {names : NameTable} {timing : Timing} {disk : Disk}
    {directories : List Directory} {rules : List Rule} (kept : Holds room store directories rules)
    (begun : start config names timing store disk = .ok registry) :
    Agrees room timed (fun _ => True) registry.store registry.atlas :=
  start_agrees kept begun (fun _ _ _ _ => trivial) fun _ _ _ _ _ => trivial

/-- From an empty store on, store and atlas agree after any run that the store has room for. -/
theorem start_afterRun_agrees {config : Config} {names : NameTable} {timing : Timing} {disk : Disk}
    {ops : List (Timing × Op)} (empty : Holds (creations ops + room) store [] [])
    (begun : start config names timing store disk = .ok registry) :
    Agrees room False (fun _ => True) (registry.afterRun ops).store (registry.afterRun ops).atlas :=
  (start_agrees_rules empty begun).afterRun (fun _ => True) False.elim (fun _ _ _ _ _ _ _ _ _ => trivial)
    fun _ _ => trivial

/-- After any run of operations that began with an empty store, each of which may succeed or fail, the records of the
store make the rules that are applied, apart from the times of the records. The store in memory has words for ids, of
which the run may not need more than there are. -/
theorem run_inStep (config : Config) (names : NameTable) (timing : Timing) (disk : Disk) (ops : List (Timing × Op)) :
    (creations ops < Word.limit → ∀ registry, start config names timing ({} : MemoryStore) disk = .ok registry →
      (registry.afterRun ops).InStep) ∧
    ∀ path registry, start config names timing ({ path } : Database) disk = .ok registry →
      (registry.afterRun ops).InStep := by
  refine ⟨fun space _ begun => ?_, fun path _ begun => ?_⟩
  · have empty : Holds (creations ops + 0) ({} : MemoryStore) [] [] := MemoryStore.holds_empty space
    exact (start_afterRun_agrees empty begun).inStep
  · have empty : Holds (creations ops + 0) ({ path } : Database) [] [] := Database.holds_empty path
    exact (start_afterRun_agrees empty begun).inStep

/-- A computation whose outcome passes a check has an outcome. -/
theorem exists_ok {ε ρ : Type} {result : Except ε ρ} {check good : ρ → Prop} [DecidablePred check]
    (passes : result.toOption.any fun outcome => decide (check outcome))
    (also : ∀ outcome, result = .ok outcome → check outcome → good outcome) :
    ∃ outcome, result = .ok outcome ∧ check outcome ∧ good outcome := by
  cases result with
  | ok outcome => exact ⟨outcome, rfl, of_decide_eq_true passes, also outcome rfl (of_decide_eq_true passes)⟩
  | error e => cases passes

theorem exists_outcome {ε ρ : Type} {result : Except ε ρ} {check : ρ → Prop} [DecidablePred check]
    (passes : result.toOption.any fun outcome => decide (check outcome)) :
    ∃ outcome, result = .ok outcome ∧ check outcome := by
  obtain ⟨outcome, ran, passed, _⟩ := exists_ok passes fun _ _ passed => passed
  exact ⟨outcome, ran, passed⟩

/-- Two claims whose texts collide. From then on no rule can be changed, and every attempt is taken back. -/
theorem run_inStep_taken_back : ∃ (config : Config) (ops : List (Timing × Op)),
    ops = [(⟨0, 0⟩, .claim "/a/" "b"), (⟨1000, 0⟩, .createRule "/a/" { pattern := "*" }), (⟨2000, 0⟩, .claim "/*/" "c"),
      (⟨3000, 0⟩, .createRule "/a/" { pattern := "x" }), (⟨4000, 0⟩, .updateRule "/a/" { id := 1, pattern := "y" }),
      (⟨5000, 0⟩, .removeRule "/a/" "*")] ∧
    (∃ registry, start config {} ⟨0, 0⟩ ({} : MemoryStore) {} = .ok registry ∧
      (registry.afterRun ops).atlas.counts = (2, 1) ∧ (registry.afterRun ops).InStep) ∧
    ∃ registry, start config {} ⟨0, 0⟩ ({ path := "rules" } : Database) {} = .ok registry ∧
      (registry.afterRun ops).atlas.counts = (2, 1) ∧ (registry.afterRun ops).InStep := by
  refine ⟨{ Config.default none with journal := { enabled := false, path := "journal" } }, _, rfl, ?_, ?_⟩
  · exact exists_ok (by decide +kernel) fun registry begun _ => (run_inStep _ _ _ _ _).1 (by decide) registry begun
  · exact exists_ok (by decide +kernel) fun registry begun _ => (run_inStep _ _ _ _ _).2 _ registry begun

end Registry
end BackupAtlas
