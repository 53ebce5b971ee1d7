import BackupAtlas.Proofs.Placements
import BackupAtlas.Proofs.RegistryRuns

namespace BackupAtlas

open TreePath

theorem Claim.ruleList_untimed (claim : Claim) : claim.untimed.ruleList = claim.ruleList := by
  simp only [ruleList, untimed, Catalog.map, Catalog.mapNamed, Entries.map, List.map_map]
  rfl

namespace RuleSet

variable {set next : RuleSet}

theorem get?_untimed (set : RuleSet) (path : String) : set.untimed.get? path = (set.get? path).map Claim.untimed :=
  Catalog.get?_map _ _ _

theorem listAt_untimed (set : RuleSet) (path : String) : set.untimed.listAt path = set.listAt path := by
  rw [listAt, listAt, get?_untimed]
  cases set.get? path with
  | none => rfl
  | some claim => exact claim.ruleList_untimed

/-- Times do not matter for what a build relies on. -/
theorem sameOutside_of_untimed (same : set.untimed = next.untimed) (changed : List String) :
    SameOutside changed set next := fun path _ => by
  rw [← listAt_untimed, same, listAt_untimed]

theorem Starless.of_untimed (starless : set.Starless) (same : set.untimed = next.untimed) : next.Starless := by
  intro path claim claimed
  have there : set.untimed.get? path = some claim.untimed := by
    rw [same, get?_untimed, claimed]
    rfl
  rw [get?_untimed, Option.map_eq_some_iff] at there
  obtain ⟨old, known, _⟩ := there
  exact starless path old known

/-- Ids fit where a rule has been added only if they did before, and if that of the rule does. -/
theorem IdsFit.of_addRule {path : String} {rule : Rule} (fits : next.IdsFit)
    (ran : addRule path rule set = .ok () next) : set.IdsFit ∧ rule.id < 2 ^ 64 := by
  cases (Edit.addRule path rule).effect ran with
  | @addRule _ _ claim claimed allowed fresh same =>
    subst same
    have added : get? { set with claims := set.claims.insert path (claim.withRule rule) } path =
        some (claim.withRule rule) := by rw [get?_put, if_pos rfl]
    refine ⟨fun other found pattern old known listed => ?_, ?_⟩
    · by_cases here : other = path
      · subst here
        obtain rfl := Option.some.inj (claimed.symm.trans known)
        refine fits other _ pattern old added ?_
        rw [Claim.withRule, Catalog.get?_insert, if_neg fun equal => ?_, listed]
        rw [equal, fresh] at listed
        cases listed
      · exact fits other found pattern old (by rw [get?_put, if_neg here, known]) listed
    · refine fits path _ rule.pattern { rule with directoryId := claim.directory.id } added ?_
      rw [Claim.withRule, Catalog.get?_insert, if_pos rfl]

theorem IdsFit.of_addRules {batch : List (String × Rule)} (fits : next.IdsFit)
    (ran : batch.forM (fun entry => addRule entry.1 entry.2) set = .ok () next) :
    set.IdsFit ∧ ∀ entry ∈ batch, entry.2.id < 2 ^ 64 := by
  induction batch generalizing set with
  | nil =>
    obtain ⟨_, rfl⟩ := EStateM.Result.ok.inj ran
    exact ⟨fits, fun entry member => absurd member List.not_mem_nil⟩
  | cons entry batch ih =>
    rw [List.forM, bind_eq] at ran
    split at ran
    · rename_i middle added
      obtain ⟨fitsMiddle, later⟩ := ih ran
      obtain ⟨before, here⟩ := fitsMiddle.of_addRule added
      exact ⟨before, List.forall_mem_cons.mpr ⟨here, later⟩⟩
    · cases ran

/-- A rule that is updated keeps its id. -/
theorem IdsFit.updated {path : String} {rule previous : Rule} (fits : set.IdsFit)
    (ran : updateRule path rule set = .ok previous next) : rule.id < 2 ^ 64 := by
  obtain ⟨_, key, claim, claimed, listed, same, _⟩ := updateRule_ok ran
  exact same ▸ fits path claim key previous claimed (Catalog.get?_eq_some.mpr listed)

end RuleSet

namespace Atlas

variable {atlas next other : Atlas} {change : Op}

/-- The rules can be relied on, and files are looked up by them. Nothing is known of the snapshots. -/
structure Ready (atlas : Atlas) : Prop where
  regular : atlas.rules.Regular
  answers : atlas.dispatch.Answers atlas.rules.rulesAt

theorem Ready.congr (ready : atlas.Ready) (regular : next.rules.Regular)
    (same : RuleSet.SameOutside [] atlas.rules next.rules) (dispatch : next.dispatch = atlas.dispatch) :
    next.Ready := by
  have rules : atlas.rules.rulesAt = next.rules.rulesAt :=
    funext fun names => same.rulesAt ready.regular.sound regular.sound List.not_mem_nil
  refine ⟨regular, ?_⟩
  rw [dispatch, ← rules]
  exact ready.answers

/-- Rules that have just been compiled as a whole are ready. -/
theorem Ready.of_all (regular : next.rules.Regular) (compiled : Dispatch.all next.rules = .ok next.dispatch) :
    next.Ready := by
  obtain ⟨all, ran, answers⟩ := Dispatch.ruleFor_all regular.sound regular.starless
  obtain rfl := Except.ok.inj (ran.symm.trans compiled)
  exact ⟨regular, answers⟩

/-- Ids of rules that have been added or updated fit if all ids do afterwards. -/
theorem Op.Succeeds.allowed (ran : change.Succeeds atlas next) (fitsBefore : atlas.rules.IdsFit)
    (fits : next.rules.IdsFit) (starless : ∀ directory, change = .claim directory → '*' ∉ directory.path.toList)
    (genuine : ∀ disk path, change = .addTreeFile disk path → change.Allowed) : change.Allowed := by
  cases change with
  | claim directory => exact starless directory rfl
  | updateDirectory | revoke | removeRule => trivial
  | addRule dir rule =>
    obtain ⟨builds, ran⟩ := ran
    exact (fits.of_addRule ((addRule_ends dir rule).of_ok ran).1).2
  | addRules batch =>
    obtain ⟨builds, ran⟩ := ran
    exact (fits.of_addRules ((addRules_ends batch).of_ok ran).1).2
  | updateRule dir rule =>
    obtain ⟨builds, ran⟩ := ran
    obtain ⟨previous, updated, _⟩ := (updateRule_ends dir rule).of_ok ran
    exact fitsBefore.updated updated
  | addTreeFile disk path => exact genuine disk path rfl

/-- Files are looked up by the rules after every operation, whatever the snapshots are. -/
theorem Ready.succeeds (ready : atlas.Ready) (ran : change.Succeeds atlas next)
    (allowed : (∀ disk path, change ≠ .addTreeFile disk path) → change.Allowed) : next.Ready := by
  obtain ⟨regular, answers⟩ := ready
  cases change with
  | claim directory =>
    obtain ⟨edited, dispatch⟩ := (claim_ends directory).of_ok ran
    obtain ⟨regularNext, same, _⟩ := (RuleSet.Edit.claim directory).spec regular (allowed nofun) edited
    exact Ready.congr ⟨regular, answers⟩ regularNext same dispatch
  | updateDirectory directory =>
    obtain ⟨edited, dispatch⟩ := (updateDirectory_ends directory).of_ok ran
    obtain ⟨regularNext, same, _⟩ := (RuleSet.Edit.updateDirectory directory).spec regular (allowed nofun) edited
    exact Ready.congr ⟨regular, answers⟩ regularNext same dispatch
  | revoke path =>
    obtain ⟨directory, ran⟩ := ran
    obtain ⟨edited, dispatch⟩ := (revoke_ends path).of_ok ran
    obtain ⟨regularNext, same, _⟩ := (RuleSet.Edit.revoke path).spec regular (allowed nofun)
      (by rw [RuleSet.Edit.run_revoke, edited])
    exact Ready.congr ⟨regular, answers⟩ regularNext same dispatch
  | addRule dir rule =>
    obtain ⟨builds, ran⟩ := ran
    obtain ⟨edited, compiled⟩ := (addRule_ends dir rule).of_ok ran
    exact Ready.of_all ((RuleSet.Edit.addRule dir rule).spec regular (allowed nofun) edited).1 compiled
  | addRules batch =>
    obtain ⟨builds, ran⟩ := ran
    obtain ⟨added, ⟨_, same⟩ | compiled⟩ := (addRules_ends batch).of_ok ran
    · exact same ▸ ⟨regular, answers⟩
    · exact Ready.of_all (RuleSet.forM_addRule regular (allowed nofun) added).1 compiled
  | removeRule dir pattern =>
    obtain ⟨answer, ran⟩ := ran
    obtain ⟨edited, compiled⟩ := (removeRule_ends dir pattern).of_ok ran
    refine Ready.of_all ((RuleSet.Edit.removeRule dir pattern).spec regular (allowed nofun) ?_).1 compiled
    rw [RuleSet.Edit.run_removeRule, edited]
  | updateRule dir rule =>
    obtain ⟨builds, ran⟩ := ran
    obtain ⟨previous, updated, how⟩ := (updateRule_ends dir rule).of_ok ran
    obtain ⟨regularNext, _⟩ := (RuleSet.Edit.updateRule dir rule).spec regular (allowed nofun)
      (by rw [RuleSet.Edit.run_updateRule, updated])
    rcases how with ⟨keeps, dispatch⟩ | compiled
    · have same := RuleSet.sameOutside_updateRule regular.sound updated keeps
      exact Ready.congr ⟨regular, answers⟩ regularNext same dispatch
    · exact Ready.of_all regularNext compiled
  | addTreeFile disk path =>
    obtain ⟨build, ran⟩ := ran
    obtain ⟨rules, dispatch⟩ := (addTreeFile_ends disk path).of_ok ran
    exact ⟨rules ▸ regular, by rwa [rules, dispatch]⟩

/-- One step of a run: an operation that is allowed keeps an atlas sound. -/
theorem Sound.succeeds (sound : atlas.Sound) (ran : change.Succeeds atlas next) (allowed : change.Allowed) :
    next.Sound := by
  have left : change.leaves atlas = next := by
    cases change with
    | claim | updateDirectory => exact (by rw [Op.leaves, after, show _ = EStateM.Result.ok () next from ran])
    | revoke | addRule | addRules | removeRule | updateRule | addTreeFile =>
      obtain ⟨answer, ran⟩ := ran
      rw [Op.leaves, after, ran]
  exact left ▸ sound.leaves allowed

/-- Where all snapshots are genuine, no update of a rule has to be taken back. -/
theorem Sound.applies (sound : atlas.Sound) : atlas.Applies := by
  intro dir rule previous rules updated
  obtain ⟨regular, same, proper⟩ := (RuleSet.Edit.updateRule dir rule).spec sound.regular
    (sound.regular.idsFit.updated updated) (by rw [RuleSet.Edit.run_updateRule, updated])
  obtain ⟨reports, last, ran, _⟩ := sound.commit_spec regular same proper
  have proposed : proposed (RuleSet.updateRule dir rule) atlas = .ok (previous, rules) atlas := by
    rw [Atlas.proposed, updated]
  rw [updateRule, bind_eq, proposed]
  dsimp only
  split
  · exact ⟨_, _, rfl⟩
  · exact ⟨reports, last, ran⟩

theorem mirrors_bare (rules : other.rules = atlas.rules)
    (answers : other.dispatch.Answers atlas.rules.rulesAt) (bare : other.sites = .nil) : atlas.Mirrors other where
  rules := rules
  answers := answers
  neat := bare ▸ trivial
  mirrored names mirror found := by
    rw [bare, Sites.at?_nil] at found
    exact absurd found (by simp)

/-- An atlas in which all snapshots have been mounted again answers the same. -/
theorem Mirrors.answersSame (mirrors : atlas.Mirrors other) (sound : atlas.Sound)
    (every : ∀ overlay ∈ atlas.sites.overlays, (other.sites.at? (segments overlay.root)).isSome) :
    (∀ naming path, atlas.summary naming path = other.summary naming path) ∧
      ∀ path, atlas.ruleFor path = other.ruleFor path := by
  have alike : Sites.Alike (Overlay.Twin atlas.rules.rulesAt.ruleOf) [] atlas.sites other.sites := by
    refine sound.neat.alike mirrors.neat fun names => ?_
    cases found : other.sites.at? names with
    | some mirror =>
      obtain ⟨overlay, _, _, _, here, tagged, also, top⟩ := mirrors.mirrored names mirror found
      exact Or.inr ⟨overlay, mirror, here, found, tagged.twin also top⟩
    | none =>
      cases here : atlas.sites.at? names with
      | none => exact Or.inl ⟨here, found⟩
      | some overlay =>
        obtain ⟨_, _, _, tagged⟩ := sound.tagged names overlay here
        have there := every overlay ((Sites.mem_overlays sound.neat).mpr ⟨names, here⟩)
        rw [tagged.segments, found] at there
        exact absurd there (by simp)
  exact ⟨fun naming path => summary_alike alike mirrors.rules.symm naming path,
    fun path => sound.answers.unique mirrors.answers path.toList⟩

end Atlas

/-- The file of a snapshot when it is mounted. -/
structure Mounting where
  timing : Timing
  disk : Disk
  path : String

/-- The file has the snapshot of an overlay. -/
def Mounting.Has (mounting : Mounting) (overlay : Overlay) : Prop := ∃ bytes left,
  Disk.Call.readFile mounting.path mounting.disk = .ok bytes left ∧ StoredTree.ofBytes bytes = .ok overlay.lower

namespace Registry

variable {σ : Type} {registry : Registry σ}

/-- Mounts the snapshots of overlays from files, one after another. -/
def mountAll (mountings : Overlay → Mounting) (overlays : List Overlay) : Change σ Unit :=
  overlays.forM fun overlay => do
    modify fun registry => { registry with disk := (mountings overlay).disk }
    discard (addTree (mountings overlay).timing (mountings overlay).path)

/-- A registry mounts a snapshot if its atlas does. -/
theorem addTree_ok {path : String} {build : MountBuild} {atlas : Atlas}
    (ran : Atlas.addTreeFile registry.disk path registry.atlas = .ok build atlas) (timing : Timing) :
    ∃ last, addTree timing path registry = .ok build last ∧ last.atlas = atlas := by
  rw [addTree, bind_eq, get_eq]
  simp only [bind_eq, onAtlas, ran]
  exact ⟨_, rfl, rfl⟩

/-- Mounting snapshots on a registry does to its atlas what mounting them there does. -/
theorem mountAll_ok {mountings : Overlay → Mounting} {order : List Overlay} {next : Atlas}
    (has : ∀ overlay ∈ order, (mountings overlay).Has overlay)
    (ran : Atlas.mountAll (fun overlay => (mountings overlay).path) order registry.atlas = .ok () next) :
    ∃ last, mountAll mountings order registry = .ok () last ∧ last.atlas = next := by
  induction order generalizing registry with
  | nil =>
    obtain ⟨_, rfl⟩ := EStateM.Result.ok.inj ran
    exact ⟨registry, rfl, rfl⟩
  | cons overlay order ih =>
    obtain ⟨bytes, left, read, opened⟩ := has overlay List.mem_cons_self
    rw [Atlas.mountAll, List.forM, bind_eq, bind_eq] at ran
    cases mounted : Atlas.addTree overlay.lower (mountings overlay).path registry.atlas with
    | error e atlas =>
      rw [mounted] at ran
      cases ran
    | ok build atlas =>
      rw [mounted] at ran
      let ready : Registry σ := { registry with disk := (mountings overlay).disk }
      have file : Atlas.addTreeFile ready.disk (mountings overlay).path ready.atlas = .ok build atlas := by
        rw [Atlas.addTreeFile, show Disk.Call.readFile (mountings overlay).path ready.disk = .ok bytes left from read]
        simp only [bind_eq, Atlas.settled_eq, opened]
        exact mounted
      obtain ⟨middle, here, rfl⟩ := addTree_ok file (mountings overlay).timing
      obtain ⟨last, others, done⟩ := ih (fun other member => has other (List.mem_cons_of_mem _ member)) ran
      refine ⟨last, ?_, done⟩
      have opens : (modify fun registry => { registry with disk := (mountings overlay).disk } : Change σ Unit)
        registry = .ok () ready := rfl
      rw [mountAll, List.forM, bind_eq, bind_eq, opens]
      simp only [discard_eq, here]
      exact others

namespace Op

/-- No path is claimed that has a star. -/
def Starless : Op → Prop
  | claim path _ => '*' ∉ path.toList
  | _ => True

/-- A snapshot that can be mounted has been written from a census. -/
def Genuine : Op → Prop
  | addTree disk path => ∀ bytes rest lower overlay, Disk.Call.readFile path disk = .ok bytes rest →
      StoredTree.ofBytes bytes = .ok lower → Overlay.ofTree lower path = .ok overlay →
      ∃ census : Census, census.Reached ∧ census.Fits ∧ '*' ∉ census.root.toList ∧ bytes = census.toBytes
  | _ => True

theorem Genuine.allowed {disk : Disk} {path : String} (genuine : (addTree disk path).Genuine) {atlas next : Atlas}
    (ran : (Atlas.Op.addTreeFile disk path).Succeeds atlas next) : (Atlas.Op.addTreeFile disk path).Allowed := by
  intro bytes rest read
  obtain ⟨build, ran⟩ := ran
  rw [Atlas.addTreeFile, read] at ran
  simp only [bind_eq, Atlas.settled_eq] at ran
  cases opened : StoredTree.ofBytes bytes with
  | error e => simp [opened] at ran
  | ok lower =>
    rw [opened] at ran
    obtain ⟨overlay, _, _, _, mounts, _⟩ := Atlas.addTree_ok ran
    exact genuine bytes rest lower overlay read opened mounts

/-- What an operation does to an atlas is allowed there when rules have ids that fit, paths no star and snapshots are
genuine. -/
theorem Does.allowed {op : Op} {change : Atlas.Op} {atlas next : Atlas} (does : op.Does change)
    (ran : change.Succeeds atlas next) (fitsBefore : atlas.rules.IdsFit) (fits : next.rules.IdsFit)
    (starless : op.Starless) (genuine : (∃ disk path, change = .addTreeFile disk path) → op.Genuine) :
    change.Allowed := by
  refine ran.allowed fitsBefore fits (fun directory same => ?_) fun disk path same => ?_
  · subst same
    cases does with
    | claim same => exact same ▸ starless
  · subst same
    have written := genuine ⟨disk, path, rfl⟩
    cases does
    exact Genuine.allowed written ran

end Op

/-- A registry goes on where another one stopped: it has the same claims and rules, and finds the same rules for files.
If snapshots are genuine, the times are the same, too, and so are all figures once the snapshots are mounted again. -/
structure Resumes (genuine : Prop) (fresh registry : Registry σ) : Prop where
  untimed : fresh.atlas.rules.untimed = registry.atlas.rules.untimed
  ruleFor : ∀ path, fresh.atlas.ruleFor path = registry.atlas.ruleFor path
  rules : genuine → fresh.atlas.rules = registry.atlas.rules
  mounts : genuine → ∀ order : List Overlay, order.Perm registry.atlas.sites.overlays →
    ∀ mountings : Overlay → Mounting, (∀ overlay ∈ order, (mountings overlay).Has overlay) →
    ∃ resumed, mountAll mountings order fresh = .ok () resumed ∧
      (∀ naming path, resumed.atlas.summary naming path = registry.atlas.summary naming path) ∧
      ∀ path, resumed.atlas.ruleFor path = registry.atlas.ruleFor path

variable [RuleStore σ]

/-- Snapshots are mounted one after another, each from the disk as it is by then. -/
def mountOps (timing : Timing) : List String → Registry σ → List (Timing × Op)
  | [], _ => []
  | path :: paths, registry =>
    (timing, .addTree registry.disk path) :: mountOps timing paths (after (addTree timing path) registry)

/-- What a registry does with the configured snapshots when it begins. -/
def startOps (config : Config) (names : NameTable) (timing : Timing) (store : σ) (disk : Disk) : List (Timing × Op) :=
  match load store with
  | .error _ _ => []
  | .ok atlas left => mountOps timing config.snapshotFiles
      (after (note timing (.started config.hash atlas.counts.1 atlas.counts.2))
        (opened config names timing left atlas disk))

theorem afterRun_mountOps {timing : Timing} {paths : List String} {next : Registry σ}
    (ran : paths.forM (fun path => discard (addTree timing path)) registry = .ok () next) :
    registry.afterRun (mountOps timing paths registry) = next := by
  induction paths generalizing registry with
  | nil => exact (EStateM.Result.ok.inj ran).2
  | cons path paths ih =>
    have step : (addTree timing path : Change σ MountBuild) { registry with disk := registry.disk } =
        addTree timing path registry := rfl
    rw [List.forM, bind_eq, discard_eq] at ran
    rw [mountOps, afterRun, List.foldl_cons]
    simp only [Op.leaves, after, step]
    cases mounted : addTree timing path registry with
    | error e middle =>
      rw [mounted] at ran
      cases ran
    | ok build middle =>
      rw [mounted] at ran
      exact ih ran

/-- To begin is to mount the configured snapshots on top of what the store has. -/
theorem afterRun_startOps {store left : σ} {config : Config} {names : NameTable} {timing : Timing} {disk : Disk}
    {atlas : Atlas} (loaded : load store = .ok atlas left) (begun : start config names timing store disk = .ok registry) :
    ∃ first : Registry σ, first.store = left ∧ first.atlas = atlas ∧
      first.afterRun (startOps config names timing store disk) = registry := by
  rw [start_eq config names timing disk loaded, mountConfigured, bind_eq] at begun
  rw [startOps, loaded]
  refine ⟨after (note timing (.started config.hash atlas.counts.1 atlas.counts.2))
    (opened config names timing left atlas disk), rfl, rfl, ?_⟩
  dsimp only [note, modify, modifyGet, MonadStateOf.modifyGet, EStateM.modifyGet, after] at begun ⊢
  split at begun
  · rename_i next ran
    exact (afterRun_mountOps ran).trans (Except.ok.inj begun)
  · cases begun

theorem mem_startOps {store : σ} {config : Config} {names : NameTable} {timing : Timing} {disk : Disk}
    {entry : Timing × Op} (member : entry ∈ startOps config names timing store disk) :
    ∃ disk path, entry.2 = .addTree disk path := by
  have mounts : ∀ (paths : List String) (registry : Registry σ), entry ∈ mountOps timing paths registry →
      ∃ disk path, entry.2 = .addTree disk path := by
    intro paths
    induction paths with
    | nil => exact fun _ member => absurd member List.not_mem_nil
    | cons path paths ih =>
      intro registry member
      rcases List.mem_cons.mp member with rfl | later
      · exact ⟨_, _, rfl⟩
      · exact ih _ later
  rw [startOps] at member
  split at member
  · exact absurd member List.not_mem_nil
  · exact mounts _ _ member

/-- Whoever begins with the store of a registry, and without configured snapshots, goes on where it stopped. -/
def Resumable (genuine : Prop) (registry : Registry σ) : Prop := ∀ (config : Config) names timing disk,
  config.snapshotFiles = [] → ∃ fresh, start config names timing registry.store disk = .ok fresh ∧
    fresh.Resumes genuine registry

variable [RuleStore.Lawful σ] {room : Nat} {store : σ} {genuine : Prop}

open RuleStore.Lawful (Holds)

/-- Agreement with the store is all that a registry has to have to be resumed. -/
theorem Agrees.resumable (agrees : Agrees room False Atlas.Ready registry.store registry.atlas)
    (exactly : genuine → Agrees room True Atlas.Sound registry.store registry.atlas) : registry.Resumable genuine := by
  intro config names timing disk bare
  obtain ⟨directories, rules, kept, recorded, ready⟩ := agrees
  obtain ⟨distinct, distinctRules⟩ := RuleStore.Lawful.distinct kept
  obtain ⟨loaded, read, same, _⟩ := recorded.loads distinct distinctRules
  have sound := (RuleSet.ofRecords_reached read).sound
  obtain ⟨all, compiled, answers⟩ :=
    Dispatch.ruleFor_all sound (ready.regular.starless.of_untimed same.symm)
  have made : Atlas.ofRules loaded = .ok { rules := loaded, dispatch := all } := by
    rw [Atlas.ofRules, compiled]
    rfl
  have opened : load registry.store = .ok { rules := loaded, dispatch := all } registry.store := by
    rw [load_eq kept, read]
    simp only [bind, Except.bind, made]
  obtain ⟨fresh, begun, _, atlas⟩ := start_bare bare names timing disk opened
  have sameRules : loaded.rulesAt = registry.atlas.rules.rulesAt := funext fun names =>
    (RuleSet.sameOutside_of_untimed same []).rulesAt sound ready.regular.sound List.not_mem_nil
  have exact : genuine → loaded = registry.atlas.rules := fun holds => by
    obtain ⟨loaded', read', _, counted⟩ := ((exactly holds).recorded kept).loads distinct distinctRules
    rw [Except.ok.inj (read.symm.trans read'), counted trivial]
  refine ⟨fresh, begun, ⟨by rw [atlas, same], fun path => ?_, fun holds => by rw [atlas, exact holds],
    fun holds order perm mountings has => ?_⟩⟩
  · rw [atlas]
    exact answers.unique (sameRules ▸ ready.answers) path.toList
  · obtain ⟨_, _, _, _, soundAll⟩ := exactly holds
    have mirrors : registry.atlas.Mirrors fresh.atlas := by
      rw [atlas]
      exact Atlas.mirrors_bare (exact holds) (sameRules ▸ answers) rfl
    obtain ⟨next, ran, mirrored, every, _⟩ := mirrors.mountAll_spec soundAll (fun overlay => perm.mem_iff.mp)
      fun overlay => (mountings overlay).path
    obtain ⟨resumed, mounted, rfl⟩ := mountAll_ok has ran
    obtain ⟨summaries, answersSame⟩ := mirrored.answersSame soundAll fun overlay listed =>
      every overlay (perm.mem_iff.mpr listed)
    exact ⟨resumed, mounted, fun naming path => (summaries naming path).symm, fun path => (answersSame path).symm⟩

/-- A registry begins soundly with an empty store if the configured snapshots are genuine. -/
theorem start_sound {config : Config} {names : NameTable} {timing : Timing} {disk : Disk}
    (empty : Holds room store [] []) (begun : start config names timing store disk = .ok registry)
    (genuine : ∀ entry ∈ startOps config names timing store disk, entry.2.Genuine) :
    Agrees room True Atlas.Sound registry.store registry.atlas := by
  obtain ⟨bare, made, sound, _⟩ := Atlas.ofRules_spec RuleSet.regular_empty
  have loaded : load store = .ok bare store := by
    rw [load_eq empty, show RuleSet.ofRecords [] [] = .ok .empty from rfl]
    simp only [bind, Except.bind, made]
  obtain ⟨first, sameStore, sameAtlas, configured⟩ := afterRun_startOps loaded begun
  have noRules : creations (startOps config names timing store disk) = 0 := by
    refine List.sum_eq_zero fun count member => ?_
    obtain ⟨entry, listed, rfl⟩ := List.mem_map.mp member
    obtain ⟨disk, path, same⟩ := mem_startOps listed
    rw [same]
    rfl
  have agrees : Agrees (creations (startOps config names timing store disk) + room) True Atlas.Sound first.store
      first.atlas := by
    rw [sameStore, sameAtlas, noRules, Nat.zero_add]
    exact ⟨[], [], empty, (Atlas.ofRules_eq made).1 ▸ .of_ofRecords .nil .nil rfl, sound⟩
  rw [← configured]
  refine agrees.afterRun (fun _ => True) (fun _ atlas sound => sound.applies) ?_ fun _ _ => trivial
  intro entry member atlas change next sound does ran _
  have written := genuine entry member
  obtain ⟨disk, path, same⟩ := mem_startOps member
  rw [same] at does written
  cases does
  exact sound.succeeds ran (Op.Genuine.allowed written ran)

/-- A registry that began with an empty store can be resumed after any run of operations. -/
theorem start_resumable {config : Config} {names : NameTable} {timing : Timing} {disk : Disk}
    {ops : List (Timing × Op)} (empty : Holds (creations ops + room) store [] [])
    (begun : start config names timing store disk = .ok registry) (starless : ∀ entry ∈ ops, entry.2.Starless)
    (fit : ∀ before, before <+: ops → (registry.afterRun before).atlas.rules.IdsFit) :
    (registry.afterRun ops).Resumable (∀ entry ∈ startOps config names timing store disk ++ ops, entry.2.Genuine) := by
  obtain ⟨bare, made, sound, _⟩ := Atlas.ofRules_spec RuleSet.regular_empty
  have agrees : Agrees (creations ops + room) False Atlas.Ready registry.store registry.atlas := by
    refine start_agrees empty begun (fun set atlas read here => ?_) fun atlas next rules dispatch ready => ?_
    · obtain rfl : RuleSet.empty = set := Except.ok.inj read
      obtain rfl := Except.ok.inj (made.symm.trans here)
      exact ⟨sound.regular, sound.answers⟩
    · exact ⟨rules ▸ ready.regular, by rw [rules, dispatch]; exact ready.answers⟩
  refine Agrees.resumable (agrees.afterRun (fun atlas => atlas.rules.IdsFit) False.elim ?_ fit) fun genuine => ?_
  · intro entry member atlas change next ready does ran fits
    exact ready.succeeds ran fun notTree => does.allowed ran ready.regular.idsFit fits (starless entry member)
      fun ⟨disk, path, same⟩ => absurd same (notTree disk path)
  · obtain ⟨configured, genuine⟩ := List.forall_mem_append.mp genuine
    have exactly := start_sound empty begun configured
    refine exactly.afterRun (fun atlas => atlas.rules.IdsFit) (fun _ atlas sound => sound.applies) ?_ fit
    intro entry member atlas change next sound does ran fits
    exact sound.succeeds ran (does.allowed ran sound.regular.idsFit fits (starless entry member)
      fun _ => genuine entry member)

/-- A rule that is applied has an id that a rule in the store has. -/
theorem Agrees.idsFit {timed : Prop} {good : Atlas → Prop}
    (agrees : Agrees room timed good registry.store registry.atlas)
    (words : ∀ {directories rules}, Holds room registry.store directories rules → ∀ r ∈ rules, r.id < Word.limit) :
    registry.atlas.rules.IdsFit := by
  obtain ⟨directories, rules, kept, recorded, _⟩ := agrees
  intro path claim pattern rule claimed listed
  obtain ⟨row, member, alike⟩ := recorded.stored path pattern rule (by rw [RuleSet.rule?_eq claimed, listed])
  rw [← alike.fields.1]
  exact (words kept row member).trans_eq (by decide)

/-- Every run of operations can be resumed in which no path is claimed that has a star; other paths cannot always be
told apart when the rules are compiled. The store in memory has words for ids, of which the run may not need more than
there are. -/
theorem run_resumes (config : Config) (names : NameTable) (timing : Timing) (disk : Disk) (ops : List (Timing × Op))
    (starless : ∀ entry ∈ ops, entry.2.Starless) :
    (creations ops < Word.limit → ∀ registry, start config names timing ({} : MemoryStore) disk = .ok registry →
      (registry.afterRun ops).Resumable
        (∀ entry ∈ startOps config names timing ({} : MemoryStore) disk ++ ops, entry.2.Genuine)) ∧
    ∀ path registry, start config names timing ({ path } : Database) disk = .ok registry →
      (registry.afterRun ops).Resumable
        (∀ entry ∈ startOps config names timing ({ path } : Database) disk ++ ops, entry.2.Genuine) := by
  refine ⟨fun space registry begun => ?_, fun path registry begun => ?_⟩
  · have empty : Holds (creations ops + 0) ({} : MemoryStore) [] [] := MemoryStore.holds_empty space
    refine start_resumable empty begun starless fun before early => ?_
    have spent : Holds (creations before + 0) ({} : MemoryStore) [] [] :=
      MemoryStore.holds_empty (Nat.lt_of_le_of_lt (creations_le early) space)
    exact (start_afterRun_agrees spent begun).idsFit fun {_ _} held => MemoryStore.Holds.id_lt held
  · have empty : ∀ room, Holds room ({ path } : Database) [] [] := fun _ => Database.holds_empty path
    refine start_resumable (empty (creations ops + 0)) begun starless fun before _ => ?_
    exact (start_afterRun_agrees (empty (creations before + 0)) begun).idsFit fun {_ _} held =>
      Database.Holds.id_lt held

/-- Rules that were made before a snapshot is mounted, and a new registry that mounts it itself. -/
theorem run_resumes_rules_after_mount : ∃ config : Config, config.snapshotFiles = [] ∧
    (∃ ops : List (Timing × Op), ops = [(⟨0, 0⟩, .claim "/a/" "b"), (⟨1000, 0⟩, .createRule "/a/" { pattern := "*" }),
        (⟨2000, 0⟩, .updateRule "/a/" { id := 1, pattern := "c*" })] ∧
      (∀ entry ∈ ops, entry.2.Starless) ∧
      ∃ registry, start config {} ⟨0, 0⟩ ({} : MemoryStore) {} = .ok registry ∧ registry.atlas.counts = (0, 0) ∧
        (registry.afterRun ops).Resumable
          (∀ entry ∈ startOps config {} ⟨0, 0⟩ ({} : MemoryStore) {} ++ ops, entry.2.Genuine)) ∧
    ∃ (census : Census) (disk : Disk) (ops : List (Timing × Op)), census.files = [("/a/b/c", { size := 3 })] ∧
      Disk.Call.readFile "tree" disk = .ok census.toBytes disk ∧
      ops = [(⟨0, 0⟩, .addTree disk "tree"), (⟨0, 0⟩, .claim "/a/" "b"), (⟨0, 0⟩, .createRule "/a/" { pattern := "*" }),
        (⟨0, 0⟩, .passClaim "/a/" "d"), (⟨0, 0⟩, .removeRule "/a/" "x")] ∧
      (∀ entry ∈ ops, entry.2.Starless) ∧
      (∀ entry ∈ startOps config {} ⟨0, 0⟩ ({ path := "rules" } : Database) {} ++ ops, entry.2.Genuine) ∧
      ∃ registry, start config {} ⟨0, 0⟩ ({ path := "rules" } : Database) {} = .ok registry ∧
        registry.atlas.counts = (0, 0) ∧
        (registry.afterRun ops).Resumable
          (∀ entry ∈ startOps config {} ⟨0, 0⟩ ({ path := "rules" } : Database) {} ++ ops, entry.2.Genuine) := by
  have plain : '*' ∉ "/a/".toList := by decide +kernel
  refine ⟨{ Config.default none with journal := { enabled := false, path := "journal" } }, rfl, ?_, ?_⟩
  · have starless : ∀ entry ∈ [((⟨0, 0⟩ : Timing), Op.claim "/a/" "b"),
        (⟨1000, 0⟩, .createRule "/a/" { pattern := "*" }),
        (⟨2000, 0⟩, .updateRule "/a/" { id := 1, pattern := "c*" })], entry.2.Starless := by
      simp only [List.forall_mem_cons]
      exact ⟨plain, trivial, trivial, fun entry member => absurd member List.not_mem_nil⟩
    exact ⟨_, rfl, starless, exists_ok (by decide +kernel) fun registry begun _ =>
      (run_resumes _ _ _ _ _ starless).1 (by decide) registry begun⟩
  · obtain ⟨census, recorded, fits, root, files⟩ := Census.exists_single
    let disk : Disk := { entries := [(["tree"], .file 0)], contents := [census.toBytes] }
    have read : Disk.Call.readFile "tree" disk = .ok census.toBytes disk := rfl
    have starless : ∀ entry ∈ [((⟨0, 0⟩ : Timing), Op.addTree disk "tree"), (⟨0, 0⟩, .claim "/a/" "b"),
        (⟨0, 0⟩, .createRule "/a/" { pattern := "*" }), (⟨0, 0⟩, .passClaim "/a/" "d"),
        (⟨0, 0⟩, .removeRule "/a/" "x")], entry.2.Starless := by
      simp only [List.forall_mem_cons]
      exact ⟨trivial, plain, trivial, trivial, trivial, fun entry member => absurd member List.not_mem_nil⟩
    refine ⟨census, disk, _, files, read, rfl, starless, ?_, exists_ok (by decide +kernel) fun registry begun _ =>
      (run_resumes _ _ _ _ _ starless).2 _ registry begun⟩
    refine List.forall_mem_append.mpr ⟨fun entry member => absurd member List.not_mem_nil, ?_⟩
    simp only [List.forall_mem_cons]
    refine ⟨fun bytes rest _ _ same _ _ => ?_, trivial, trivial, trivial, trivial, fun entry member =>
      absurd member List.not_mem_nil⟩
    obtain ⟨rfl, _⟩ := EStateM.Result.ok.inj (same.symm.trans read)
    exact ⟨census, recorded, fits, root ▸ plain, rfl⟩

/-- The error of a computation that fails. -/
def failure? {ε δ ρ : Type} : Except (ε × δ) ρ → Option ε
  | .ok _ => none
  | .error (e, _) => some e

/-- A claim of a path with a star is stored, and from then on no registry can begin with the store. -/
theorem starred_claim_stays : ∃ config : Config, config.snapshotFiles = [] ∧ ∃ registry,
    start config {} ⟨0, 0⟩ ({} : MemoryStore) {} = .ok registry ∧
    failure? (start config {} ⟨0, 0⟩ (registry.afterRun [(⟨0, 0⟩, .claim "/*/" "bob")]).store {}) =
      some (.patternConflict "/*/") ∧
    ∀ genuine, ¬ (registry.afterRun [(⟨0, 0⟩, .claim "/*/" "bob")]).Resumable genuine := by
  let config : Config := { Config.default none with journal := { enabled := false, path := "journal" } }
  refine ⟨config, rfl, exists_ok (by decide +kernel) fun registry _ failed genuine resumable => ?_⟩
  obtain ⟨fresh, again, _⟩ := resumable config {} ⟨0, 0⟩ {} rfl
  rw [again] at failed
  cases failed

end Registry
end BackupAtlas
