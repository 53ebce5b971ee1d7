import BackupAtlas.Proofs.Rebuilds

namespace BackupAtlas

open TreePath

namespace Catalog

variable {α : Type}

theorem mem_names_ofList {entries : List (String × α)} {name : String} :
    name ∈ (ofList entries).names ↔ name ∈ entries.map (·.1) := by
  have folded : ∀ (entries : List (String × α)) (start : Catalog α),
      (∃ value, (entries.foldl (fun c entry => c.insert entry.1 entry.2) start).get? name = some value) ↔
        name ∈ entries.map (·.1) ∨ ∃ value, start.get? name = some value := by
    intro entries
    induction entries with
    | nil => simp
    | cons entry entries ih =>
      intro start
      rw [List.foldl_cons, ih, get?_insert, List.map_cons, List.mem_cons]
      by_cases here : name = entry.1
      · simp [here]
      · simp [here]
  have mem_names : ∀ c : Catalog α, name ∈ c.names ↔ ∃ value, c.get? name = some value := by
    intro c
    simp only [names, List.mem_map, Prod.exists, get?_eq_some]
    constructor
    · rintro ⟨_, value, member, rfl⟩
      exact ⟨value, member⟩
    · rintro ⟨value, member⟩
      exact ⟨name, value, member, rfl⟩
  rw [mem_names, ofList]
  refine (folded entries empty).trans ?_
  simp [empty, get?, Entries.get?]

end Catalog

namespace Atlas

/-- Something that is done to an atlas. -/
inductive Op where
  | claim (directory : Directory)
  | updateDirectory (directory : Directory)
  | revoke (path : String)
  | addRule (dir : String) (rule : Rule)
  | addRules (batch : List (String × Rule))
  | removeRule (dir pattern : String)
  | updateRule (dir : String) (rule : Rule)
  | addTreeFile (disk : Disk) (path : String)

namespace Op

/-- What an operation leaves, whether it succeeds or fails. -/
def leaves (atlas : Atlas) : Op → Atlas
  | claim directory => after (Atlas.claim directory) atlas
  | updateDirectory directory => after (Atlas.updateDirectory directory) atlas
  | revoke path => after (Atlas.revoke path) atlas
  | addRule dir rule => after (Atlas.addRule dir rule) atlas
  | addRules batch => after (Atlas.addRules batch) atlas
  | removeRule dir pattern => after (Atlas.removeRule dir pattern) atlas
  | updateRule dir rule => after (Atlas.updateRule dir rule) atlas
  | addTreeFile disk path => after (Atlas.addTreeFile disk path) atlas

/-- Claimed paths and the roots of snapshots have no star, and numbers have the width of their fields. Files that
can be read as snapshots have been written from a census. -/
def Allowed : Op → Prop
  | claim directory => '*' ∉ directory.path.toList
  | addRule _ rule | updateRule _ rule => rule.id < 2 ^ 64
  | addRules batch => ∀ entry ∈ batch, entry.2.id < 2 ^ 64
  | addTreeFile disk path => ∀ bytes rest, Disk.Call.readFile path disk = .ok bytes rest →
      ∃ census : Census, census.Reached ∧ census.Fits ∧ '*' ∉ census.root.toList ∧ bytes = census.toBytes
  | updateDirectory _ | revoke _ | removeRule _ _ => True

end Op

variable {atlas : Atlas}

/-- Rules that are the same in all directories need no builds. -/
theorem Sound.withRules {next : RuleSet} (sound : atlas.Sound) (regular : next.Regular)
    (same : RuleSet.SameOutside [] atlas.rules next) : Sound { atlas with rules := next } := by
  have rules : atlas.rules.rulesAt = next.rulesAt :=
    funext fun names => same.rulesAt sound.regular.sound regular.sound List.not_mem_nil
  exact ⟨regular, rules ▸ sound.answers, sound.neat, rules ▸ sound.tagged⟩

/-- An atlas stays sound when its rules change without a snapshot being concerned. -/
theorem Sound.after_onRules {α : Type} {change : RuleSet.Change α} (sound : atlas.Sound)
    (done : ∀ a next, change atlas.rules = .ok a next → next.Regular ∧ RuleSet.SameOutside [] atlas.rules next)
    (failed : ∀ error next, change atlas.rules = .error error next → next = atlas.rules) :
    (after (onRules change) atlas).Sound := by
  rw [after, onRules]
  cases ran : change atlas.rules with
  | error error next =>
    obtain rfl := failed error next ran
    exact sound
  | ok a next =>
    obtain ⟨regular, same⟩ := done a next ran
    exact sound.withRules regular same

theorem after_bind {α β : Type} (change : Change α) (next : α → Change β) : after (change >>= next) atlas =
    match change atlas with
    | .ok a left => after (next a) left
    | .error _ left => left := by
  rw [after, bind_eq]
  cases change atlas <;> rfl

theorem after_map {α β : Type} (change : Change α) (f : α → β) : after (change >>= fun a => pure (f a)) atlas =
    after change atlas := by
  rw [after_bind, after]
  cases change atlas <;> rfl

/-- What is proposed and then committed keeps everything up to date. -/
theorem Sound.after_proposed {α β : Type} {change : RuleSet.Change α} {next : α × RuleSet → Change β}
    (sound : atlas.Sound)
    (done : ∀ a rules, change atlas.rules = .ok a rules → (after (next (a, rules)) atlas).Sound) :
    (after (proposed change >>= next) atlas).Sound := by
  rw [after_bind, proposed]
  cases ran : change atlas.rules with
  | error error rules => exact sound
  | ok a rules => exact done a rules ran

/-- An atlas stays sound when rules are applied that differ only in the changed directories. -/
theorem Sound.after_commit {next : RuleSet} {changed : List String} (sound : atlas.Sound)
    (edited : next.Regular ∧ RuleSet.SameOutside changed atlas.rules next ∧ Terrain.ProperDirs changed) :
    (after (commit next changed) atlas).Sound := by
  obtain ⟨regular, same, proper⟩ := edited
  obtain ⟨reports, last, ran, soundLast, _⟩ := sound.commit_spec regular same proper
  rw [after, ran]
  exact soundLast

theorem mem_directories {batch : List (String × Rule)} {dir : String} :
    dir ∈ directories batch ↔ dir ∈ batch.map (·.1) := by
  rw [directories, Catalog.mem_names_ofList, List.map_map]
  rfl

/-- Every operation keeps everything up to date. -/
theorem Sound.leaves (sound : atlas.Sound) {op : Op} (allowed : op.Allowed) : (op.leaves atlas).Sound := by
  have regular := sound.regular
  cases op with
  | claim directory =>
    refine sound.after_onRules (fun _ next ran => ?_) fun error next failed => ?_
    · exact ((RuleSet.Edit.claim directory).spec regular allowed ran).imp_right And.left
    · exact RuleSet.Edit.unchanged (show (RuleSet.Edit.claim directory).run atlas.rules = .error error next from failed)
  | updateDirectory directory =>
    refine sound.after_onRules (fun _ next ran => ?_) fun error next failed => ?_
    · exact ((RuleSet.Edit.updateDirectory directory).spec regular allowed ran).imp_right And.left
    · exact RuleSet.Edit.unchanged (show (RuleSet.Edit.updateDirectory directory).run atlas.rules =
        .error error next from failed)
  | revoke path =>
    refine sound.after_onRules (fun _ next ran => ?_) fun error next failed => ?_
    · exact ((RuleSet.Edit.revoke path).spec regular allowed (by rw [RuleSet.Edit.run_revoke, ran])).imp_right And.left
    · have ran : (RuleSet.Edit.revoke path).run atlas.rules = .error error next := by
        rw [RuleSet.Edit.run_revoke, failed]
      exact RuleSet.Edit.unchanged ran
  | addRule dir rule =>
    refine sound.after_proposed fun _ rules ran => sound.after_commit ?_
    exact (RuleSet.Edit.addRule dir rule).spec regular allowed ran
  | removeRule dir pattern =>
    refine sound.after_proposed fun rule rules ran => ?_
    rw [after_map]
    refine sound.after_commit ?_
    exact (RuleSet.Edit.removeRule dir pattern).spec regular allowed (by rw [RuleSet.Edit.run_removeRule, ran])
  | updateRule dir rule =>
    refine sound.after_proposed fun previous rules ran => ?_
    obtain ⟨regularNext, same, proper⟩ := (RuleSet.Edit.updateRule dir rule).spec regular allowed
      (by rw [RuleSet.Edit.run_updateRule, ran])
    dsimp only
    split
    · rename_i keeps
      exact sound.withRules regularNext (RuleSet.sameOutside_updateRule regular.sound ran keeps)
    · exact sound.after_commit ⟨regularNext, same, proper⟩
  | addRules batch =>
    rw [Op.leaves, Atlas.addRules]
    split
    · exact sound
    · refine sound.after_proposed fun _ rules ran => sound.after_commit ?_
      obtain ⟨regularNext, same, proper⟩ := RuleSet.forM_addRule regular allowed ran
      exact ⟨regularNext, same.mono fun dir => mem_directories.mpr, fun dir member =>
        proper dir (mem_directories.mp member)⟩
  | addTreeFile disk path => exact sound.after_addTreeFile disk path allowed

/-- What a run of operations leaves. -/
def afterRun (atlas : Atlas) (ops : List Op) : Atlas := ops.foldl Op.leaves atlas

/-- Runs keep an atlas sound, whatever succeeds or fails on the way. -/
theorem Sound.afterRun (sound : atlas.Sound) {ops : List Op} (allowed : ∀ op ∈ ops, op.Allowed) :
    (atlas.afterRun ops).Sound := by
  induction ops generalizing atlas with
  | nil => exact sound
  | cons op ops ih =>
    exact ih (sound.leaves (allowed op List.mem_cons_self)) fun next member =>
      allowed next (List.mem_cons_of_mem _ member)

theorem ofRules_eq {rules : RuleSet} {atlas : Atlas} (ready : ofRules rules = .ok atlas) :
    atlas.rules = rules ∧ atlas.sites = .nil := by
  rw [ofRules] at ready
  cases compiled : Dispatch.all rules with
  | ok dispatch =>
    rw [compiled] at ready
    exact Except.ok.inj ready ▸ ⟨rfl, rfl⟩
  | error e =>
    rw [compiled] at ready
    cases ready

/-- An atlas without snapshots. -/
theorem ofRules_spec {rules : RuleSet} (regular : rules.Regular) : ∃ atlas, ofRules rules = .ok atlas ∧ atlas.Sound ∧
    atlas.rules = rules ∧ atlas.sites = .nil := by
  obtain ⟨all, ready, answers⟩ := Dispatch.ruleFor_all regular.sound regular.starless
  refine ⟨{ rules, dispatch := all }, ?_, ⟨regular, answers, trivial, fun names overlay found => ?_⟩, rfl, rfl⟩
  · rw [ofRules, ready]
    rfl
  · simp only [Sites.at?_nil] at found
    exact absurd found (by simp)

/-- Some of the snapshots of an atlas, mounted in another one with the same rules. -/
structure Mirrors (atlas other : Atlas) : Prop where
  rules : other.rules = atlas.rules
  answers : other.dispatch.Answers atlas.rules.rulesAt
  neat : other.sites.Neat
  mirrored : ∀ names mirror, other.sites.at? names = some mirror → ∃ overlay uid gid inventory,
    atlas.sites.at? names = some overlay ∧ overlay.Tagged atlas.rules.rulesAt names uid gid inventory ∧
      mirror.Tagged atlas.rules.rulesAt names uid gid inventory ∧ overlay.top = mirror.top

/-- Mounts the snapshots of overlays one after another, each built without a previous tree. -/
def mountAll (source : Overlay → String) (overlays : List Overlay) : Change Unit :=
  overlays.forM fun overlay => do let _ ← addTree overlay.lower (source overlay)

variable {other : Atlas}

/-- To mount one more snapshot brings an atlas that mirrors another a step closer to it. -/
theorem Mirrors.addTree_spec (mirrors : atlas.Mirrors other) (sound : atlas.Sound) {names : List String}
    {overlay : Overlay}
    (found : atlas.sites.at? names = some overlay) (source : String) : ∃ result next,
      addTree overlay.lower source other = .ok result next ∧ atlas.Mirrors next ∧ (next.sites.at? names).isSome ∧
      ∀ known, (other.sites.at? known).isSome → (next.sites.at? known).isSome := by
  obtain ⟨uid, gid, inventory, tagged⟩ := sound.tagged names overlay found
  have admitted : other.sites.admits names := by
    refine mirrors.neat.admits tagged.below fun known mirror there comparable => ?_
    obtain ⟨original, _, _, _, here, _⟩ := mirrors.mirrored known mirror there
    rcases comparable with above | below
    · exact Sites.eq_of_prefix here found above
    · exact (Sites.eq_of_prefix found here below).symm
  obtain ⟨result, mirror, isTagged, top, ran⟩ := Atlas.addTree_spec (mirrors.rules ▸ sound.regular) tagged.toMounted
    admitted source
  have placed : ∀ known, (other.sites.place mirror names).at? known = _ := Sites.at?_place mirrors.neat admitted
  refine ⟨result, _, ran, ⟨mirrors.rules, mirrors.answers, mirrors.neat.place mirror names, ?_⟩, ?_, ?_⟩
  · intro known mounted there
    rw [placed] at there
    split at there
    · rename_i same
      obtain rfl := Option.some.inj there
      subst same
      exact ⟨overlay, uid, gid, inventory, found, tagged, mirrors.rules ▸ isTagged, top.symm⟩
    · exact mirrors.mirrored known mounted there
  · rw [placed, if_pos rfl]
    rfl
  · intro known there
    rw [placed]
    split
    · rfl
    · exact there

/-- Snapshots of an atlas can be mounted in any order. -/
theorem Mirrors.mountAll_spec {order : List Overlay} (mirrors : atlas.Mirrors other) (sound : atlas.Sound)
    (mounted : ∀ overlay ∈ order, overlay ∈ atlas.sites.overlays) (source : Overlay → String) : ∃ next,
      mountAll source order other = .ok () next ∧ atlas.Mirrors next ∧
      (∀ overlay ∈ order, (next.sites.at? (segments overlay.root)).isSome) ∧
      ∀ known, (other.sites.at? known).isSome → (next.sites.at? known).isSome := by
  induction order generalizing other with
  | nil => exact ⟨other, rfl, mirrors, fun overlay member => absurd member List.not_mem_nil, fun _ known => known⟩
  | cons overlay order ih =>
    obtain ⟨names, found⟩ := (Sites.mem_overlays sound.neat).mp (mounted overlay List.mem_cons_self)
    obtain ⟨_, _, _, tagged⟩ := sound.tagged names overlay found
    obtain ⟨result, middle, ran, mirrorsMiddle, here, kept⟩ := mirrors.addTree_spec sound found (source overlay)
    obtain ⟨next, others, mirrorsNext, there, keptNext⟩ :=
      ih mirrorsMiddle fun next member => mounted next (List.mem_cons_of_mem _ member)
    refine ⟨next, ?_, mirrorsNext, fun other member => ?_, fun known before => keptNext known (kept known before)⟩
    · rw [mountAll, List.forM, bind_eq, bind_eq, ran]
      exact others
    · rcases List.mem_cons.mp member with rfl | later
      · rw [tagged.segments]
        exact keptNext names here
      · exact there other later

/-- After any run of operations, each of which may succeed or fail, figures and rules of files are those of an
atlas that is made from the final rules and in which the mounted snapshots are built anew, in whatever order. -/
theorem run_eq_rebuilt (ops : List Op) (allowed : ∀ op ∈ ops, op.Allowed) (naming : Naming) : ∃ start fresh,
    ofRules .empty = .ok start ∧ ofRules (start.afterRun ops).rules = .ok fresh ∧
    ∀ order : List Overlay, order.Perm (start.afterRun ops).sites.overlays → ∀ source, ∃ rebuilt,
      mountAll source order fresh = .ok () rebuilt ∧
      (∀ path, (start.afterRun ops).summary naming path = rebuilt.summary naming path) ∧
      ∀ path, (start.afterRun ops).ruleFor path = rebuilt.ruleFor path := by
  obtain ⟨start, begun, soundStart, _, _⟩ := ofRules_spec RuleSet.regular_empty
  have sound := soundStart.afterRun allowed
  obtain ⟨fresh, made, soundFresh, rules, empty⟩ := ofRules_spec sound.regular
  refine ⟨start, fresh, begun, made, fun order perm source => ?_⟩
  generalize start.afterRun ops = last at sound made rules perm ⊢
  have mirrors : last.Mirrors fresh := by
    refine ⟨rules, rules ▸ soundFresh.answers, soundFresh.neat, fun names mirror found => ?_⟩
    rw [empty, Sites.at?_nil] at found
    exact absurd found (by simp)
  obtain ⟨rebuilt, ran, mirrored, everyOne, _⟩ := mirrors.mountAll_spec sound (fun overlay => perm.mem_iff.mp) source
  have alike : Sites.Alike (Overlay.Twin last.rules.rulesAt.ruleOf) [] last.sites rebuilt.sites := by
    refine sound.neat.alike mirrored.neat fun names => ?_
    cases found : rebuilt.sites.at? names with
    | some mirror =>
      obtain ⟨overlay, _, _, _, here, tagged, also, top⟩ := mirrored.mirrored names mirror found
      exact Or.inr ⟨overlay, mirror, here, found, tagged.twin also top⟩
    | none =>
      cases here : last.sites.at? names with
      | none => exact Or.inl ⟨here, found⟩
      | some overlay =>
        obtain ⟨_, _, _, tagged⟩ := sound.tagged names overlay here
        have listed := perm.mem_iff.mpr ((Sites.mem_overlays sound.neat).mpr ⟨names, here⟩)
        have there := everyOne overlay listed
        rw [tagged.segments, found] at there
        exact absurd there (by simp)
  refine ⟨rebuilt, ran, fun path => summary_alike alike mirrored.rules.symm naming path, fun path => ?_⟩
  exact sound.answers.unique mirrored.answers path.toList

/-- Rules are added and taken away after a snapshot has been mounted, and one call fails. -/
theorem run_eq_rebuilt_rules_after_mount : ∃ (census : Census) (disk : Disk),
    census.files = [("/a/b/c", { size := 3 })] ∧ Disk.Call.readFile "tree" disk = .ok census.toBytes disk ∧
    ∃ ops : List Op, ops = [.addTreeFile disk "tree", .claim { path := "/a/" },
      .addRule "/a/" { id := 1, pattern := "*" }, .addRules [("/a/", { id := 2, pattern := "c" })],
      .removeRule "/a/" "d", .updateRule "/a/" { id := 1, pattern := "c*" }] ∧
    (∀ op ∈ ops, op.Allowed) ∧ ∀ naming, ∃ start fresh rebuilt,
      ofRules .empty = .ok start ∧ ofRules (start.afterRun ops).rules = .ok fresh ∧
      mountAll (fun _ => "tree") (start.afterRun ops).sites.overlays fresh = .ok () rebuilt ∧
      (∀ path, (start.afterRun ops).summary naming path = rebuilt.summary naming path) ∧
      ∀ path, (start.afterRun ops).ruleFor path = rebuilt.ruleFor path := by
  obtain ⟨census, recorded, fits, root, files⟩ := Census.exists_single
  let disk : Disk := { entries := [(["tree"], .file 0)], contents := [census.toBytes] }
  have read : Disk.Call.readFile "tree" disk = .ok census.toBytes disk := rfl
  have plainRoot : '*' ∉ census.root.toList := by
    rw [root]
    decide +kernel
  generalize opsEq : [Op.addTreeFile disk "tree", .claim { path := "/a/" }, .addRule "/a/" { id := 1, pattern := "*" },
    .addRules [("/a/", { id := 2, pattern := "c" })], .removeRule "/a/" "d",
    .updateRule "/a/" { id := 1, pattern := "c*" }] = ops
  have allowed : ∀ op ∈ ops, op.Allowed := by
    rw [← opsEq]
    simp only [List.forall_mem_cons]
    have plain : '*' ∉ "/a/".toList := by decide +kernel
    have small : 1 < 2 ^ 64 := by decide
    refine ⟨fun bytes rest same => ?_, plain, small, ?_, trivial, small, fun op member =>
      absurd member List.not_mem_nil⟩
    · obtain ⟨rfl, _⟩ := EStateM.Result.ok.inj (same.symm.trans read)
      exact ⟨census, recorded, fits, plainRoot, rfl⟩
    · simp [Op.Allowed]
  refine ⟨census, disk, files, read, ops, opsEq.symm, allowed, fun naming => ?_⟩
  obtain ⟨start, fresh, begun, made, mounts⟩ := run_eq_rebuilt ops allowed naming
  obtain ⟨rebuilt, ran, summaries, rules⟩ := mounts _ (.refl _) fun _ => "tree"
  exact ⟨start, fresh, rebuilt, begun, made, ran, summaries, rules⟩

end Atlas
end BackupAtlas
