import BackupAtlas.Proofs.Commits
import BackupAtlas.Proofs.Contents

namespace BackupAtlas

open TreePath

namespace Overlay

variable {map : RuleMap} {names : List String} {uid gid uid' gid' : Nat} {inventory inventory' : Inventory}
variable {overlay other : Overlay}

/-- Tagged trees of one snapshot for the same rules cannot be told apart, whatever is known of its contents. -/
theorem Tagged.twin_of_bare (tagged : overlay.Tagged map names uid gid inventory)
    (also : other.Tagged map names uid' gid' inventory') (same : overlay.bare = other.bare) :
    overlay.Twin map.ruleOf names other := by
  have top : overlay.top = other.top := (congrArg Overlay.top same :)
  obtain ⟨rfl, rfl, rfl⟩ := tagged.isTop.unique (top ▸ also.isTop) tagged.mountable.proper also.mountable.proper
  exact tagged.twin also top

/-- A snapshot of a single file has another tagged tree where the file has another rule. -/
theorem Tagged.upper_ne {old new : RuleSet} {file : Inventory.File} {rule rule' : Nat} (regular : old.Regular)
    (regularNew : new.Regular) (tagged : overlay.Tagged old.rulesAt names uid gid inventory)
    (also : other.Tagged new.rulesAt names uid' gid' inventory') (same : overlay.bare = other.bare)
    (alone : inventory.files = [file])
    (before : Dispatch.searchedRule? old (names ++ file.dirs) file.name.toList = some rule)
    (after : Dispatch.searchedRule? new (names ++ file.dirs) file.name.toList = some rule')
    (differs : rule ≠ rule') : overlay.upper ≠ other.upper := by
  intro equal
  obtain rfl : overlay = other := by
    obtain ⟨root, lower, top, upper⟩ := overlay
    obtain ⟨root', lower', top', upper'⟩ := other
    obtain ⟨rfl, rfl, rfl, _⟩ := Overlay.mk.inj same
    obtain rfl : upper = upper' := equal
    rfl
  obtain ⟨rfl, rfl, rfl⟩ := tagged.isTop.unique also.isTop tagged.mountable.proper also.mountable.proper
  obtain ⟨deeper, plain, _⟩ := tagged.mountable.proper.file file (alone ▸ List.mem_singleton_self _)
  have areSteps := tagged.steps.append deeper
  -- the figures that the one tagged tree shows charge the file to both rules
  have digests := Except.ok.inj (tagged.shows.digest.symm.trans also.shows.digest)
  have shares : Share.tabulate (inventory.charges old.rulesAt.ruleOf names) =
      Share.tabulate (inventory.charges new.rulesAt.ruleOf names) := congrArg Digest.shares digests
  rw [Inventory.charges, Inventory.charges, alone, List.map_singleton, List.map_singleton,
    Dispatch.ruleOf_of_search regular.sound regular.starless areSteps plain before,
    Dispatch.ruleOf_of_search regularNew.sound regularNew.starless areSteps plain after] at shares
  exact differs (Share.mk.inj (List.cons.inj shares).1).1

end Overlay

namespace Atlas

variable {atlas other : Atlas} {dir : String} {rule : Rule} {batch : List (String × Rule)} {rules : RuleSet}

theorem Sound.seated (sound : atlas.Sound) : atlas.Seated where
  neat := sound.neat
  each names overlay found := by
    obtain ⟨_, _, _, tagged⟩ := sound.tagged names overlay found
    exact ⟨tagged.steps, tagged.root⟩

/-- Where the rules and the mounted snapshots are the same, figures and rules of files are the same. -/
theorem Sound.answersSame (sound : atlas.Sound) (soundOther : other.Sound) (sameRules : atlas.rules = other.rules)
    (same : atlas.SameSnapshots other) (naming : Naming) (path : String) :
    atlas.summary naming path = other.summary naming path ∧ atlas.ruleFor path = other.ruleFor path := by
  have alike : Sites.Alike (Overlay.Twin atlas.rules.rulesAt.ruleOf) [] atlas.sites other.sites := by
    refine same.alike sound.neat soundOther.neat fun names overlay mirror found foundOther bare => ?_
    obtain ⟨_, _, _, tagged⟩ := sound.tagged names overlay found
    obtain ⟨_, _, _, also⟩ := soundOther.tagged names mirror foundOther
    exact tagged.twin_of_bare (sameRules ▸ also) bare.symm
  exact ⟨summary_alike alike sameRules naming path, sound.answers.unique (sameRules ▸ soundOther.answers) path.toList⟩

/-- A rule that the rule set takes is added. -/
theorem Sound.addRule_ok (sound : atlas.Sound) (word : rule.id < 2 ^ 64)
    (admitted : RuleSet.addRule dir rule atlas.rules = .ok () rules) : ∃ builds next,
      addRule dir rule atlas = .ok builds next ∧ next.Sound ∧ next.rules = rules := by
  obtain ⟨regular, same, proper⟩ := (RuleSet.Edit.addRule dir rule).spec sound.regular word admitted
  obtain ⟨builds, next, committed, soundNext, sameRules⟩ := sound.commit_spec regular same proper
  exact ⟨builds, next, by rw [addRule, bind_eq, proposed, admitted]; exact committed, soundNext, sameRules⟩

/-- A rule that the set refuses changes nothing. -/
theorem addRule_refused {e : Error} {left : RuleSet} (refused : RuleSet.addRule dir rule atlas.rules = .error e left) :
    addRule dir rule atlas = .error e atlas := by
  rw [addRule, bind_eq, proposed, refused]

/-- A batch that the rule set takes is added. -/
theorem Sound.addRules_ok (sound : atlas.Sound) (words : ∀ entry ∈ batch, entry.2.id < 2 ^ 64)
    (admitted : batch.forM (fun entry => RuleSet.addRule entry.1 entry.2) atlas.rules = .ok () rules) :
    ∃ builds next, addRules batch atlas = .ok builds next ∧ next.Sound ∧ next.rules = rules := by
  obtain ⟨regular, same, proper⟩ := RuleSet.forM_addRule sound.regular words admitted
  cases batch with
  | nil =>
    obtain ⟨_, rfl⟩ := EStateM.Result.ok.inj admitted
    exact ⟨[], atlas, rfl, sound, rfl⟩
  | cons entry batch =>
    obtain ⟨builds, next, committed, soundNext, sameRules⟩ := sound.commit_spec regular
      (same.mono fun dir => mem_directories.mpr) fun dir member => proper dir (mem_directories.mp member)
    refine ⟨builds, next, ?_, soundNext, sameRules⟩
    change (proposed ((entry :: batch).forM fun entry => RuleSet.addRule entry.1 entry.2) >>= fun answer =>
      commit answer.2 (directories (entry :: batch))) atlas = _
    rw [bind_eq, proposed, admitted]
    exact committed

theorem addRules_refused {e : Error} {left : RuleSet}
    (refused : batch.forM (fun entry => RuleSet.addRule entry.1 entry.2) atlas.rules = .error e left) :
    addRules batch atlas = .error e atlas := by
  cases batch with
  | nil => exact absurd refused (by simp [List.forM, pure_eq])
  | cons entry batch =>
    change (proposed ((entry :: batch).forM fun entry => RuleSet.addRule entry.1 entry.2) >>= fun answer =>
      commit answer.2 (directories (entry :: batch))) atlas = _
    rw [bind_eq, proposed, refused]

/-- Adds the rules of a batch one at a time, until one fails. -/
def addOneByOne (batch : List (String × Rule)) : Change Unit :=
  batch.forM fun entry => discard (addRule entry.1 entry.2)

/-- Rules that the rule set takes one after another are added one by one. -/
theorem Sound.addOneByOne_ok (sound : atlas.Sound) (words : ∀ entry ∈ batch, entry.2.id < 2 ^ 64)
    (admitted : batch.forM (fun entry => RuleSet.addRule entry.1 entry.2) atlas.rules = .ok () rules) :
    ∃ last, addOneByOne batch atlas = .ok () last ∧ last.Sound ∧ last.rules = rules ∧ atlas.SameSnapshots last := by
  induction batch generalizing atlas with
  | nil =>
    obtain ⟨_, rfl⟩ := EStateM.Result.ok.inj admitted
    exact ⟨atlas, rfl, sound, rfl, .refl atlas⟩
  | cons entry batch ih =>
    rw [List.forM, bind_eq] at admitted
    split at admitted
    · rename_i middle first
      obtain ⟨builds, next, added, soundNext, rfl⟩ := sound.addRule_ok (words entry List.mem_cons_self) first
      obtain ⟨last, ran, soundLast, sameRules, same⟩ :=
        ih soundNext (fun other member => words other (List.mem_cons_of_mem _ member)) admitted
      refine ⟨last, ?_, soundLast, sameRules, (sound.seated.addRule_rebuilt added).same.trans same⟩
      rw [addOneByOne, List.forM, bind_eq, discard_eq, added]
      exact ran
    · exact absurd admitted (by simp)

/-- If the set refuses a batch, its rules cannot be added one by one either. -/
theorem Sound.addOneByOne_refused (sound : atlas.Sound) (words : ∀ entry ∈ batch, entry.2.id < 2 ^ 64) {e : Error}
    {left : RuleSet}
    (refused : batch.forM (fun entry => RuleSet.addRule entry.1 entry.2) atlas.rules = .error e left) :
    ∃ last, addOneByOne batch atlas = .error e last := by
  induction batch generalizing atlas with
  | nil => exact absurd refused (by simp [List.forM, pure_eq])
  | cons entry batch ih =>
    rw [List.forM, bind_eq] at refused
    split at refused
    · rename_i middle first
      obtain ⟨builds, next, added, soundNext, rfl⟩ := sound.addRule_ok (words entry List.mem_cons_self) first
      obtain ⟨last, ran⟩ := ih soundNext (fun other member => words other (List.mem_cons_of_mem _ member)) refused
      refine ⟨last, ?_⟩
      rw [addOneByOne, List.forM, bind_eq, discard_eq, added]
      exact ran
    · rename_i reason middle first
      obtain ⟨rfl, _⟩ := EStateM.Result.error.inj refused
      refine ⟨atlas, ?_⟩
      rw [addOneByOne, List.forM, bind_eq, discard_eq, addRule_refused first]

/-- A batch goes through exactly if its rules do one at a time, and then rules, figures and rules of files are the same
either way. A batch that fails changes nothing, and one that goes through builds each snapshot above or below one of its
directories once. -/
theorem addRules_as_one_by_one {rules : RuleSet} (reached : rules.Reached) (starless : rules.Starless)
    (idsFit : rules.IdsFit) {start : Atlas} (loaded : ofRules rules = .ok start) {ops : List Op}
    (allowed : ∀ op ∈ ops, op.Allowed) {batch : List (String × Rule)} (words : ∀ entry ∈ batch, entry.2.id < 2 ^ 64)
    (naming : Naming) :
    ((∃ builds next, addRules batch (start.afterRun ops) = .ok builds next) ↔
      ∃ last, addOneByOne batch (start.afterRun ops) = .ok () last) ∧
    (∀ builds next last, addRules batch (start.afterRun ops) = .ok builds next →
      addOneByOne batch (start.afterRun ops) = .ok () last → next.rules = last.rules ∧
        ∀ path, next.summary naming path = last.summary naming path ∧ next.ruleFor path = last.ruleFor path) ∧
    (∀ e next, addRules batch (start.afterRun ops) = .error e next → next = start.afterRun ops) ∧
    (∀ dir, dir ∈ directories batch ↔ dir ∈ batch.map (·.1)) ∧
    ∀ builds next, addRules batch (start.afterRun ops) = .ok builds next →
      Rebuilt (directories batch) builds (start.afterRun ops) next := by
  obtain ⟨begun, also, soundStart, _, _⟩ := ofRules_spec ⟨reached.sound, starless, idsFit⟩
  obtain rfl := Except.ok.inj (also.symm.trans loaded)
  have sound := soundStart.afterRun allowed
  generalize begun.afterRun ops = atlas at sound
  have rebuilt : ∀ builds next, addRules batch atlas = .ok builds next →
      Rebuilt (directories batch) builds atlas next := fun _ _ => sound.seated.addRules_rebuilt
  have unchanged : ∀ e next, addRules batch atlas = .error e next → next = atlas := by
    intro e next failed
    have ends : Ends _ _ (addRules batch atlas) := addRules_ends batch
    rw [failed] at ends
    exact ends
  -- the rule set alone decides which way both go
  cases decided : batch.forM (fun entry => RuleSet.addRule entry.1 entry.2) atlas.rules with
  | ok _ rules =>
    obtain ⟨builds, next, ran, soundNext, sameRules⟩ := sound.addRules_ok words decided
    obtain ⟨last, ranLast, soundLast, sameLast, same⟩ := sound.addOneByOne_ok words decided
    refine ⟨⟨fun _ => ⟨last, ranLast⟩, fun _ => ⟨builds, next, ran⟩⟩, fun builds' next' last' done doneLast => ?_,
      unchanged, fun _ => mem_directories, rebuilt⟩
    obtain ⟨rfl, rfl⟩ := EStateM.Result.ok.inj (ran.symm.trans done)
    obtain ⟨_, rfl⟩ := EStateM.Result.ok.inj (ranLast.symm.trans doneLast)
    have rules := sameRules.trans sameLast.symm
    have snapshots : next.SameSnapshots last := fun names => (same names).trans ((rebuilt _ _ ran).same names).symm
    exact ⟨rules, soundNext.answersSame soundLast rules snapshots naming⟩
  | error e left =>
    have failed : addRules batch atlas = .error e atlas := addRules_refused decided
    obtain ⟨last, failedLast⟩ := sound.addOneByOne_refused words decided
    refine ⟨⟨fun ⟨_, _, ran⟩ => ?_, fun ⟨_, ran⟩ => ?_⟩, fun _ _ _ ran => ?_, unchanged, fun _ => mem_directories,
      rebuilt⟩
    · exact absurd (failed.symm.trans ran) (by simp)
    · exact absurd (failedLast.symm.trans ran) (by simp)
    · exact absurd (failed.symm.trans ran) (by simp)

theorem afterRun_addTreeFile {disk rest : Disk} {path : String} {bytes : Bytes} {lower : StoredTree}
    (read : Disk.Call.readFile path disk = .ok bytes rest) (opened : StoredTree.ofBytes bytes = .ok lower) :
    atlas.afterRun [.addTreeFile disk path] = atlas.afterCalls [.addTree lower path] := by
  have ran : addTreeFile disk path atlas = addTree lower path atlas := addTreeFile_eq read opened
  rw [afterRun, afterCalls, List.foldl_cons, List.foldl_cons, List.foldl_nil, List.foldl_nil, Op.leaves, Call.run,
    after, after, discard_eq, ran]
  cases addTree lower path atlas <;> rfl

/-- A snapshot of a single file gets another tagged tree when it is built again for another rule of the file. -/
theorem Rebuilt.upper_ne {next : Atlas} {changed : List String} {builds : List MountBuild} {names : List String}
    {uid gid : Nat} {inventory : Inventory} {overlay : Overlay} {file : Inventory.File} {one other : Nat}
    (rebuilt : Rebuilt changed builds atlas next) (sound : atlas.Sound) (soundNext : next.Sound)
    (leads : atlas.sites.at? names = some overlay) (listed : overlay.root ∈ builds.map (·.root))
    (tagged : overlay.Tagged atlas.rules.rulesAt names uid gid inventory) (alone : inventory.files = [file])
    (before : Dispatch.searchedRule? atlas.rules (names ++ file.dirs) file.name.toList = some one)
    (after : Dispatch.searchedRule? next.rules (names ++ file.dirs) file.name.toList = some other)
    (differs : one ≠ other) : ∃ upper dispatch report,
      Dispatch.ofPlan (Plan.compile next.rules overlay.root (overlay.upper.map fun _ => changed)) = .ok dispatch ∧
      build overlay.top overlay.root dispatch overlay.upper = .ok (upper, report) ∧
      next.sites.at? names = some { overlay with upper := some upper } ∧ overlay.upper ≠ some upper := by
  obtain ⟨dispatch, upper, report, planned, built, _, placed⟩ := rebuilt.built names overlay leads listed
  obtain ⟨_, _, _, also⟩ := soundNext.tagged _ _ placed
  exact ⟨upper, dispatch, report, planned, built, placed,
    tagged.upper_ne sound.regular soundNext.regular also rfl alone before after differs⟩

/-- Two directories of a batch, one below the other, have to do with the same snapshot, which is built once, and its
tagged tree is another then. -/
theorem addRules_as_one_by_one_nested :
    let batch : List (String × Rule) := [("/a/", { id := 1, pattern := "*" }), ("/a/b/", { id := 2, pattern := "c" })]
    ∃ (rules : RuleSet) (start : Atlas) (disk : Disk),
      RuleSet.ofRecords [{ id := 1, path := "/a/" }, { id := 2, path := "/a/b/" }] [] = .ok rules ∧
      rules.Reached ∧ rules.Starless ∧ rules.IdsFit ∧ ofRules rules = .ok start ∧
      (∀ op ∈ [Op.addTreeFile disk "tree"], op.Allowed) ∧ (∀ entry ∈ batch, entry.2.id < 2 ^ 64) ∧
      (start.afterRun [.addTreeFile disk "tree"]).mounts = ["/a/"] ∧
      ∃ builds next last, addRules batch (start.afterRun [.addTreeFile disk "tree"]) = .ok builds next ∧
        builds.map (·.root) = ["/a/"] ∧
        (∃ overlay upper dispatch report,
          (start.afterRun [.addTreeFile disk "tree"]).sites.at? ["a/"] = some overlay ∧
          Dispatch.ofPlan (Plan.compile next.rules overlay.root (overlay.upper.map fun _ => directories batch)) =
            .ok dispatch ∧
          build overlay.top overlay.root dispatch overlay.upper = .ok (upper, report) ∧
          next.sites.at? ["a/"] = some { overlay with upper := some upper } ∧ overlay.upper ≠ some upper) ∧
        addOneByOne batch (start.afterRun [.addTreeFile disk "tree"]) = .ok () last ∧ next.rules = last.rules ∧
        ∀ path, next.summary ({} : NameTable).name path = last.summary ({} : NameTable).name path ∧
          next.ruleFor path = last.ruleFor path := by
  intro batch
  have known : (RuleSet.ofRecords [{ id := 1, path := "/a/" }, { id := 2, path := "/a/b/" }] []).toOption.map
      (fun rules => (rules.claims.names, rules.allIdsFit, Dispatch.searchedRule? rules ["a/", "b/"] "c".toList,
        (batch.forM (fun entry => RuleSet.addRule entry.1 entry.2) >>= fun _ => get >>= fun rules =>
          pure (Dispatch.searchedRule? rules ["a/", "b/"] "c".toList)).run' rules)) =
      some (["/a/", "/a/b/"], true, some 0, some (some 2)) := by decide +kernel
  obtain ⟨rules, loaded, reached, starless, idsFit, ruled⟩ :=
    RuleSet.exists_ofRecords_idsFit known (by decide +kernel)
  obtain ⟨unruled, succeeds⟩ := Prod.mk.inj ruled
  obtain ⟨after, decided, ruled⟩ := exists_ok_of_view succeeds
  obtain ⟨census, start, lower, overlay, ⟨recorded, fits, root, _⟩, begun, opened, left, tagged⟩ :=
    exists_mounted ⟨reached.sound, starless, idsFit⟩
  let disk : Disk := { entries := [(["tree"], .file 0)], contents := [census.toBytes] }
  have read : Disk.Call.readFile "tree" disk = .ok census.toBytes disk := rfl
  rw [← afterRun_addTreeFile read opened] at left
  obtain ⟨sound, sameRules, mounted, found⟩ := left
  have allowed : ∀ op ∈ [Op.addTreeFile disk "tree"], op.Allowed := by
    intro op member
    obtain rfl := List.mem_singleton.mp member
    intro bytes rest same
    obtain ⟨rfl, _⟩ := EStateM.Result.ok.inj (same.symm.trans read)
    refine ⟨census, recorded, fits, ?_, rfl⟩
    rw [root]
    decide +kernel
  have words : ∀ entry ∈ batch, entry.2.id < 2 ^ 64 := by decide
  obtain ⟨bothOrNeither, same, _, listed, rebuilt⟩ :=
    addRules_as_one_by_one reached starless idsFit begun allowed words ({} : NameTable).name
  obtain ⟨builds, next, ran, soundNext, rfl⟩ := sound.addRules_ok words (sameRules ▸ decided)
  obtain ⟨last, ranLast⟩ := bothOrNeither.mp ⟨builds, next, ran⟩
  have roots : builds.map (·.root) = ["/a/"] :=
    (rebuilt builds next ran).alone mounted ((listed "/a/").mpr (by decide)) (Or.inl (List.prefix_refl _))
  have rootEq : overlay.root = "/a/" := tagged.root.trans (by decide +kernel)
  have alone : (Inventory.dir "b/" 1 2 (.file "c" { size := 3 } .done) .done).files =
    [⟨["b/"], "c", { size := 3 }⟩] := rfl
  obtain ⟨upper, dispatch, report, another⟩ := (rebuilt builds next ran).upper_ne sound soundNext found
    (by rw [roots, rootEq]; exact List.mem_singleton_self _) (sameRules.symm ▸ tagged) alone (sameRules.symm ▸ unruled)
    ruled (by decide)
  obtain ⟨rulesSame, answersSame⟩ := same builds next last ran ranLast
  exact ⟨rules, start, disk, loaded, reached, starless, idsFit, begun, allowed, words, mounted, builds, next, last, ran,
    roots, ⟨overlay, upper, dispatch, report, found, another⟩, ranLast, rulesSame, answersSame⟩

end Atlas
end BackupAtlas
