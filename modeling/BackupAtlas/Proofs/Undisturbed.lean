import BackupAtlas.Proofs.Batches
import BackupAtlas.Proofs.Globs

namespace BackupAtlas

open TreePath

/-- One snapshot with two tagged trees, both of which can be read. -/
structure Overlay.Paired (names : List String) (overlay other : Overlay) : Prop where
  bare : other.bare = overlay.bare
  served : overlay.Served names
  also : other.Served names

theorem Overlay.Contains.congr {overlay other : Overlay} {names : List String} (held : overlay.Contains names)
    (bare : other.bare = overlay.bare) : other.Contains names := by
  have top : other.top = overlay.top := (congrArg Overlay.top bare :)
  rw [Contains, top]
  exact held

namespace Atlas

/-- A directory above the snapshots, the same file, directories of one owner, or nothing. -/
inductive Target.SameKind : Target → Target → Prop
  | above {below below' : Sites} : SameKind (.above below) (.above below')
  | absent : SameKind .absent .absent
  | file (stat : FileStat) : SameKind (.item (.file stat)) (.item (.file stat))
  | dir {view view' : View} (same : view'.owner = view.owner) : SameKind (.item (.dir view)) (.item (.dir view'))

/-- Owners, kinds and what globs find stay the same. -/
structure Unmoved (atlas next : Atlas) : Prop where
  owner : ∀ path, next.owner path = atlas.owner path
  isDirectory : ∀ path, next.isDirectory path = atlas.isDirectory path
  globPaths : ∀ (dialect : Glob.Dialect) patterns, next.globPaths patterns dialect = atlas.globPaths patterns dialect

variable {atlas next : Atlas}

theorem Readable.paired (readable : atlas.Readable) (readableNext : next.Readable) (same : atlas.SameSnapshots next) :
    Sites.Alike Overlay.Paired [] atlas.sites next.sites :=
  same.alike readable.served.neat readableNext.served.neat fun names overlay other found also bare =>
    ⟨bare, readable.served.each names overlay found, readableNext.served.each names other also⟩

/-- The same paths lead somewhere. -/
theorem Readable.present (readable : atlas.Readable) (readableNext : next.Readable) (same : atlas.SameSnapshots next)
    {names : List String} (present : atlas.sites.Present names) : next.sites.Present names := by
  cases present with
  | above leads =>
    rcases (readable.paired readableNext same).locate names with ⟨first, _⟩ | ⟨_, below', _, _, second, _⟩ |
      ⟨_, _, _, first, _⟩
    · exact absurd (leads.symm.trans first) (by simp)
    · exact .above second
    · exact absurd (leads.symm.trans first) (by simp)
  | @inside front rest overlay mounted held =>
    obtain ⟨other, also, bare⟩ := same.at? mounted
    exact .inside also (held.congr bare)

/-- What is found in a snapshot does not depend on its tagged tree. -/
theorem lookup_paired {names : List String} {overlay other : Overlay} (paired : overlay.Paired names other)
    (relative : String) : ∃ found found', overlay.lookup relative = .ok found ∧ other.lookup relative = .ok found' ∧
      Target.SameKind (found.elim .absent .item) (found'.elim .absent .item) := by
  obtain ⟨_, uid, gid, inventory, shows', _⟩ := paired.served.shows
  obtain ⟨_, uid', gid', inventory', also, _⟩ := paired.also.shows
  have top : other.view.lower = overlay.view.lower := (congrArg Overlay.top paired.bare :)
  obtain ⟨rfl, rfl, rfl⟩ := shows'.lower.unique (top ▸ also.lower) shows'.proper also.proper
  obtain ⟨found, led, shown⟩ := Overlay.find?_shown shows' (segments relative)
  obtain ⟨found', led', shown'⟩ := Overlay.find?_shown also (segments relative)
  refine ⟨found, found', led, led', ?_⟩
  generalize Inventory.Content.find? (segments relative) (.dir uid gid inventory) = content at shown shown'
  cases shown with
  | none =>
    cases shown'
    exact .absent
  | some here =>
    cases shown' with
    | some there =>
      cases here with
      | file stat =>
        cases there
        exact .file stat
      | dir below =>
        cases there with
        | dir below' => exact .dir (below'.owner.trans below.owner.symm)

/-- A path leads to the same kind of thing, or fails in the same way. -/
theorem Readable.target_paired (readable : atlas.Readable) (readableNext : next.Readable)
    (same : atlas.SameSnapshots next) (path : String) :
    next.target path = atlas.target path ∨
      ∃ first second, atlas.target path = .ok first ∧ next.target path = .ok second ∧ first.SameKind second := by
  rw [target, target]
  rcases (readable.paired readableNext same).locate (segments path) with ⟨first, second⟩ |
    ⟨below, below', _, first, second, _⟩ | ⟨overlay, other, names, first, second, paired⟩
  · rw [first, second]
    exact Or.inl rfl
  · rw [first, second]
    exact Or.inr ⟨_, _, rfl, rfl, .above⟩
  · rw [first, second]
    have root : other.root = overlay.root := (congrArg Overlay.root paired.bare :)
    simp only [root]
    cases behindBytes overlay.root.utf8ByteSize path.toList with
    | none => exact Or.inl rfl
    | some relative =>
      obtain ⟨found, found', led, led', kind⟩ := lookup_paired paired (String.ofList relative)
      refine Or.inr ⟨_, _, ?_, ?_, kind⟩
      · simp only [led, liftM, monadLift, MonadLift.monadLift, bind, Except.bind]
        cases found <;> rfl
      · simp only [led', liftM, monadLift, MonadLift.monadLift, bind, Except.bind]
        cases found' <;> rfl

/-- With the same snapshots mounted in the same places nothing has moved. -/
theorem Readable.unmoved (readable : atlas.Readable) (readableNext : next.Readable) (same : atlas.SameSnapshots next) :
    atlas.Unmoved next where
  owner path := by
    rw [Atlas.owner, Atlas.owner]
    rcases readable.target_paired readableNext same path with equal | ⟨first, second, led, led', kind⟩
    · rw [equal]
    · rw [led, led']
      cases kind with
      | above | absent | file => rfl
      | dir owners => simp only [bind, Except.bind, owners]
  isDirectory path := by
    rw [Atlas.isDirectory, Atlas.isDirectory]
    rcases readable.target_paired readableNext same path with equal | ⟨first, second, led, led', kind⟩
    · rw [equal]
    · rw [led, led']
      cases kind <;> rfl
  globPaths dialect patterns := by
    cases parsed : patterns.mapM (PathGlob.parse : String → Except Error (PathGlob dialect)) with
    | error e => simp only [Atlas.globPaths, parsed, bind, Except.bind]
    | ok globs =>
      obtain ⟨found, ran, ascending, exact⟩ := readable.globPaths_spec parsed
      obtain ⟨found', ran', ascending', exact'⟩ := readableNext.globPaths_spec parsed
      have has : ∀ path, next.Has path ↔ atlas.Has path := by
        intro path
        constructor
        · rintro ⟨names, there, spelt⟩
          exact ⟨names, readableNext.present readable same.symm there, spelt⟩
        · rintro ⟨names, there, spelt⟩
          exact ⟨names, readable.present readableNext same there, spelt⟩
      have equal : found' = found := eq_of_ascending String.lt_asymm ascending ascending' fun path => by
        rw [exact, exact', has]
      rw [ran, ran', equal]

/-- A call about rules and claims moves nothing, whether it succeeds or fails. -/
theorem Readable.unmoved_after (readable : atlas.Readable) {call : Call} (plain : call.Plain)
    (rulesOnly : ∀ lower source, call ≠ .addTree lower source) : atlas.Unmoved (after call.run atlas) := by
  have seated : atlas.Seated := ⟨readable.served.neat, fun _ _ found => (readable.served.each _ _ found).toSeat⟩
  refine readable.unmoved (readable.after_call plain) ?_
  rw [after]
  cases ran : call.run atlas with
  | error e next =>
    obtain rfl := Call.unchanged ran
    exact .refl _
  | ok _ next => exact seated.sameSnapshots rulesOnly ran

/-- What a change of rules that succeeds builds, for each kind of change. -/
structure RebuildsAffected (atlas : Atlas) : Prop where
  addRule : ∀ dir rule builds next, addRule dir rule atlas = .ok builds next → Rebuilt [dir] builds atlas next
  addRules : ∀ batch builds next, addRules batch atlas = .ok builds next →
    Rebuilt (directories batch) builds atlas next ∧ ∀ dir, dir ∈ directories batch ↔ dir ∈ batch.map (·.1)
  removeRule : ∀ dir pattern gone builds next, removeRule dir pattern atlas = .ok (gone, builds) next →
    Rebuilt [dir] builds atlas next
  updateRule : ∀ dir rule builds next, updateRule dir rule atlas = .ok builds next →
    ∃ previous, RuleSet.updateRule dir rule atlas.rules = .ok previous next.rules ∧
      (previous.pattern = rule.pattern → builds = [] ∧ next.sites = atlas.sites) ∧
      (previous.pattern ≠ rule.pattern → Rebuilt [dir] builds atlas next)

/-- An atlas whose snapshots are seated rebuilds what a change of rules affects. -/
theorem Seated.rebuildsAffected (seated : atlas.Seated) : atlas.RebuildsAffected where
  addRule _ _ _ _ := seated.addRule_rebuilt
  addRules _ _ _ ran := ⟨seated.addRules_rebuilt ran, fun _ => mem_directories⟩
  removeRule _ _ _ _ _ := seated.removeRule_rebuilt
  updateRule _ _ _ _ := seated.updateRule_rebuilt

/-- Whatever has been done to an atlas, a change of rules builds exactly the snapshots above or below a directory it
changes, and neither that nor a change of claims moves anything. -/
theorem rule_changes_rebuild_affected {rules : RuleSet} {start : Atlas} (loaded : ofRules rules = .ok start)
    (calls : List Call) : (start.afterCalls calls).RebuildsAffected ∧
      (rules.IdsFit → (∀ call ∈ calls, call.Plain) → ∀ call : Call, call.Plain →
        (∀ lower source, call ≠ .addTree lower source) →
        (start.afterCalls calls).Unmoved (after call.run (start.afterCalls calls))) := by
  refine ⟨((seated_of_ofRules loaded).afterCalls calls).rebuildsAffected, fun idsFit plain call word rulesOnly => ?_⟩
  exact ((readable_of_ofRules idsFit loaded).afterCalls plain).unmoved_after word rulesOnly

/-- A rule in the directory of a snapshot gives it another tagged tree. -/
theorem rule_changes_rebuild_affected_there : ∃ (rules : RuleSet) (start : Atlas) (lower : StoredTree)
    (builds : List MountBuild) (next : Atlas), RuleSet.ofRecords [{ id := 1, path := "/a/" }] [] = .ok rules ∧
    rules.IdsFit ∧ ofRules rules = .ok start ∧ (Call.addTree lower "tree").Plain ∧
    addRule "/a/" { id := 1, pattern := "*" } (start.afterCalls [.addTree lower "tree"]) = .ok builds next ∧
    builds.map (·.root) = ["/a/"] ∧
    (∃ overlay upper dispatch report, (start.afterCalls [.addTree lower "tree"]).sites.at? ["a/"] = some overlay ∧
      Dispatch.ofPlan (Plan.compile next.rules overlay.root (overlay.upper.map fun _ => ["/a/"])) = .ok dispatch ∧
      build overlay.top overlay.root dispatch overlay.upper = .ok (upper, report) ∧
      next.sites.at? ["a/"] = some { overlay with upper := some upper } ∧ overlay.upper ≠ some upper) ∧
    (start.afterCalls [.addTree lower "tree"]).Unmoved next := by
  have known : (RuleSet.ofRecords [{ id := 1, path := "/a/" }] []).toOption.map
      (fun rules => (rules.claims.names, rules.allIdsFit, Dispatch.searchedRule? rules ["a/", "b/"] "c".toList,
        (RuleSet.addRule "/a/" { id := 1, pattern := "*" } >>= fun _ => get >>= fun rules =>
          pure (Dispatch.searchedRule? rules ["a/", "b/"] "c".toList)).run' rules)) =
      some (["/a/"], true, some 0, some (some 1)) := by decide +kernel
  obtain ⟨rules, taken, reached, starless, idsFit, ruled⟩ := RuleSet.exists_ofRecords_idsFit known (by decide +kernel)
  obtain ⟨unruled, succeeds⟩ := Prod.mk.inj ruled
  obtain ⟨after, decided, ruled⟩ := exists_ok_of_view succeeds
  obtain ⟨census, start, lower, overlay, ⟨recorded, fits, _⟩, begun, opened, left, tagged⟩ :=
    exists_mounted ⟨reached.sound, starless, idsFit⟩
  obtain ⟨sound, sameRules, mounted, found⟩ := left
  have plain : (Call.addTree lower "tree").Plain := ⟨census, recorded, fits, opened⟩
  obtain ⟨builds, next, ran, soundNext, rfl⟩ := sound.addRule_ok (by decide) (sameRules ▸ decided)
  obtain ⟨rebuilds, unmoved⟩ := rule_changes_rebuild_affected begun [.addTree lower "tree"]
  have rebuilt := rebuilds.addRule _ _ _ _ ran
  have roots : builds.map (·.root) = ["/a/"] :=
    rebuilt.alone mounted (List.mem_singleton_self _) (Or.inl (List.prefix_refl _))
  have rootEq : overlay.root = "/a/" := tagged.root.trans (by decide +kernel)
  have alone : (Inventory.dir "b/" 1 2 (.file "c" { size := 3 } .done) .done).files =
    [⟨["b/"], "c", { size := 3 }⟩] := rfl
  obtain ⟨upper, dispatch, report, another⟩ := rebuilt.upper_ne sound soundNext found
    (by rw [roots, rootEq]; exact List.mem_singleton_self _) (sameRules.symm ▸ tagged) alone (sameRules.symm ▸ unruled)
    ruled (by decide)
  have call : (Call.addRule "/a/" { id := 1, pattern := "*" }).run (start.afterCalls [.addTree lower "tree"]) =
      .ok () next := by
    rw [Call.run, discard_eq, ran]
  have word : (Call.addRule "/a/" { id := 1, pattern := "*" }).Plain := by
    rw [Call.Plain]
    decide
  have stays := unmoved idsFit (fun other member => List.mem_singleton.mp member ▸ plain) _ word (by simp)
  rw [Atlas.after, call] at stays
  exact ⟨rules, start, lower, builds, next, taken, idsFit, begun, plain, ran, roots,
    ⟨overlay, upper, dispatch, report, found, another⟩, stays⟩

end Atlas
end BackupAtlas
