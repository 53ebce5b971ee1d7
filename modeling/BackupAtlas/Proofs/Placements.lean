import BackupAtlas.Proofs.FailedBuilds
import BackupAtlas.Proofs.FailedChanges
import BackupAtlas.Proofs.Rebuilds

namespace BackupAtlas

open TreePath

namespace Sites

/-- Every mounted snapshot has a property, which may depend on the segments under which it is mounted. -/
structure Every (holds : List String → Overlay → Prop) (sites : Sites) : Prop where
  neat : sites.Neat
  each : ∀ names overlay, sites.at? names = some overlay → holds names overlay

variable {sites : Sites} {holds : List String → Overlay → Prop} {names : List String} {overlay : Overlay}

theorem Every.nil : Every holds .nil :=
  ⟨trivial, fun names overlay found => absurd ((at?_nil names).symm.trans found) (by simp)⟩

/-- A snapshot that is placed leaves the others in their places. -/
theorem Every.place (every : sites.Every holds) (admitted : sites.admits names) (here : holds names overlay) :
    (sites.place overlay names).Every holds := by
  refine ⟨every.neat.place overlay names, fun others other found => ?_⟩
  rw [at?_place every.neat admitted] at found
  split at found
  · rename_i same
    obtain rfl := Option.some.inj found
    exact same ▸ here
  · exact every.each others other found

end Sites

/-- A snapshot of the directory to which names lead. -/
structure Overlay.Seat (names : List String) (overlay : Overlay) : Prop where
  steps : AreSteps names
  root : overlay.root = String.ofList (dirOf names)

/-- The segments of a root are the names that lead to the snapshot. -/
theorem Overlay.Seat.segments {names : List String} {overlay : Overlay} (seat : overlay.Seat names) :
    segments overlay.root = names := by
  rw [seat.root, segments_dirOf seat.steps]

theorem Overlay.exists_seat {overlay : Overlay} (absolute : isAbsoluteDir overlay.root) :
    ∃ names, overlay.Seat names := by
  obtain ⟨names, areSteps, root⟩ := exists_dirOf_of_isAbsoluteDir absolute
  exact ⟨names, areSteps, root⟩

namespace Atlas

variable {atlas next : Atlas}

/-- What a rebuilt snapshot is. -/
theorem rebuild_ok {rules : RuleSet} {changed : List String} {overlay rebuilt : Overlay} {report : MountBuild}
    (ran : rebuild rules changed overlay = .ok (rebuilt, report)) : ∃ dispatch upper inner,
      Dispatch.ofPlan (Plan.compile rules overlay.root (overlay.upper.map fun _ => changed)) = .ok dispatch ∧
      build overlay.top overlay.root dispatch overlay.upper = .ok (upper, inner) ∧
      rebuilt = { overlay with upper := some upper } ∧ report = ⟨overlay.root, true, inner⟩ := by
  rw [rebuild] at ran
  cases planned : Dispatch.ofPlan (Plan.compile rules overlay.root (overlay.upper.map fun _ => changed)) with
  | error e => simp [planned, bind, Except.bind] at ran
  | ok dispatch =>
    cases built : build overlay.top overlay.root dispatch overlay.upper with
    | error e => simp [planned, built, bind, Except.bind] at ran
    | ok made =>
      simp only [planned, built, bind, Except.bind, pure, Except.pure, Except.ok.injEq, Prod.mk.injEq] at ran
      exact ⟨dispatch, made.1, made.2, rfl, built, ran.1.symm, ran.2.symm⟩

/-- Each of several results comes of one of the items. -/
theorem mem_of_mapM_ok {α β : Type} {step : α → Except Error β} {items : List α} {results : List β} {result : β}
    (ran : items.mapM step = .ok results) (member : result ∈ results) : ∃ item ∈ items, step item = .ok result :=
  (exists_of_forall₂ (forall₂_of_mapM_ok ran)).2 result member

/-- What a commit does that goes through. -/
theorem commit_ok {rules : RuleSet} {changed : List String} {reports : List MountBuild}
    (ran : commit rules changed atlas = .ok reports next) : ∃ dispatch entries,
      Dispatch.all rules = .ok dispatch ∧
      (atlas.sites.overlays.filter fun overlay => changed.any (isAffected overlay.root)).mapM (rebuild rules changed) =
        .ok entries ∧
      reports = entries.map (·.2) ∧
      next = { atlas with
        sites := entries.foldl (fun sites entry => sites.place entry.1 (segments entry.1.root)) atlas.sites,
        rules, dispatch } := by
  simp only [commit, bind_eq, get_eq, settled_eq, set_eq, pure_eq] at ran
  cases ready : Dispatch.all rules with
  | error e => simp [ready] at ran
  | ok dispatch =>
    simp only [ready] at ran
    cases rebuilt : (atlas.sites.overlays.filter fun overlay => changed.any (isAffected overlay.root)).mapM
        (rebuild rules changed) with
    | error e => simp [rebuilt] at ran
    | ok entries =>
      simp only [rebuilt, EStateM.Result.ok.injEq] at ran
      exact ⟨dispatch, entries, rfl, rfl, ran.1.symm, ran.2.symm⟩

/-- Snapshots that are built again stay where they are. What holds of all snapshots and is kept by a build of one of
them holds of all afterwards. -/
theorem commit_every {rules : RuleSet} {changed : List String} {reports : List MountBuild}
    {holds : List String → Overlay → Prop} (every : atlas.sites.Every holds)
    (seated : ∀ names overlay, holds names overlay → overlay.Seat names)
    (again : ∀ names overlay rebuilt report, holds names overlay →
      rebuild rules changed overlay = .ok (rebuilt, report) → holds names rebuilt)
    (ran : commit rules changed atlas = .ok reports next) : next.sites.Every holds := by
  obtain ⟨dispatch, entries, _, rebuilt, _, rfl⟩ := commit_ok ran
  have source : ∀ entry ∈ entries, ∃ names old, atlas.sites.at? names = some old ∧
      holds names entry.1 := by
    intro entry member
    obtain ⟨old, listed, done⟩ := mem_of_mapM_ok rebuilt member
    obtain ⟨names, found⟩ := (Sites.mem_overlays every.neat).mp (List.mem_filter.mp listed).1
    exact ⟨names, old, found, again names old entry.1 entry.2 (every.each _ _ found) done⟩
  obtain ⟨neat, mounts⟩ := Sites.foldl_place every.neat fun entry member => by
    obtain ⟨names, old, found, here⟩ := source entry member
    exact ⟨old, (seated _ _ here).segments ▸ found⟩
  refine ⟨neat, fun names overlay found => ?_⟩
  rcases mounts names overlay found with ⟨entry, member, rfl, leads⟩ | ⟨before, _⟩
  · obtain ⟨others, _, _, here⟩ := source entry member
    exact leads ▸ (seated _ _ here).segments ▸ here
  · exact every.each _ _ before

/-- What becomes of a snapshot that can be mounted somewhere. -/
theorem addTree_eq {lower : StoredTree} {source : String} {overlay : Overlay}
    (mounts : Overlay.ofTree lower source = .ok overlay) (below : overlay.root ≠ "/") : addTree lower source atlas =
    if atlas.sites.admits (segments overlay.root) then
      match Dispatch.ofPlan (Plan.compile atlas.rules overlay.root none) with
      | .error e => .error e atlas
      | .ok dispatch =>
        match build overlay.top overlay.root dispatch none with
        | .error e => .error e atlas
        | .ok (upper, report) =>
          .ok ⟨overlay.root, atlas.sites.holds (segments overlay.root), report⟩ { atlas with
            sites := atlas.sites.place { overlay with upper := some upper } (segments overlay.root) }
    else .error (.nestedMount overlay.root) atlas := by
  simp only [addTree, bind_eq, settled_eq, mounts, if_neg below, get_eq]
  cases atlas.sites.admits (segments overlay.root) with
  | false => rfl
  | true =>
    simp only [if_true, Bool.not_true, Bool.false_eq_true, if_false, bind_eq, settled_eq]
    cases Dispatch.ofPlan (Plan.compile atlas.rules overlay.root none) with
    | error e => rfl
    | ok dispatch =>
      simp only
      cases build overlay.top overlay.root dispatch none <;> rfl

/-- A snapshot that has been mounted was admitted and built. -/
theorem addTree_ok {lower : StoredTree} {source : String} {result : MountBuild}
    (ran : addTree lower source atlas = .ok result next) : ∃ overlay dispatch upper report,
      Overlay.ofTree lower source = .ok overlay ∧ overlay.root ≠ "/" ∧
      atlas.sites.admits (segments overlay.root) ∧
      Dispatch.ofPlan (Plan.compile atlas.rules overlay.root none) = .ok dispatch ∧
      build overlay.top overlay.root dispatch none = .ok (upper, report) ∧
      next = { atlas with
        sites := atlas.sites.place { overlay with upper := some upper } (segments overlay.root) } := by
  cases mounts : Overlay.ofTree lower source with
  | error e => simp [addTree, bind_eq, settled_eq, mounts] at ran
  | ok overlay =>
    by_cases top : overlay.root = "/"
    · rw [addTree_root mounts top] at ran
      exact absurd ran (by simp)
    · rw [addTree_eq mounts top] at ran
      split at ran
      · rename_i admitted
        split at ran
        · exact absurd ran (by simp)
        · rename_i dispatch planned
          split at ran
          · exact absurd ran (by simp)
          · rename_i upper report built
            exact ⟨overlay, dispatch, upper, report, rfl, top, admitted, planned, built,
              (EStateM.Result.ok.inj ran).2.symm⟩
      · exact absurd ran (by simp)

theorem discard_ok {α : Type} {change : Change α} (ran : (discard change : Change Unit) atlas = .ok () next) :
    ∃ a, change atlas = .ok a next := by
  rw [discard_eq] at ran
  cases done : change atlas with
  | ok a last =>
    rw [done] at ran
    exact ⟨a, by rw [(EStateM.Result.ok.inj ran).2]⟩
  | error e last => simp [done] at ran

theorem proposed_ok {α β : Type} {change : RuleSet.Change α} {further : α × RuleSet → Change β} {b : β}
    (ran : (proposed change >>= further) atlas = .ok b next) :
    ∃ a rules, change atlas.rules = .ok a rules ∧ further (a, rules) atlas = .ok b next := by
  rw [bind_eq, proposed] at ran
  cases edited : change atlas.rules with
  | error e rules => simp [edited] at ran
  | ok a rules =>
    rw [edited] at ran
    exact ⟨a, rules, rfl, ran⟩

theorem onRules_sites {α : Type} {change : RuleSet.Change α} {a : α} (ran : onRules change atlas = .ok a next) :
    next.sites = atlas.sites := by
  rw [onRules] at ran
  cases edited : change atlas.rules with
  | error e rules => simp [edited] at ran
  | ok b rules =>
    rw [edited] at ran
    rw [← (EStateM.Result.ok.inj ran).2]

/-- Rules that are applied are the rules from then on. -/
theorem commit_rules {rules : RuleSet} {changed : List String} {reports : List MountBuild}
    (ran : commit rules changed atlas = .ok reports next) : next.rules = rules := by
  have ends : Ends _ _ (commit rules changed atlas) := commit_ends rules changed
  rw [ran] at ends
  exact ends.1

/-- A call that succeeds leaves the snapshots alone, has some of them built again for the new rules, or mounts one. -/
theorem Call.cases {call : Call} (ran : call.run atlas = .ok () next) : next.sites = atlas.sites ∨
    (∃ changed reports, commit next.rules changed atlas = .ok reports next) ∨
    ∃ lower source result, call = .addTree lower source ∧ Atlas.addTree lower source atlas = .ok result next := by
  have committed : ∀ {rules changed reports}, commit rules changed atlas = .ok reports next →
      ∃ changed reports, commit next.rules changed atlas = .ok reports next :=
    fun {rules changed reports} done => ⟨changed, reports, by rw [commit_rules done, done]⟩
  cases call with
  | addTree lower source =>
    obtain ⟨result, done⟩ := discard_ok ran
    exact Or.inr (Or.inr ⟨lower, source, result, rfl, done⟩)
  | claim directory => exact Or.inl (onRules_sites ran)
  | updateDirectory directory => exact Or.inl (onRules_sites ran)
  | revoke path =>
    obtain ⟨_, done⟩ := discard_ok ran
    exact Or.inl (onRules_sites done)
  | addRule dir rule =>
    obtain ⟨_, done⟩ := discard_ok ran
    obtain ⟨_, rules, _, last⟩ := proposed_ok done
    exact Or.inr (Or.inl (committed last))
  | addRules batch =>
    obtain ⟨_, done⟩ := discard_ok ran
    cases batch with
    | nil => exact Or.inl (congrArg Atlas.sites (EStateM.Result.ok.inj done).2.symm)
    | cons entry batch =>
      obtain ⟨_, rules, _, last⟩ := proposed_ok done
      exact Or.inr (Or.inl (committed last))
  | removeRule dir pattern =>
    obtain ⟨_, done⟩ := discard_ok ran
    obtain ⟨gone, rules, _, last⟩ := proposed_ok done
    simp only [bind_eq] at last
    cases built : commit rules [dir] atlas with
    | error e left => simp [built] at last
    | ok reports left =>
      rw [built] at last
      rw [(EStateM.Result.ok.inj last).2] at built
      exact Or.inr (Or.inl (committed built))
  | updateRule dir rule =>
    obtain ⟨_, done⟩ := discard_ok ran
    obtain ⟨previous, rules, _, last⟩ := proposed_ok done
    by_cases keeps : previous.pattern = rule.pattern
    · simp only [if_pos keeps] at last
      refine Or.inl ?_
      rw [← (EStateM.Result.ok.inj last).2]
    · simp only [if_neg keeps] at last
      exact Or.inr (Or.inl (committed last))

/-- What a call keeps of all snapshots that were mounted, and gives the one that it mounts. -/
theorem Call.every {call : Call} {holds : List String → Overlay → Prop} (ran : call.run atlas = .ok () next)
    (every : atlas.sites.Every holds) (seated : ∀ names overlay, holds names overlay → overlay.Seat names)
    (again : ∀ changed names overlay rebuilt report, holds names overlay →
      rebuild next.rules changed overlay = .ok (rebuilt, report) → holds names rebuilt)
    (added : ∀ lower source overlay dispatch upper report, call = .addTree lower source →
      Overlay.ofTree lower source = .ok overlay → overlay.root ≠ "/" →
      Dispatch.ofPlan (Plan.compile atlas.rules overlay.root none) = .ok dispatch →
      build overlay.top overlay.root dispatch none = .ok (upper, report) →
      holds (segments overlay.root) { overlay with upper := some upper }) : next.sites.Every holds := by
  rcases Call.cases ran with same | ⟨changed, reports, committed⟩ | ⟨lower, source, result, isAddTree, mounted⟩
  · exact same ▸ every
  · exact commit_every every seated (again changed) committed
  · obtain ⟨overlay, dispatch, upper, report, mounts, below, admitted, planned, built, rfl⟩ := addTree_ok mounted
    exact every.place admitted (added lower source overlay dispatch upper report isAddTree mounts below planned built)

/-- Snapshots are mounted under the segments of their roots. -/
abbrev Seated (atlas : Atlas) : Prop := atlas.sites.Every fun names overlay => overlay.Seat names

/-- Calls keep snapshots in their seats. -/
theorem Seated.after_call (seated : atlas.Seated) (call : Call) : (after call.run atlas).Seated := by
  rw [after]
  cases ran : call.run atlas with
  | error e next =>
    obtain rfl := Call.unchanged ran
    exact seated
  | ok _ next =>
    refine Call.every ran seated (fun _ _ here => here) (fun changed names overlay rebuilt report here done => ?_)
      fun lower source overlay dispatch upper report _ mounts _ _ _ => ?_
    · obtain ⟨_, upper, _, _, _, rfl, _⟩ := rebuild_ok done
      exact ⟨here.steps, here.root⟩
    · obtain ⟨names, seat⟩ := Overlay.exists_seat (Overlay.ofTree_ok mounts).2.2.1
      exact seat.segments.symm ▸ ⟨seat.steps, seat.root⟩

theorem Seated.afterCalls (seated : atlas.Seated) (calls : List Call) : (atlas.afterCalls calls).Seated := by
  induction calls generalizing atlas with
  | nil => exact seated
  | cons call calls ih => exact ih (seated.after_call call)

end Atlas
end BackupAtlas
