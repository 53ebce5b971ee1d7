import BackupAtlas.Proofs.Layouts

namespace BackupAtlas

open TreePath

/-- A snapshot without its tagged tree. -/
def Overlay.bare (overlay : Overlay) : Overlay := { overlay with upper := none }

namespace Atlas

/-- The same snapshots are mounted in the same places, whatever their tagged trees. -/
def SameSnapshots (atlas next : Atlas) : Prop :=
  ∀ names, (next.sites.at? names).map Overlay.bare = (atlas.sites.at? names).map Overlay.bare

/-- A change of the rules in some directories, and what has been built for it: the snapshots of which the root lies
above or below such a directory, each once and in ascending order of the roots. Each stands in its place with a new
tagged tree, which is built of it by the new rules and has taken over only what these directories leave alone. All
others are as they were. -/
structure Rebuilt (changed : List String) (builds : List MountBuild) (atlas next : Atlas) : Prop where
  ascending : (builds.map (·.root)).Pairwise (· < ·)
  exact : ∀ root, root ∈ builds.map (·.root) ↔
    root ∈ atlas.mounts ∧ ∃ dir ∈ changed, dir.toList <+: root.toList ∨ root.toList <+: dir.toList
  built : ∀ names overlay, atlas.sites.at? names = some overlay → overlay.root ∈ builds.map (·.root) →
    ∃ dispatch upper report,
      Dispatch.ofPlan (Plan.compile next.rules overlay.root (overlay.upper.map fun _ => changed)) = .ok dispatch ∧
      build overlay.top overlay.root dispatch overlay.upper = .ok (upper, report) ∧
      { root := overlay.root, replaced := true, report } ∈ builds ∧
      next.sites.at? names = some { overlay with upper := some upper }
  kept : ∀ names overlay, atlas.sites.at? names = some overlay → overlay.root ∉ builds.map (·.root) →
    next.sites.at? names = some overlay
  same : atlas.SameSnapshots next

variable {atlas next : Atlas} {rules : RuleSet} {changed : List String} {builds : List MountBuild}
variable {dir pattern : String} {rule : Rule}

/-- The only snapshot is built if a changed directory lies above or below it. -/
theorem Rebuilt.alone (built : Rebuilt changed builds atlas next) {root : String} (mounted : atlas.mounts = [root])
    (listed : dir ∈ changed) (near : dir.toList <+: root.toList ∨ root.toList <+: dir.toList) :
    builds.map (·.root) = [root] := by
  refine eq_of_ascending String.lt_asymm (List.pairwise_singleton _ _) built.ascending fun other => ?_
  rw [built.exact, mounted, List.mem_singleton]
  refine and_iff_left_of_imp ?_
  rintro rfl
  exact ⟨dir, listed, near⟩

/-- A snapshot has to do with a change if a changed directory is at, above or below its root. -/
theorem any_isAffected {root : String} : changed.any (isAffected root) ↔
    ∃ dir ∈ changed, dir.toList <+: root.toList ∨ root.toList <+: dir.toList := by
  simp [isAffected, isWithin]

/-- A new build leaves the snapshot as it is, and reports on its root. -/
theorem rebuild_bare {overlay rebuilt : Overlay} {report : MountBuild}
    (made : rebuild rules changed overlay = .ok (rebuilt, report)) :
    rebuilt.root = overlay.root ∧ rebuilt.bare = overlay.bare ∧ report.root = overlay.root := by
  obtain ⟨_, _, _, _, _, rfl, rfl⟩ := rebuild_ok made
  exact ⟨rfl, rfl, rfl⟩

/-- The builds of a commit, one for each snapshot that has to do with a changed directory. -/
theorem commit_roots (ran : commit rules changed atlas = .ok builds next) : builds.map (·.root) =
    (atlas.sites.overlays.filter fun overlay => changed.any (isAffected overlay.root)).map (·.root) := by
  obtain ⟨_, entries, _, done, rfl, _⟩ := commit_ok ran
  have equal : List.Forall₂ Eq
      ((atlas.sites.overlays.filter fun overlay => changed.any (isAffected overlay.root)).map (·.root))
      ((entries.map (·.2)).map (·.root)) := by
    rw [List.map_map, List.forall₂_map_left_iff, List.forall₂_map_right_iff]
    exact (forall₂_of_mapM_ok done).imp fun overlay entry made => (rebuild_bare made).2.2.symm
  rw [List.forall₂_eq_eq_eq] at equal
  exact equal.symm

/-- Reported are the roots of those snapshots that have to do with the change. -/
theorem mem_commit_roots (ran : commit rules changed atlas = .ok builds next) {root : String} :
    root ∈ builds.map (·.root) ↔ root ∈ atlas.mounts ∧ changed.any (isAffected root) := by
  rw [commit_roots ran, List.mem_map, mem_mounts]
  constructor
  · rintro ⟨overlay, member, rfl⟩
    obtain ⟨mounted, near⟩ := List.mem_filter.mp member
    exact ⟨⟨overlay, mounted, rfl⟩, near⟩
  · rintro ⟨⟨overlay, mounted, rfl⟩, near⟩
    exact ⟨overlay, List.mem_filter.mpr ⟨mounted, near⟩, rfl⟩

/-- A commit place by place: what stands there has been built again from what stood there, or there was nothing that
has to do with a changed directory, and nothing has happened. -/
theorem Seated.commit_places (seated : atlas.Seated) (ran : commit rules changed atlas = .ok builds next)
    (names : List String) :
    (∃ overlay rebuilt report, atlas.sites.at? names = some overlay ∧ changed.any (isAffected overlay.root) ∧
      rebuild rules changed overlay = .ok (rebuilt, report) ∧ report ∈ builds ∧ next.sites.at? names = some rebuilt) ∨
    (∀ overlay, atlas.sites.at? names = some overlay → ¬ changed.any (isAffected overlay.root)) ∧
      next.sites.at? names = atlas.sites.at? names := by
  obtain ⟨_, entries, _, done, rfl, rfl⟩ := commit_ok ran
  obtain ⟨onto, back⟩ := exists_of_forall₂ (forall₂_of_mapM_ok done)
  have source : ∀ entry ∈ entries, ∃ overlay, atlas.sites.at? (segments entry.1.root) = some overlay ∧
      changed.any (isAffected overlay.root) ∧ rebuild rules changed overlay = .ok entry := by
    intro entry member
    obtain ⟨overlay, listed, made⟩ := back entry member
    obtain ⟨mounted, near⟩ := List.mem_filter.mp listed
    refine ⟨overlay, ?_, near, made⟩
    rw [(rebuild_bare made).1]
    exact (Sites.Every.seated seated).mpr ⟨mounted, rfl⟩
  obtain ⟨_, places⟩ := Sites.at?_foldl_place seated.neat fun entry member => by
    obtain ⟨overlay, found, _⟩ := source entry member
    exact ⟨overlay, found⟩
  rcases places names with ⟨entry, member, here, stands⟩ | ⟨apart, stands⟩
  · obtain ⟨overlay, found, near, made⟩ := source entry member
    exact Or.inl ⟨overlay, entry.1, entry.2, here ▸ found, near, made, List.mem_map_of_mem member, stands⟩
  · refine Or.inr ⟨fun overlay found near => ?_, stands⟩
    obtain ⟨mounted, leads⟩ := (Sites.Every.seated seated).mp found
    obtain ⟨entry, member, made⟩ := onto overlay (List.mem_filter.mpr ⟨mounted, near⟩)
    refine apart entry member ?_
    rw [(rebuild_bare made).1, leads]

/-- To apply changed rules rebuilds what has to do with them, and nothing else. -/
theorem Seated.commit_rebuilt (seated : atlas.Seated) (ran : commit rules changed atlas = .ok builds next) :
    Rebuilt changed builds atlas next := by
  have sameRules := commit_rules ran
  have affected : ∀ {names overlay}, atlas.sites.at? names = some overlay →
      (overlay.root ∈ builds.map (·.root) ↔ changed.any (isAffected overlay.root)) := by
    intro names overlay found
    rw [mem_commit_roots ran, mem_mounts]
    exact and_iff_right ⟨overlay, ((Sites.Every.seated seated).mp found).1, rfl⟩
  constructor
  case ascending =>
    rw [commit_roots ran]
    exact List.pairwise_map.mpr ((Sites.Every.ascending [] seated).filter _)
  case exact =>
    intro root
    rw [mem_commit_roots ran, any_isAffected]
  case built =>
    intro names overlay found member
    rcases seated.commit_places ran names with ⟨other, rebuilt, report, known, _, made, listed, stands⟩ | ⟨apart, _⟩
    · obtain rfl := Option.some.inj (found.symm.trans known)
      obtain ⟨dispatch, upper, figures, planned, built, rfl, rfl⟩ := rebuild_ok made
      exact ⟨dispatch, upper, figures, sameRules ▸ planned, built, listed, stands⟩
    · exact absurd ((affected found).mp member) (apart overlay found)
  case kept =>
    intro names overlay found missing
    rcases seated.commit_places ran names with ⟨other, _, _, known, near, _⟩ | ⟨_, stands⟩
    · obtain rfl := Option.some.inj (found.symm.trans known)
      exact absurd ((affected found).mpr near) missing
    · exact stands.trans found
  case same =>
    intro names
    rcases seated.commit_places ran names with ⟨overlay, rebuilt, _, found, _, made, _, stands⟩ | ⟨_, stands⟩
    · rw [stands, found, Option.map_some, Option.map_some, (rebuild_bare made).2.1]
    · rw [stands]

theorem SameSnapshots.refl (atlas : Atlas) : atlas.SameSnapshots atlas := fun _ => rfl

theorem SameSnapshots.trans {last : Atlas} (first : atlas.SameSnapshots next) (second : next.SameSnapshots last) :
    atlas.SameSnapshots last := fun names => (second names).trans (first names)

theorem SameSnapshots.symm (same : atlas.SameSnapshots next) : next.SameSnapshots atlas :=
  fun names => (same names).symm

theorem SameSnapshots.at? (same : atlas.SameSnapshots next) {names : List String} {overlay : Overlay}
    (found : atlas.sites.at? names = some overlay) :
    ∃ other, next.sites.at? names = some other ∧ other.bare = overlay.bare := by
  have here := same names
  rwa [found, Option.map_some, Option.map_eq_some_iff] at here

/-- The same snapshots are alike in whatever follows for two that differ in their tagged trees. -/
theorem SameSnapshots.alike {twin : List String → Overlay → Overlay → Prop} (same : atlas.SameSnapshots next)
    (neat : atlas.sites.Neat) (neatNext : next.sites.Neat)
    (twins : ∀ names overlay other, atlas.sites.at? names = some overlay → next.sites.at? names = some other →
      other.bare = overlay.bare → twin names overlay other) : Sites.Alike twin [] atlas.sites next.sites := by
  refine neat.alike neatNext fun names => ?_
  cases found : atlas.sites.at? names with
  | none =>
    have here := same names
    rw [found, Option.map_none, Option.map_eq_none_iff] at here
    exact Or.inl ⟨found, here⟩
  | some overlay =>
    obtain ⟨other, also, bare⟩ := same.at? found
    exact Or.inr ⟨overlay, other, found, also, twins names overlay other found also bare⟩

/-- Nothing is built for no changes. -/
theorem rebuilt_nil (sites : next.sites = atlas.sites) : Rebuilt [] [] atlas next where
  ascending := List.Pairwise.nil
  exact root := by simp
  built names overlay _ member := absurd member List.not_mem_nil
  kept names overlay found _ := sites ▸ found
  same names := by rw [sites]

theorem Seated.addRule_rebuilt (seated : atlas.Seated) (ran : addRule dir rule atlas = .ok builds next) :
    Rebuilt [dir] builds atlas next := by
  obtain ⟨_, rules, _, committed⟩ := proposed_ok ran
  exact seated.commit_rebuilt committed

theorem Seated.addRules_rebuilt (seated : atlas.Seated) {batch : List (String × Rule)}
    (ran : addRules batch atlas = .ok builds next) : Rebuilt (directories batch) builds atlas next := by
  cases batch with
  | nil =>
    obtain ⟨rfl, rfl⟩ := EStateM.Result.ok.inj ran
    exact rebuilt_nil rfl
  | cons entry batch =>
    obtain ⟨_, rules, _, committed⟩ := proposed_ok ran
    exact seated.commit_rebuilt committed

theorem Seated.removeRule_rebuilt (seated : atlas.Seated) {gone : Rule}
    (ran : removeRule dir pattern atlas = .ok (gone, builds) next) : Rebuilt [dir] builds atlas next := by
  obtain ⟨_, rules, _, last⟩ := proposed_ok ran
  simp only [bind_eq] at last
  cases built : commit rules [dir] atlas with
  | error e left => simp [built] at last
  | ok reports left =>
    rw [built] at last
    obtain ⟨answer, rfl⟩ := EStateM.Result.ok.inj last
    exact (Prod.mk.inj answer).2 ▸ seated.commit_rebuilt built

/-- An update that changes the pattern builds again, one that keeps it does not. -/
theorem Seated.updateRule_rebuilt (seated : atlas.Seated) (ran : updateRule dir rule atlas = .ok builds next) :
    ∃ previous, RuleSet.updateRule dir rule atlas.rules = .ok previous next.rules ∧
      (previous.pattern = rule.pattern → builds = [] ∧ next.sites = atlas.sites) ∧
      (previous.pattern ≠ rule.pattern → Rebuilt [dir] builds atlas next) := by
  obtain ⟨previous, rules, updated, last⟩ := proposed_ok ran
  by_cases keeps : previous.pattern = rule.pattern
  · simp only [if_pos keeps] at last
    obtain ⟨rfl, rfl⟩ := EStateM.Result.ok.inj last
    exact ⟨previous, updated, fun _ => ⟨rfl, rfl⟩, fun differs => absurd keeps differs⟩
  · simp only [if_neg keeps] at last
    exact ⟨previous, commit_rules last ▸ updated, fun same => absurd same keeps, fun _ => seated.commit_rebuilt last⟩

/-- No call but the one that mounts a snapshot changes which snapshots are mounted where. -/
theorem Seated.sameSnapshots (seated : atlas.Seated) {call : Call}
    (rulesOnly : ∀ lower source, call ≠ .addTree lower source) (ran : call.run atlas = .ok () next) : atlas.SameSnapshots next := by
  rcases Call.cases ran with same | ⟨changed, reports, committed⟩ | ⟨lower, source, _, isAddTree, _⟩
  · exact (rebuilt_nil same).same
  · exact (seated.commit_rebuilt committed).same
  · exact absurd isAddTree (rulesOnly lower source)

end Atlas
end BackupAtlas
