import BackupAtlas.Proofs.Upkeep

namespace BackupAtlas

open TreePath

/-- Steps that succeed together succeed one by one. -/
theorem forall₂_of_mapM_ok {α β : Type} {step : α → Except Error β} {items : List α} {results : List β}
    (ran : items.mapM step = .ok results) : List.Forall₂ (fun item result => step item = .ok result) items results := by
  induction items generalizing results with
  | nil =>
    obtain rfl := Except.ok.inj ran
    exact .nil
  | cons item items ih =>
    rw [List.mapM_cons] at ran
    cases first : step item with
    | error e => simp [first, bind, Except.bind] at ran
    | ok head =>
      cases others : items.mapM step with
      | error e => simp [first, others, bind, Except.bind] at ran
      | ok tail =>
        simp only [first, others, bind, Except.bind, pure, Except.pure, Except.ok.injEq] at ran
        subst ran
        exact .cons first (ih others)

theorem exists_of_forall₂ {α β : Type} {rel : α → β → Prop} {items : List α} {others : List β}
    (paired : List.Forall₂ rel items others) :
    (∀ item ∈ items, ∃ other ∈ others, rel item other) ∧ ∀ other ∈ others, ∃ item ∈ items, rel item other := by
  induction paired with
  | nil => exact ⟨fun _ member => absurd member List.not_mem_nil, fun _ member => absurd member List.not_mem_nil⟩
  | @cons item other items others here _ ih =>
    refine ⟨fun next member => ?_, fun next member => ?_⟩
    · rcases List.mem_cons.mp member with rfl | later
      · exact ⟨other, List.mem_cons_self, here⟩
      · obtain ⟨found, listed, there⟩ := ih.1 next later
        exact ⟨found, List.mem_cons_of_mem _ listed, there⟩
    · rcases List.mem_cons.mp member with rfl | later
      · exact ⟨item, List.mem_cons_self, here⟩
      · obtain ⟨found, listed, there⟩ := ih.2 next later
        exact ⟨found, List.mem_cons_of_mem _ listed, there⟩

/-- If a step succeeds for each item, so do all steps together. -/
theorem mapM_ok {α β : Type} {step : α → Except Error β} {good : α → β → Prop} {items : List α}
    (each : ∀ item ∈ items, ∃ result, step item = .ok result ∧ good item result) :
    ∃ results, items.mapM step = .ok results ∧
      (∀ item ∈ items, ∃ result ∈ results, good item result) ∧ ∀ result ∈ results, ∃ item ∈ items,
        good item result := by
  obtain ⟨results, ran, paired⟩ : ∃ results, items.mapM step = .ok results ∧ List.Forall₂ good items results := by
    induction items with
    | nil => exact ⟨[], rfl, .nil⟩
    | cons item items ih =>
      obtain ⟨result, done, here⟩ := each item List.mem_cons_self
      obtain ⟨results, others, paired⟩ := ih fun next member => each next (List.mem_cons_of_mem _ member)
      exact ⟨result :: results, by rw [List.mapM_cons, done, others]; rfl, .cons here paired⟩
  exact ⟨results, ran, exists_of_forall₂ paired⟩

namespace Sites

variable {α : Type}

/-- Where snapshots stand that have been built again and put back, and what stands elsewhere. -/
theorem at?_foldl_place {entries : List (Overlay × α)} {sites : Sites} (neat : sites.Neat)
    (known : ∀ entry ∈ entries, ∃ old, sites.at? (segments entry.1.root) = some old) :
    (entries.foldl (fun sites entry => sites.place entry.1 (segments entry.1.root)) sites).Neat ∧
    ∀ names, (∃ entry ∈ entries, segments entry.1.root = names ∧
        (entries.foldl (fun sites entry => sites.place entry.1 (segments entry.1.root)) sites).at? names = some entry.1) ∨
      (∀ entry ∈ entries, segments entry.1.root ≠ names) ∧
        (entries.foldl (fun sites entry => sites.place entry.1 (segments entry.1.root)) sites).at? names =
          sites.at? names := by
  induction entries generalizing sites with
  | nil => exact ⟨neat, fun names => Or.inr ⟨fun entry member => absurd member List.not_mem_nil, rfl⟩⟩
  | cons entry entries ih =>
    obtain ⟨old, here⟩ := known entry List.mem_cons_self
    have placed : ∀ names, (sites.place entry.1 (segments entry.1.root)).at? names = _ :=
      at?_place neat (admits_of_at? here)
    have still : ∀ next ∈ entries, ∃ old, (sites.place entry.1 (segments entry.1.root)).at? (segments next.1.root) =
      some old := by
      intro next member
      rw [placed]
      split
      · exact ⟨_, rfl⟩
      · exact known next (List.mem_cons_of_mem _ member)
    obtain ⟨neatAfter, others⟩ := ih (neat.place entry.1 _) still
    refine ⟨neatAfter, fun names => ?_⟩
    rcases others names with ⟨next, member, leads, found⟩ | ⟨apart, same⟩
    · exact Or.inl ⟨next, List.mem_cons_of_mem _ member, leads, found⟩
    · rw [placed] at same
      split at same
      · rename_i leads
        exact Or.inl ⟨entry, List.mem_cons_self, leads.symm, same⟩
      · rename_i differs
        refine Or.inr ⟨fun next member => ?_, same⟩
        rcases List.mem_cons.mp member with rfl | later
        · exact Ne.symm differs
        · exact apart next later

/-- Snapshots that are built again are put in their old places, and the others stay. -/
theorem foldl_place {entries : List (Overlay × α)} {sites : Sites} (neat : sites.Neat)
    (known : ∀ entry ∈ entries, ∃ old, sites.at? (segments entry.1.root) = some old) :
    (entries.foldl (fun sites entry => sites.place entry.1 (segments entry.1.root)) sites).Neat ∧
    ∀ names overlay, (entries.foldl (fun sites entry => sites.place entry.1 (segments entry.1.root)) sites).at? names =
    some overlay →
      (∃ entry ∈ entries, entry.1 = overlay ∧ segments entry.1.root = names) ∨
      (sites.at? names = some overlay ∧ ∀ entry ∈ entries, segments entry.1.root ≠ names) := by
  obtain ⟨neatAfter, each⟩ := at?_foldl_place neat known
  refine ⟨neatAfter, fun names overlay found => ?_⟩
  rcases each names with ⟨entry, member, leads, here⟩ | ⟨apart, same⟩
  · exact Or.inl ⟨entry, member, Option.some.inj (here.symm.trans found), leads⟩
  · exact Or.inr ⟨same.symm.trans found, apart⟩

end Sites

namespace Atlas

variable {set next : RuleSet} {changed names : List String} {uid gid : Nat} {inventory : Inventory} {overlay : Overlay}

/-- A directory that has changed and is the root of a snapshot, or above or below it, has to do with it. -/
theorem isAffected_of_comparable {scope : List String} (comparable : Terrain.Comparable scope names) :
    isAffected (String.ofList (dirOf scope)) (String.ofList (dirOf names)) := by
  have relevant := Terrain.isRelevant_of_comparable comparable
  rw [Terrain.isRelevant] at relevant
  rw [isAffected]
  simpa [Bool.or_comm] using relevant

/-- A snapshot is built again from its previous tagged tree. -/
theorem rebuild_spec (regular : set.Regular) (regularNext : next.Regular) (same : RuleSet.SameOutside changed set next)
    (proper : Terrain.ProperDirs changed) (tagged : overlay.Tagged set.rulesAt names uid gid inventory) :
    ∃ rebuilt report,
      rebuild next changed overlay = .ok (rebuilt, report) ∧ rebuilt.Tagged next.rulesAt names uid gid inventory := by
  obtain ⟨mounted, tree, upper, right⟩ := tagged
  have unchanged : ∀ other, Terrain.Comparable names other →
      ((Terrain.survey next (String.ofList (dirOf names)) (some changed)).labelAt {} other).changed = false →
        set.rulesAt other = next.rulesAt other :=
    fun _ => same.rulesAt_unmarked regular.sound regularNext.sound
  have previous : (Counterpart.ofPrevious (some tree)).Right set.rulesAt.ruleOf (some changed = none) names inventory :=
    right.congr (fun _ _ => rfl) False.elim
  have properDirs : Terrain.ProperDirs ((some changed).getD []) := proper
  obtain ⟨dispatch, after, report, compiled, built, rightAfter⟩ := compiled_build regularNext.sound regularNext.starless
    regularNext.idsFit mounted.steps mounted.starless properDirs unchanged mounted.isTop mounted.mountable previous
  rw [← mounted.root] at compiled built
  refine ⟨{ overlay with upper := some after }, ⟨overlay.root, true, report⟩, ?_, { mounted with }, after,
    rfl, rightAfter⟩
  simp only [rebuild, upper, Option.map_some, compiled, built, bind, Except.bind, pure, Except.pure]

/-- Far from all changes the rules around a snapshot are the same. -/
theorem rulesAt_of_not_affected (regular : set.Regular) (regularNext : next.Regular)
    (same : RuleSet.SameOutside changed set next)
    (mounted : overlay.Mounted names uid gid inventory) (far : ¬ changed.any (isAffected overlay.root)) :
    ∀ other, Terrain.Comparable names other → set.rulesAt other = next.rulesAt other := by
  intro other comparable
  refine same.rulesAt regular.sound regularNext.sound fun member => far ?_
  rw [mounted.root]
  exact List.any_eq_true.mpr ⟨_, member, isAffected_of_comparable comparable⟩

/-- A change of the rules in some directories goes through, and brings everything up to date. -/
theorem Sound.commit_spec {atlas : Atlas} (sound : atlas.Sound) (regular : next.Regular)
    (same : RuleSet.SameOutside changed atlas.rules next) (proper : Terrain.ProperDirs changed) : ∃ reports after,
      commit next changed atlas = .ok reports after ∧ after.Sound ∧ after.rules = next := by
  obtain ⟨dispatch, ready, answers⟩ := Dispatch.ruleFor_all regular.sound regular.starless
  generalize affectedEq : atlas.sites.overlays.filter (fun overlay => changed.any (isAffected overlay.root)) = affected
  have each : ∀ overlay ∈ affected, ∃ entry, rebuild next changed overlay = .ok entry ∧
      ∃ names uid gid inventory, atlas.sites.at? names = some overlay ∧ overlay.Mounted names uid gid inventory ∧
        entry.1.Tagged next.rulesAt names uid gid inventory := by
    intro overlay member
    rw [← affectedEq] at member
    obtain ⟨names, found⟩ := (Sites.mem_overlays sound.neat).mp (List.mem_filter.mp member).1
    obtain ⟨uid, gid, inventory, tagged⟩ := sound.tagged names overlay found
    obtain ⟨rebuilt, report, ran, right⟩ := rebuild_spec sound.regular regular same proper tagged
    exact ⟨(rebuilt, report), ran, names, uid, gid, inventory, found, tagged.toMounted, right⟩
  obtain ⟨entries, ran, onto, back⟩ := mapM_ok each
  have known : ∀ entry ∈ entries, ∃ old, atlas.sites.at? (segments entry.1.root) = some old := by
    intro entry member
    obtain ⟨overlay, _, names, _, _, _, found, _, tagged⟩ := back entry member
    exact ⟨overlay, by rw [tagged.segments, found]⟩
  obtain ⟨neat, mounts⟩ := Sites.foldl_place sound.neat known
  refine ⟨entries.map (·.2), { atlas with
    sites := entries.foldl (fun sites entry => sites.place entry.1 (segments entry.1.root)) atlas.sites,
    rules := next, dispatch },
    ?_, ⟨regular, answers, neat, fun names overlay found => ?_⟩, rfl⟩
  · simp only [commit, bind_eq, get_eq, settled_eq, ready, affectedEq, ran, set_eq, pure_eq]
  · rcases mounts names overlay found with ⟨entry, member, rfl, leads⟩ | ⟨before, apart⟩
    · obtain ⟨_, _, _, uid, gid, inventory, _, _, tagged⟩ := back entry member
      rw [tagged.segments] at leads
      exact ⟨uid, gid, inventory, leads ▸ tagged⟩
    · obtain ⟨uid, gid, inventory, tagged⟩ := sound.tagged names overlay before
      refine ⟨uid, gid, inventory, tagged.congr (rulesAt_of_not_affected sound.regular regular same tagged.toMounted
        fun near => ?_)⟩
      have listed : overlay ∈ affected := by
        rw [← affectedEq]
        exact List.mem_filter.mpr ⟨(Sites.mem_overlays sound.neat).mpr ⟨names, before⟩, near⟩
      -- a snapshot that has been built again would stand here instead
      obtain ⟨entry, member, others, _, _, _, _, mounted, rebuilt⟩ := onto overlay listed
      refine apart entry member ?_
      rw [rebuilt.segments, ← mounted.segments, tagged.segments]

end Atlas
end BackupAtlas
