import BackupAtlas.Proofs.EditLaws
import BackupAtlas.Proofs.Patches
import BackupAtlas.Proofs.RuleEdits

namespace BackupAtlas

open TreePath

namespace Dispatch

variable {dispatch : Dispatch} {scope names : List String}

theorem Consulted.areSteps (consulted : Consulted dispatch scope names) (scopeSteps : AreSteps scope) :
    AreSteps names := by
  induction consulted with
  | first step => exact scopeSteps.snoc step
  | next _ _ step above => exact above.snoc step

/-- Of the directories that a build comes to, those that it takes over, or has nothing to say of, hold only files that
had the same rule before. All directories whose rules differ must be listed as changed, and more may be. -/
theorem reuse_unchanged {old new : RuleSet} (reachedOld : old.Reached) (reached : new.Reached)
    (starlessOld : old.Starless) (starless : new.Starless) {root : String} (absolute : isAbsoluteDir root)
    (plainScope : '*' ∉ root.toList) {changed : List String} (proper : Terrain.ProperDirs changed)
    (same : RuleSet.SameOutside changed old new) : ∃ before after dispatch,
      Dispatch.all old = .ok before ∧ Dispatch.all new = .ok after ∧
      ofPlan (Plan.compile new root (some changed)) = .ok dispatch ∧
      ∀ names, Consulted dispatch (segments root) names →
        (∃ rule, dispatch.directiveFor (dirOf names) = .reuse rule) ∨ dispatch.directiveFor (dirOf names) = .unmatched →
        ∀ file, dirOf names <+: file → before.ruleFor file = after.ruleFor file := by
  have soundOld := reachedOld.sound
  have sound := reached.sound
  obtain ⟨scope, areSteps, rfl⟩ := exists_dirOf_of_isAbsoluteDir absolute
  rw [String.toList_ofList] at plainScope
  have listed : Terrain.ProperDirs ((some changed).getD []) := proper
  obtain ⟨before, readyOld, answersOld⟩ := ruleFor_all soundOld starlessOld
  obtain ⟨after, readyNew, answers⟩ := ruleFor_all sound starless
  obtain ⟨dispatch, ready, _, dirs⟩ := ofPlan_spec sound starless areSteps plainScope listed
  have surveyed : Terrain.Surveyed scope old.rulesAt new.rulesAt _ :=
    Terrain.survey_surveyed sound starless areSteps plainScope listed fun _ =>
      same.rulesAt_unmarked soundOld sound
  refine ⟨before, after, dispatch, readyOld, readyNew, ready, fun names consulted kept file held => ?_⟩
  rw [segments_dirOf areSteps] at consulted
  have steps := consulted.areSteps areSteps
  obtain ⟨front, name, rfl, step, within, station⟩ := consulted.exists_station surveyed dirs
  obtain ⟨directive, found, promise, _⟩ := surveyed.station_child dirs within station step
  have told : dispatch.directiveFor (dirOf (front ++ [name])) = directive := by
    rw [directiveFor, found]
    rfl
  rw [told] at kept
  have absoluteFile : file.head? = some '/' := by
    obtain ⟨rest, rfl⟩ := held
    rfl
  obtain ⟨deeper, rest, deeperSteps, plain, rfl⟩ := exists_dirOf absoluteFile
  obtain ⟨more, rfl⟩ := (dirOf_prefix_iff steps deeperSteps plain).mp held
  rw [answersOld.absolute _ _ deeperSteps plain, answers.absolute _ _ deeperSteps plain]
  rcases kept with ⟨rule, rfl⟩ | rfl
  · exact promise more rest
  · exact False.elim promise

/-- A directory with a rule for all files is taken over although the rules of the directory above it have changed. -/
theorem reuse_unchanged_shielded : ∃ old new,
    RuleSet.ofRecords [{ id := 1, path := "/x/" }, { id := 2, path := "/x/b/" }]
      [{ id := 5, directoryId := 1, pattern := "*" }, { id := 7, directoryId := 2, pattern := "*" }] = .ok old ∧
    RuleSet.addRule "/x/" { id := 9, pattern := "*.txt" } old = .ok () new ∧
    old.Reached ∧ new.Reached ∧ old.Starless ∧ new.Starless ∧ isAbsoluteDir "/x/" ∧ '*' ∉ "/x/".toList ∧
    Terrain.ProperDirs ["/x/"] ∧ RuleSet.SameOutside ["/x/"] old new ∧ ∃ before after dispatch,
      Dispatch.all old = .ok before ∧ Dispatch.all new = .ok after ∧
      ofPlan (Plan.compile new "/x/" (some ["/x/"])) = .ok dispatch ∧
      Consulted dispatch (segments "/x/") ["x/", "b/"] ∧ dispatch.directiveFor "/x/b/".toList = .reuse 7 ∧
      ∀ file, "/x/b/".toList <+: file → before.ruleFor file = after.ruleFor file := by
  have known : (RuleSet.ofRecords [{ id := 1, path := "/x/" }, { id := 2, path := "/x/b/" }]
      [{ id := 5, directoryId := 1, pattern := "*" }, { id := 7, directoryId := 2, pattern := "*" }]).toOption.map
      (fun old => (old.claims.names, (RuleSet.addRule "/x/" { id := 9, pattern := "*.txt" }).run' old,
        (old.edited [.addRule "/x/" { id := 9, pattern := "*.txt" }]).claims.names,
        (ofPlan (Plan.compile (old.edited [.addRule "/x/" { id := 9, pattern := "*.txt" }]) "/x/"
          (some ["/x/"]))).toOption.map (·.dirs.top.search "/x/b/".toList))) =
      some (["/x/", "/x/b/"], some (), ["/x/", "/x/b/"], some (some (.reuse 7))) := by decide +kernel
  obtain ⟨old, loaded, reachedOld, starlessOld, found⟩ := RuleSet.exists_ofRecords known (by decide +kernel)
  rw [Prod.mk.injEq, Prod.mk.injEq] at found
  obtain ⟨succeeds, names, answers⟩ := found
  obtain ⟨new, added⟩ := exists_ok_of_run' succeeds
  have edited : old.edited [.addRule "/x/" { id := 9, pattern := "*.txt" }] = new := by
    simp only [RuleSet.edited, List.foldl, RuleSet.Edit.apply, RuleSet.Edit.run, added]
  rw [edited] at names answers
  have reached := reachedOld.step (.addRule "/x/" { id := 9, pattern := "*.txt" }) added
  have starless : new.Starless := RuleSet.starless_of_names (by rw [names]; decide +kernel)
  have same : RuleSet.SameOutside ["/x/"] old new :=
    ((RuleSet.Edit.addRule "/x/" { id := 9, pattern := "*.txt" }).effect added).sameOutside
  have proper : Terrain.ProperDirs ["/x/"] := by
    simp only [Terrain.ProperDirs, List.mem_singleton, forall_eq]
    decide +kernel
  obtain ⟨before, after, dispatch, readyOld, readyNew, ready, kept⟩ :=
    reuse_unchanged reachedOld reached starlessOld starless (show isAbsoluteDir "/x/" by decide +kernel)
      (by decide +kernel) proper same
  have searched := map_eq_of_ok ready answers
  have told : dispatch.directiveFor "/x/b/".toList = .reuse 7 := directiveFor_of_search searched
  have consulted : Consulted dispatch (segments "/x/") ["x/", "b/"] := .first ⟨['b'], by decide, by decide⟩
  exact ⟨old, new, loaded, added, reachedOld, reached, starlessOld, starless, by decide +kernel, by decide +kernel, proper,
    same, before, after, dispatch, readyOld, readyNew, ready, consulted, told,
    kept ["x/", "b/"] consulted (Or.inl ⟨7, told⟩)⟩

end Dispatch
end BackupAtlas
