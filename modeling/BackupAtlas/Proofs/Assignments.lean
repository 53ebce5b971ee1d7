import BackupAtlas.Proofs.Reuse

namespace BackupAtlas

open TreePath

namespace Dispatch

variable {set : RuleSet} {dispatch all : Dispatch} {scope names : List String} {rule : Nat}

/-- The directive of a directory that a build looks at keeps its promise, and only where a place is clean does a build
reuse. -/
theorem Consulted.promise {old : RuleMap} {tree : DirTree Terrain.Ground}
    (surveyed : Terrain.Surveyed scope old set.rulesAt tree)
    (compiled : Matcher.compile ((Terrain.Stop.ofTree tree).directives ['/']) = .ok dispatch.dirs)
    (consulted : Consulted dispatch scope names) :
    (dispatch.directiveFor (dirOf names)).Sound old set.rulesAt names ∧
      ∀ rule, dispatch.directiveFor (dirOf names) = .reuse rule → Terrain.Surveyed.Clean scope tree := by
  obtain ⟨front, name, rfl, step, within, station⟩ := consulted.exists_station surveyed compiled
  obtain ⟨directive, found, promise, _, clean⟩ := surveyed.station_child compiled within station step
  rw [directiveFor, found]
  exact ⟨promise, clean⟩

/-- A rule that is promised for everything below a directory is found for every path in it. -/
theorem Answers.of_assign {old new : RuleMap} (answers : all.Answers new) (areSteps : AreSteps names)
    (promise : (Directive.assign rule).Sound old new names) {file : List Char} (held : dirOf names <+: file) :
    all.ruleFor file = rule := by
  have absolute : file.head? = some '/' := by
    obtain ⟨rest, rfl⟩ := held
    rfl
  obtain ⟨deeper, rest, deeperSteps, plain, rfl⟩ := exists_dirOf absolute
  obtain ⟨more, rfl⟩ := (dirOf_prefix_iff areSteps deeperSteps plain).mp held
  rw [answers.absolute _ _ deeperSteps plain]
  exact promise more rest

/-- A rule that a plan assigns to a directory that a build looks at is the rule of every path in that directory, by this
plan and by all rules. There is a directive for each such directory, and without a list of changed directories none is
to reuse anything. -/
theorem assign_uniform (reached : set.Reached) (starless : set.Starless) {root : String} (absolute : isAbsoluteDir root)
    (plainScope : '*' ∉ root.toList) {changed : Option (List String)}
    (proper : Terrain.ProperDirs (changed.getD [])) : ∃ all dispatch,
      Dispatch.all set = .ok all ∧ ofPlan (Plan.compile set root changed) = .ok dispatch ∧
      ∀ names, Consulted dispatch (segments root) names →
        (∀ rule, dispatch.directiveFor (dirOf names) = .assign rule →
          ∀ file, dirOf names <+: file → all.ruleFor file = rule ∧ dispatch.ruleFor file = rule) ∧
        dispatch.directiveFor (dirOf names) ≠ .unmatched ∧
        (changed = none → ∀ rule, dispatch.directiveFor (dirOf names) ≠ .reuse rule) := by
  have sound := reached.sound
  obtain ⟨scope, areSteps, rfl⟩ := exists_dirOf_of_isAbsoluteDir absolute
  obtain ⟨all, readyAll, answers⟩ := ruleFor_all sound starless
  obtain ⟨files, made, agree⟩ := ruleFor_scope sound starless readyAll absolute changed
  rw [String.toList_ofList] at plainScope agree
  obtain ⟨dispatch, ready, compiled, dirs⟩ := ofPlan_spec sound starless areSteps plainScope proper
  obtain rfl := Except.ok.inj (made.symm.trans compiled)
  have surveyed : Terrain.Surveyed scope set.rulesAt set.rulesAt _ :=
    Terrain.survey_surveyed sound starless areSteps plainScope proper fun _ _ _ => rfl
  refine ⟨all, dispatch, readyAll, ready, fun names consulted => ?_⟩
  rw [segments_dirOf areSteps] at consulted
  have steps := consulted.areSteps areSteps
  obtain ⟨promise, clean⟩ := consulted.promise surveyed dirs
  refine ⟨fun rule told file held => ?_, fun told => ?_, ?_⟩
  · rw [told] at promise
    have found := answers.of_assign steps promise held
    obtain ⟨front, name, rfl, _, within, _⟩ := consulted.exists_station surveyed dirs
    have inScope : dirOf scope <+: file := by
      obtain ⟨more, rfl⟩ := within
      rw [List.append_assoc, dirOf_append] at held
      exact (List.prefix_append _ _).trans held
    exact ⟨found, (agree file inScope).trans found⟩
  · rw [told] at promise
    exact promise
  · rintro rfl rule told
    refine surveyed.not_clean ?_ (fun names comparable ruled => ?_) (clean rule told)
    · exact Terrain.changed_survey_none sound (Or.inl List.nil_prefix) (Or.inl rfl)
    · exact Terrain.changed_survey_none sound comparable (Or.inr ruled)

/-- Names with a certain start go to a rule of their own. -/
theorem assign_uniform_start : ∃ set,
    RuleSet.ofRecords [{ id := 1, path := "/x/" }]
      [{ id := 5, directoryId := 1, pattern := "*" }, { id := 6, directoryId := 1, pattern := "a*" }] = .ok set ∧
    set.Reached ∧ set.Starless ∧ isAbsoluteDir "/x/" ∧ '*' ∉ "/x/".toList ∧
    Terrain.ProperDirs ((none : Option (List String)).getD []) ∧ ∃ all dispatch,
      Dispatch.all set = .ok all ∧ ofPlan (Plan.compile set "/x/" none) = .ok dispatch ∧
      Consulted dispatch (segments "/x/") ["x/", "ab/"] ∧ dispatch.directiveFor "/x/ab/".toList = .assign 6 ∧
      ∀ file, "/x/ab/".toList <+: file → all.ruleFor file = 6 ∧ dispatch.ruleFor file = 6 := by
  have known : (RuleSet.ofRecords [{ id := 1, path := "/x/" }]
      [{ id := 5, directoryId := 1, pattern := "*" }, { id := 6, directoryId := 1, pattern := "a*" }]).toOption.map
      (fun set => (set.claims.names, (ofPlan (Plan.compile set "/x/" none)).toOption.map fun dispatch =>
        dispatch.dirs.top.search "/x/ab/".toList)) = some (["/x/"], some (some (.assign 6))) := by decide +kernel
  obtain ⟨set, loaded, reached, starless, answers⟩ := RuleSet.exists_ofRecords known (by decide +kernel)
  obtain ⟨all, dispatch, readyAll, ready, uniform⟩ := assign_uniform reached starless
    (show isAbsoluteDir "/x/" by decide +kernel) (by decide +kernel) Terrain.properDirs_none
  have searched := map_eq_of_ok ready answers
  have told : dispatch.directiveFor "/x/ab/".toList = .assign 6 := directiveFor_of_search searched
  have consulted : Consulted dispatch (segments "/x/") ["x/", "ab/"] := .first ⟨['a', 'b'], by decide, by decide⟩
  exact ⟨set, loaded, reached, starless, by decide +kernel, by decide +kernel, Terrain.properDirs_none, all, dispatch,
    readyAll, ready, consulted, told, (uniform ["x/", "ab/"] consulted).1 6 told⟩

end Dispatch
end BackupAtlas
