import BackupAtlas.Proofs.FileRules
import BackupAtlas.Proofs.Stations

namespace BackupAtlas

open TreePath

namespace Terrain

/-- A list of directories, all absolute and without stars. -/
def ProperDirs (paths : List String) : Prop := ∀ path ∈ paths, isAbsoluteDir path ∧ '*' ∉ path.toList

theorem properDirs_none : ProperDirs ((none : Option (List String)).getD []) := by simp [ProperDirs]

variable {set : RuleSet} {scope : List String} {changed : Option (List String)}

/-- Names that lead to a tidy place. -/
theorem steps_of_prefix {names : List String} {path : String} (absolute : isAbsoluteDir path)
    (starless : '*' ∉ path.toList) (held : names <+: segments path) : AreSteps names ∧ '*' ∉ dirOf names := by
  obtain ⟨steps, areSteps, rfl⟩ := exists_dirOf_of_isAbsoluteDir absolute
  rw [segments_dirOf areSteps] at held
  rw [String.toList_ofList] at starless
  obtain ⟨more, rfl⟩ := held
  refine ⟨areSteps.of_prefix (List.prefix_append _ _), fun star => starless ?_⟩
  rw [dirOf_append]
  exact List.mem_append_left _ star

/-- Where no claim, no scope and no changed directory has a star, a survey has tidy places only. -/
theorem survey_tidy (sound : set.Sound) (starless : set.Starless) (areSteps : AreSteps scope)
    (plainScope : '*' ∉ dirOf scope) (proper : ProperDirs (changed.getD [])) :
    ∀ entry ∈ (survey set (String.ofList (dirOf scope)) changed).listing, Tidy entry.1 entry.2 := by
  rintro ⟨names, ground⟩ member
  have ascending := survey_ascending set (String.ofList (dirOf scope)) changed
  obtain ⟨below, here⟩ := (DirTree.mem_listing ascending).mp member
  have leads : AreSteps names ∧ '*' ∉ dirOf names := by
    have there : ((survey set (String.ofList (dirOf scope)) changed).sub? names).isSome := by rw [here]; rfl
    rw [sub?_survey_isSome] at there
    rcases there with ⟨path, listed, held⟩ | ⟨⟨path, claim⟩, listed, held⟩ | held
    · obtain ⟨absolute, plain⟩ := proper path (List.mem_filter.mp listed).1
      exact steps_of_prefix absolute plain held
    · have claimed := Catalog.get?_eq_some.mpr (List.mem_filter.mp listed).1
      exact steps_of_prefix (sound _ _ claimed).absolute (starless _ _ claimed) held
    · exact steps_of_prefix (isAbsoluteDir_dirOf areSteps) (by rwa [String.toList_ofList]) held
  refine ⟨leads.1, leads.2, fun rule inside => ?_⟩
  have label := rules_labelAt_survey sound (String.ofList (dirOf scope)) changed names
  rw [DirTree.labelAt_of_some here] at label
  have inside : rule ∈ ground.rules := inside
  rw [show ground.rules = _ from label] at inside
  split at inside
  · exact (sound.proper starless).plain names rule inside
  · exact absurd inside List.not_mem_nil

end Terrain

namespace Dispatch

variable {set : RuleSet} {dispatch : Dispatch} {path : List Char}

/-- The search that remembers nothing, unlike the one of a lookup, can be run in a proof. -/
theorem ruleFor_of_search {rule : Nat} (found : dispatch.files.top.search path = some rule) :
    dispatch.ruleFor path = rule := by
  rw [ruleFor, Matcher.lookup_eq_search, found, Option.getD_some]

/-- A directory gets the directive that the search finds. -/
theorem directiveFor_of_search {directive : Directive} (found : dispatch.dirs.top.search path = some directive) :
    dispatch.directiveFor path = directive := by
  rw [directiveFor, Matcher.lookup_eq_search, found, Option.getD_some]

/-- What the files of a plan that is ready say of paths: below the scope it is the governing rule. -/
theorem files_spec (sound : set.Sound) (starless : set.Starless) (scope : List String)
    (changed : Option (List String)) : ∃ files,
      Matcher.compile (Plan.compile set (String.ofList (dirOf scope)) changed).rules = .ok files ∧
      (∀ path, path.head? ≠ some '/' → files.lookup path = none) ∧
      ∀ names rest, AreSteps names → '/' ∉ rest → scope <+: names →
        files.lookup (dirOf names ++ rest) = set.rulesAt.upTo (dirOf names ++ rest) names.reverse := by
  have lists := Plan.lists sound starless (String.ofList (dirOf scope)) changed
  obtain ⟨files, compiled, relative, answers⟩ := lists.lookup_spec (sound.proper starless)
  refine ⟨files, compiled, relative, fun names rest steps plain held => ?_⟩
  exact answers names rest steps plain fun above leads => Terrain.inScope_of_prefix held leads

theorem ofPlan_ok {plan : Plan} {files : Matcher Nat} {dirs : Matcher Directive}
    (compiled : Matcher.compile plan.rules = .ok files) (also : Matcher.compile plan.directives = .ok dirs) :
    ofPlan plan = .ok { files, dirs } := by
  rw [ofPlan, compiled, also]
  rfl

theorem compiled_of_ofPlan {plan : Plan} (ready : ofPlan plan = .ok dispatch) :
    Matcher.compile plan.rules = .ok dispatch.files ∧ Matcher.compile plan.directives = .ok dispatch.dirs := by
  rw [ofPlan] at ready
  cases files : Matcher.compile plan.rules with
  | error e =>
    rw [files] at ready
    cases ready
  | ok compiled =>
    cases dirs : Matcher.compile plan.directives with
    | error e =>
      rw [files, dirs] at ready
      cases ready
    | ok others =>
      rw [files, dirs] at ready
      obtain rfl := Except.ok.inj ready
      exact ⟨rfl, rfl⟩

/-- A plan for claims and a scope without stars can be made ready, and leads to every rule and directive. -/
theorem ofPlan_spec (sound : set.Sound) (starless : set.Starless) {scope : List String} (areSteps : AreSteps scope)
    (plainScope : '*' ∉ dirOf scope) {changed : Option (List String)} (proper : Terrain.ProperDirs (changed.getD [])) :
    ∃ dispatch, ofPlan (Plan.compile set (String.ofList (dirOf scope)) changed) = .ok dispatch ∧
      Matcher.compile (Plan.compile set (String.ofList (dirOf scope)) changed).rules = .ok dispatch.files ∧
      Matcher.compile (Plan.compile set (String.ofList (dirOf scope)) changed).directives = .ok dispatch.dirs := by
  obtain ⟨files, compiled, _⟩ := files_spec sound starless scope changed
  have distinct := Terrain.directives_nodup (Terrain.survey_ascending _ _ _)
    (Terrain.survey_tidy sound starless areSteps plainScope proper)
  obtain ⟨dirs, also, _⟩ := Matcher.lookup_spec distinct
  exact ⟨_, ofPlan_ok compiled also, compiled, also⟩

end Dispatch

/-- What a build relies on: in the directories that it walks it gets the governing rule of each file, and
for each subdirectory a directive that keeps its promise. -/
structure Guide (walked : List String → Prop) (fresh : Prop) (old new : RuleMap) (dispatch : Dispatch) : Prop where
  steps : ∀ names, walked names → AreSteps names
  file : ∀ names, walked names → ∀ name, '/' ∉ name → dispatch.ruleFor (dirOf names ++ name) = new.ruleOf names name
  sound : ∀ names, walked names → ∀ name : String, IsStep name.toList →
    (dispatch.directiveFor (dirOf (names ++ [name]))).Sound old new (names ++ [name])
  child : ∀ names, walked names → ∀ name : String, IsStep name.toList →
    dispatch.directiveFor (dirOf (names ++ [name])) = .process → walked (names ++ [name])
  fresh : fresh → ∀ names, walked names → ∀ name : String, IsStep name.toList →
    ∀ rule, dispatch.directiveFor (dirOf (names ++ [name])) ≠ .reuse rule

namespace Terrain

variable {set : RuleSet} {scope : List String} {changed : Option (List String)} {old : RuleMap}

theorem isRelevant_of_comparable {scope names : List String} (comparable : Comparable scope names) :
    isRelevant (String.ofList (dirOf scope)) (String.ofList (dirOf names)) := by
  rcases comparable with above | below
  · exact inScope_of_prefix (List.prefix_refl _) above
  · exact inScope_of_prefix below (List.prefix_refl _)

/-- A survey has what matters for its scope. -/
theorem survey_surveyed (sound : set.Sound) (starless : set.Starless) (areSteps : AreSteps scope)
    (plainScope : '*' ∉ dirOf scope) (proper : ProperDirs (changed.getD []))
    (same : ∀ names, Comparable scope names →
      ((survey set (String.ofList (dirOf scope)) changed).labelAt {} names).changed = false →
        old names = set.rulesAt names) :
    Surveyed scope old set.rulesAt (survey set (String.ofList (dirOf scope)) changed) where
  proper := sound.proper starless
  ascending := survey_ascending _ _ _
  tidy := survey_tidy sound starless areSteps plainScope proper
  rules_eq names comparable := by
    rw [rules_labelAt_survey sound, if_pos (isRelevant_of_comparable comparable)]
  same := same
  leads names held := by
    rw [labelAt_survey sound, sub?_survey_isSome, segments_dirOf areSteps]
    exact ⟨decide_eq_true held, Or.inr (Or.inr held)⟩

/-- Without a list of changed directories the root and all claims count as changed. -/
theorem changed_survey_none (sound : set.Sound) {names : List String} (comparable : Comparable scope names)
    (counts : names = [] ∨ set.rulesAt names ≠ []) :
    ((survey set (String.ofList (dirOf scope)) none).labelAt {} names).changed = true := by
  rw [labelAt_survey sound, claimIn, if_pos (isRelevant_of_comparable comparable)]
  rcases counts with rfl | ruled
  · rfl
  · obtain ⟨claim, claimed⟩ := RuleSet.claimAt_of_rulesAt ruled
    simp [claimed]

end Terrain

namespace Dispatch

variable {set : RuleSet} {scope : List String} {changed : Option (List String)} {old : RuleMap}

def Walked (set : RuleSet) (scope : List String) (changed : Option (List String)) (names : List String) : Prop :=
  scope <+: names ∧ AreSteps names ∧ Terrain.Station (Terrain.survey set (String.ofList (dirOf scope)) changed) names

/-- A plan that is ready guides a build. -/
theorem guide_spec (sound : set.Sound) (starless : set.Starless) (areSteps : AreSteps scope)
    (plainScope : '*' ∉ dirOf scope)
    (proper : Terrain.ProperDirs (changed.getD []))
    (same : ∀ names, Terrain.Comparable scope names →
      ((Terrain.survey set (String.ofList (dirOf scope)) changed).labelAt {} names).changed = false →
        old names = set.rulesAt names) : ∃ dispatch,
      ofPlan (Plan.compile set (String.ofList (dirOf scope)) changed) = .ok dispatch ∧ Walked set scope changed scope ∧
      Guide (Walked set scope changed) (changed = none) old set.rulesAt dispatch := by
  have surveyed := Terrain.survey_surveyed sound starless areSteps plainScope proper same
  obtain ⟨dispatch, ready, files, dirs⟩ := ofPlan_spec sound starless areSteps plainScope proper
  obtain ⟨_, also, _, below⟩ := files_spec sound starless scope changed
  obtain rfl := Except.ok.inj (also.symm.trans files)
  have children := fun names (walked : Walked set scope changed names) (name : String) (step : IsStep name.toList) =>
    surveyed.station_child dirs walked.1 walked.2.2 step
  refine ⟨dispatch, ready, ⟨List.prefix_refl _, areSteps, surveyed.station_scope⟩, ?_, ?_, ?_, ?_, ?_⟩
  · exact fun names walked => walked.2.1
  · intro names walked name plain
    rw [ruleFor, below names name walked.2.1 plain walked.1, RuleMap.ruleOf]
  · intro names walked name step
    obtain ⟨directive, found, promise, _⟩ := children names walked name step
    rwa [directiveFor, found]
  · intro names walked name step processed
    obtain ⟨directive, found, _, next, _⟩ := children names walked name step
    rw [directiveFor, found] at processed
    exact ⟨walked.1.trans (List.prefix_append _ _), walked.2.1.snoc step, next processed⟩
  · rintro rfl names walked name step rule reused
    obtain ⟨directive, found, _, _, clean⟩ := children names walked name step
    rw [directiveFor, found] at reused
    refine surveyed.not_clean ?_ ?_ (clean rule reused)
    · exact Terrain.changed_survey_none sound (Or.inl List.nil_prefix) (Or.inl rfl)
    · exact fun names comparable ruled => Terrain.changed_survey_none sound comparable (Or.inr ruled)

end Dispatch
end BackupAtlas
