import BackupAtlas.Proofs.DeepestClaim

namespace BackupAtlas

open TreePath

namespace Dispatch

variable {set : RuleSet}

/-- A rule that is found for a path covers it. Paths outside the scope are no exception. -/
theorem covers_of_lookup (sound : set.Sound) (starless : set.Starless) {scope : String}
    {changed : Option (List String)} {files : Matcher Nat}
    (compiled : Matcher.compile (Plan.compile set scope changed).rules = .ok files) {path : List Char} {id : Nat}
    (found : files.lookup path = some id) : ∃ dir rule, set.Covers dir rule path ∧ rule.id = id := by
  have lists := Plan.lists sound starless scope changed
  obtain ⟨ready, also, answers⟩ := Matcher.lookup_spec lists.distinct
  obtain rfl := Except.ok.inj (also.symm.trans compiled)
  rcases answers path with ⟨failed, _⟩ | ⟨text, value, known, listed, decides⟩
  · rw [failed] at found
    exact absurd found (by simp)
  · obtain rfl := Option.some.inj (known.symm.trans found)
    obtain ⟨names, pattern, _, member, rfl⟩ := (lists.mem_iff _ _).mp listed
    obtain ⟨rule, same, _, covers⟩ := RuleSet.covers_of_matches sound starless member decides.fits
    exact ⟨_, rule, covers, same⟩

/-- A plan for claims without stars can be made ready if directories without stars have changed, and whatever has
changed, every rule that it finds belongs to a claimed directory in front of the path. -/
theorem ruleFor_confined (reached : set.Reached) (starless : set.Starless) {scope : String}
    (absolute : isAbsoluteDir scope) (plainScope : '*' ∉ scope.toList) (changed : Option (List String)) :
    (Terrain.ProperDirs (changed.getD []) → ∃ dispatch, ofPlan (Plan.compile set scope changed) = .ok dispatch) ∧
    ∀ dispatch, ofPlan (Plan.compile set scope changed) = .ok dispatch → ∀ path, dispatch.ruleFor path ≠ 0 →
      ∃ dir claim rule, set.get? dir = some claim ∧ dir.toList <+: path ∧
        claim.rules.get? rule.pattern = some rule ∧ rule.id = dispatch.ruleFor path := by
  have sound := reached.sound
  refine ⟨fun proper => ?_, fun dispatch ready path governed => ?_⟩
  · obtain ⟨names, areSteps, rfl⟩ := exists_dirOf_of_isAbsoluteDir absolute
    rw [String.toList_ofList] at plainScope
    obtain ⟨dispatch, ready, _⟩ := ofPlan_spec sound starless areSteps plainScope proper
    exact ⟨dispatch, ready⟩
  · cases found : dispatch.files.lookup path with
    | none =>
      rw [ruleFor, found] at governed
      exact absurd rfl governed
    | some id =>
      obtain ⟨dir, rule, covers, same⟩ := covers_of_lookup sound starless (compiled_of_ofPlan ready).1 found
      obtain ⟨claim, claimed, listed⟩ := covers.claimed
      exact ⟨dir, claim, rule, claimed, covers.held, listed, by rw [ruleFor, found, same]; rfl⟩

/-- A plan for one directory that is claimed inside another one. -/
theorem ruleFor_confined_nested_claims : ∃ set,
    RuleSet.ofRecords [{ id := 1, path := "/a/" }, { id := 2, path := "/a/b/" }]
      [{ id := 1, directoryId := 1, pattern := "b*" }, { id := 2, directoryId := 2, pattern := "*.txt" }] = .ok set ∧
    set.Reached ∧ set.Starless ∧ isAbsoluteDir "/a/" ∧ '*' ∉ "/a/".toList ∧
    Terrain.ProperDirs ((some ["/a/b/"]).getD []) ∧ ∃ dispatch,
      ofPlan (Plan.compile set "/a/" (some ["/a/b/"])) = .ok dispatch ∧ dispatch.ruleFor "/a/b/c.txt".toList = 2 ∧
      ∃ dir claim rule, set.get? dir = some claim ∧ dir.toList <+: "/a/b/c.txt".toList ∧
        claim.rules.get? rule.pattern = some rule ∧ rule.id = 2 := by
  have known : (RuleSet.ofRecords [{ id := 1, path := "/a/" }, { id := 2, path := "/a/b/" }]
      [{ id := 1, directoryId := 1, pattern := "b*" }, { id := 2, directoryId := 2, pattern := "*.txt" }]).toOption.map
      (fun set => (set.claims.names, (ofPlan (Plan.compile set "/a/" (some ["/a/b/"]))).toOption.map fun dispatch =>
        dispatch.files.top.search "/a/b/c.txt".toList)) = some (["/a/", "/a/b/"], some (some 2)) := by decide +kernel
  obtain ⟨set, loaded, reached, starless, answers⟩ := RuleSet.exists_ofRecords known (by decide +kernel)
  have proper : Terrain.ProperDirs ((some ["/a/b/"]).getD []) := by
    simp only [Terrain.ProperDirs, Option.getD_some, List.mem_singleton, forall_eq]
    decide +kernel
  obtain ⟨compiles, confined⟩ := ruleFor_confined reached starless (show isAbsoluteDir "/a/" by decide +kernel)
    (by decide +kernel) (some ["/a/b/"])
  obtain ⟨dispatch, ready⟩ := compiles proper
  have searched := map_eq_of_ok ready answers
  have governed : dispatch.ruleFor "/a/b/c.txt".toList = 2 := ruleFor_of_search searched
  refine ⟨set, loaded, reached, starless, by decide +kernel, by decide +kernel, proper, dispatch, ready, governed, ?_⟩
  have found := confined dispatch ready "/a/b/c.txt".toList (by rw [governed]; decide)
  rwa [governed] at found

/-- A claimed path with a star meets the pattern for subdirectories, so that no plan can be made ready, or it is
taken for a pattern, so that its rules govern files of other directories. -/
theorem starred_claims_stray :
    (∃ set, (RuleSet.Edit.claim { path := "/*/" }).run .empty = .ok () set ∧ set.Reached ∧
      Dispatch.all set = .error (.patternConflict "/*/")) ∧
    ∃ set, RuleSet.ofRecords [{ id := 1, path := "/a*/" }] [{ id := 7, directoryId := 1, pattern := "x" }] = .ok set ∧
      set.Reached ∧ (∃ all, Dispatch.all set = .ok all ∧ all.ruleFor "/ab/x".toList = 7) ∧
      ∀ dir claim, set.get? dir = some claim → ¬ dir.toList <+: "/ab/x".toList := by
  constructor
  · cases ran : (RuleSet.Edit.claim { path := "/*/" }).run .empty with
    | error e set =>
      have known : (match (RuleSet.Edit.claim { path := "/*/" }).run .empty with
        | .ok _ _ => true
        | .error _ _ => false) = true := by decide +kernel
      simp [ran] at known
    | ok done set =>
      have known : (match (RuleSet.Edit.claim { path := "/*/" }).run .empty with
        | .ok _ set => Dispatch.all set
        | .error e _ => .error e) = .error (.patternConflict "/*/") := by decide +kernel
      rw [ran] at known
      exact ⟨set, rfl, .step _ .empty ran, known⟩
  · have known : (RuleSet.ofRecords [{ id := 1, path := "/a*/" }]
        [{ id := 7, directoryId := 1, pattern := "x" }]).toOption.map (fun set => (set.claims.names,
          (Dispatch.all set).toOption.map fun all => all.files.top.search "/ab/x".toList)) =
        some (["/a*/"], some (some 7)) := by decide +kernel
    obtain ⟨set, loaded, found⟩ := exists_ok_of_map known
    obtain ⟨names, answers⟩ := Prod.mk.inj found
    obtain ⟨all, ready, strays⟩ := exists_ok_of_map answers
    refine ⟨set, loaded, RuleSet.ofRecords_reached loaded, ⟨all, ready, ruleFor_of_search strays⟩,
      fun dir claim claimed => ?_⟩
    have member : dir ∈ set.claims.names := List.mem_map_of_mem (Catalog.get?_eq_some.mp claimed)
    rw [names, List.mem_singleton] at member
    subst member
    decide +kernel

end Dispatch
end BackupAtlas
