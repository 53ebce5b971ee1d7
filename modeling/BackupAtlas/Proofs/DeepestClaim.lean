import BackupAtlas.Proofs.Plans

namespace BackupAtlas

open TreePath

/-- The length of a pattern before its first star. -/
def Rule.reach (rule : Rule) : Nat := (rule.pattern.toList.takeWhile (· != '*')).length

namespace RuleSet

/-- A rule of the claimed directory `dir`, which is in front of the path of a file, matches that file. -/
structure Covers (set : RuleSet) (dir : String) (rule : Rule) (file : List Char) : Prop where
  claimed : ∃ claim, set.get? dir = some claim ∧ claim.rules.get? rule.pattern = some rule
  held : dir.toList <+: file
  fits : Matches ((dir.toList ++ rule.pattern.toList).map .ofChar) file

variable {set : RuleSet}

/-- The directory of a rule that covers something, by names. -/
theorem Covers.exists_names (sound : set.Sound) {dir : String} {rule : Rule} {file : List Char}
    (covers : set.Covers dir rule file) : ∃ names, dir = String.ofList (dirOf names) ∧
      (rule.pattern.toList, rule.id) ∈ set.rulesAt names := by
  obtain ⟨claim, claimed, listed⟩ := covers.claimed
  obtain ⟨names, areSteps, rfl⟩ := sound.exists_names claimed
  refine ⟨names, rfl, mem_rulesAt.mpr ⟨claim, rule, sound.claimAt_eq_some.mpr ⟨areSteps, claimed⟩, ?_, rfl⟩⟩
  rwa [String.ofList_toList]

/-- A pattern of a directory that matches a file below it is one of a rule that covers the file. -/
theorem covers_of_matches (sound : set.Sound) (starless : set.Starless) {names : List String} {pattern file : List Char}
    {id : Nat} (member : (pattern, id) ∈ set.rulesAt names)
    (fits : Matches ((dirOf names ++ pattern).map .ofChar) file) :
    ∃ rule : Rule, rule.id = id ∧ rule.pattern.toList = pattern ∧
    set.Covers (String.ofList (dirOf names)) rule file := by
  obtain ⟨claim, rule, claimed, listed, same⟩ := mem_rulesAt.mp member
  obtain ⟨_, claimed⟩ := sound.claimAt_eq_some.mp claimed
  have equal := (sound _ _ claimed).pattern_eq _ _ listed
  obtain ⟨rest, rfl, _⟩ := ((sound.proper starless).matches_iff member).mp fits
  refine ⟨rule, same, by rw [equal, String.toList_ofList], ⟨claim, claimed, by rw [equal, listed]⟩, ?_, ?_⟩
  · rw [String.toList_ofList]
    exact List.prefix_append _ _
  · rwa [equal, String.toList_ofList, String.toList_ofList]

end RuleSet

namespace Dispatch

variable {set : RuleSet}

/-- What a plan for all claims says of a file: the rule that decides among those that cover it. -/
theorem all_spec (sound : set.Sound) (starless : set.Starless) : ∃ all, Dispatch.all set = .ok all ∧ ∀ file,
    (all.ruleFor file = 0 ∧ ∀ dir rule, ¬ set.Covers dir rule file) ∨
    ∃ names rule, set.Covers (String.ofList (dirOf names)) rule file ∧ all.ruleFor file = rule.id ∧
      (rule.pattern.toList, rule.id) ∈ set.rulesAt names ∧
      Decides ((dirOf names ++ rule.pattern.toList).map .ofChar) (Matcher.isListed (Plan.compile set "/" none).rules)
        file := by
  obtain ⟨all, ready, compiled, _⟩ := ofPlan_spec sound starless areSteps_nil (by simp) Terrain.properDirs_none
  rw [ofList_dirOf_nil] at ready compiled
  have lists := Plan.lists sound starless "/" none
  obtain ⟨files, also, answers⟩ := Matcher.lookup_spec lists.distinct
  obtain rfl := Except.ok.inj (also.symm.trans compiled)
  refine ⟨all, ready, fun file => ?_⟩
  rw [ruleFor]
  rcases answers file with ⟨failed, nowhere⟩ | ⟨text, id, found, listed, decides⟩
  · refine Or.inl ⟨by rw [failed]; rfl, fun dir rule covers => ?_⟩
    obtain ⟨names, rfl, member⟩ := covers.exists_names sound
    have fits := covers.fits
    rw [String.toList_ofList] at fits
    exact nowhere _ ((lists.mem_iff _ _).mpr ⟨names, _, Terrain.inScope_root names, member, rfl⟩) fits
  · obtain ⟨names, pattern, _, member, rfl⟩ := (lists.mem_iff _ _).mp listed
    obtain ⟨rule, rfl, rfl, covers⟩ := RuleSet.covers_of_matches sound starless member decides.fits
    exact Or.inr ⟨names, rule, covers, by rw [found]; rfl, member, decides⟩

/-- Of the rules that cover a file the one that decides has the deepest directory, in it the longest
start, and a rule without stars goes before all others. -/
theorem deepest (sound : set.Sound) (starless : set.Starless) {names : List String} {rule : Rule} {file : List Char}
    (member : (rule.pattern.toList, rule.id) ∈ set.rulesAt names)
    (decides : Decides ((dirOf names ++ rule.pattern.toList).map .ofChar)
      (Matcher.isListed (Plan.compile set "/" none).rules) file)
    {dir : String} {other : Rule} (covers : set.Covers dir other file) :
    dir.toList <+: dirOf names ∧
      (dir = String.ofList (dirOf names) → other.reach ≤ rule.reach) ∧
      ('*' ∉ other.pattern.toList → dir = String.ofList (dirOf names) ∧ other.pattern = rule.pattern) := by
  have proper := sound.proper starless
  have lists := Plan.lists sound starless "/" none
  obtain ⟨above, rfl, also⟩ := covers.exists_names sound
  have listed := (lists.mem_iff _ _).mpr ⟨above, _, Terrain.inScope_root above, also, rfl⟩
  have fits := covers.fits
  rw [String.toList_ofList] at fits
  have held := proper.deepest also member decides listed fits
  refine ⟨?_, ?_, ?_⟩
  · obtain ⟨more, rfl⟩ := held
    rw [String.toList_ofList, dirOf_append]
    exact List.prefix_append _ _
  · intro same
    obtain rfl := dirOf_inj (proper.steps _ (List.ne_nil_of_mem also)) (proper.steps _ (List.ne_nil_of_mem member))
      (String.ofList_injective same)
    have longer := decides.literalHead_le ⟨_, listed, rfl⟩ fits
    have plain := Symbol.map_ofChar (proper.starless above (List.ne_nil_of_mem member))
    rw [List.map_append, List.map_append, plain, literalHead_literals_append, literalHead_literals_append,
      literalHead_ofChar, literalHead_ofChar, List.length_append, List.length_append] at longer
    exact Nat.le_of_add_le_add_left longer
  · intro exact
    have plain : '*' ∉ dirOf above ++ other.pattern.toList := fun star => (List.mem_append.mp star).elim
      (proper.starless above (List.ne_nil_of_mem also)) exact
    have literal := Symbol.map_ofChar plain
    rw [literal, matches_literals] at fits
    subst fits
    have equal := decides.unique (Decides.of_literals ⟨_, listed, literal.symm⟩)
    rw [← literal] at equal
    have texts := (List.map_inj_right fun _ _ => @Symbol.ofChar_injective _ _).mp equal
    obtain ⟨rfl, patterns⟩ := dirOf_append_inj (proper.steps _ (List.ne_nil_of_mem member))
      (proper.steps _ (List.ne_nil_of_mem also)) (proper.plain _ _ member) (proper.plain _ _ also) texts
    exact ⟨rfl, (String.toList_inj.mp patterns).symm⟩

/-- Plans for scopes that hold a file agree on it. -/
theorem ruleFor_scope (sound : set.Sound) (starless : set.Starless) {all : Dispatch}
    (ready : Dispatch.all set = .ok all)
    {scope : String} (absolute : isAbsoluteDir scope) (changed : Option (List String)) : ∃ files,
      Matcher.compile (Plan.compile set scope changed).rules = .ok files ∧
      ∀ file, scope.toList <+: file → (files.lookup file).getD 0 = all.ruleFor file := by
  obtain ⟨names, areSteps, rfl⟩ := exists_dirOf_of_isAbsoluteDir absolute
  obtain ⟨files, compiled, _, below⟩ := files_spec sound starless names changed
  obtain ⟨whole, also, _, everywhere⟩ := files_spec sound starless [] none
  obtain ⟨_, made, same, _⟩ := ofPlan_spec sound starless areSteps_nil (by simp) Terrain.properDirs_none
  rw [ofList_dirOf_nil] at also made same
  obtain rfl := Except.ok.inj (made.symm.trans ready)
  obtain rfl := Except.ok.inj (also.symm.trans same)
  refine ⟨files, compiled, fun file held => ?_⟩
  rw [String.toList_ofList] at held
  have head : file.head? = some '/' := by
    obtain ⟨more, rfl⟩ := held
    rfl
  obtain ⟨steps, rest, areSteps', plain, rfl⟩ := exists_dirOf head
  have inside := (dirOf_prefix_iff areSteps areSteps' plain).mp held
  rw [ruleFor, below steps rest areSteps' plain inside, everywhere steps rest areSteps' plain List.nil_prefix]

/-- The rule of a file is 0 if no rule covers it. Else it is one that covers it, of the deepest claimed
directory with such a rule, and there with the longest start; a rule that names the file goes before all
others. Every plan for a scope that holds the file says the same, and can be made ready if the directories
that have changed are absolute and without stars. -/
theorem ruleFor_deepest (reached : set.Reached) (starless : set.Starless) : ∃ all, Dispatch.all set = .ok all ∧ ∀ file,
    ((∀ dir rule, ¬ set.Covers dir rule file) → all.ruleFor file = 0) ∧
    ((∃ dir rule, set.Covers dir rule file) → ∃ dir rule, set.Covers dir rule file ∧ all.ruleFor file = rule.id ∧
      ∀ above other, set.Covers above other file →
        above.toList <+: dir.toList ∧ (above = dir → other.reach ≤ rule.reach) ∧
        ('*' ∉ other.pattern.toList → above = dir ∧ other.pattern = rule.pattern)) ∧
    ∀ scope, isAbsoluteDir scope → '*' ∉ scope.toList → scope.toList <+: file → ∀ changed,
      (∃ files, Matcher.compile (Plan.compile set scope changed).rules = .ok files ∧
        (files.lookup file).getD 0 = all.ruleFor file) ∧
      (∀ dispatch, ofPlan (Plan.compile set scope changed) = .ok dispatch → dispatch.ruleFor file = all.ruleFor file) ∧
      (Terrain.ProperDirs (changed.getD []) → ∃ dispatch, ofPlan (Plan.compile set scope changed) = .ok dispatch) := by
  have sound := reached.sound
  obtain ⟨all, ready, spec⟩ := all_spec sound starless
  refine ⟨all, ready, fun file => ⟨fun nothing => ?_, ?_, ?_⟩⟩
  · rcases spec file with ⟨zero, _⟩ | ⟨names, rule, covers, _⟩
    · exact zero
    · exact absurd covers (nothing _ _)
  · rintro ⟨dir, rule, covers⟩
    rcases spec file with ⟨_, nothing⟩ | ⟨names, rule, covers, found, member, decides⟩
    · exact absurd covers (nothing dir rule)
    · refine ⟨_, rule, covers, found, fun above other also => ?_⟩
      rw [String.toList_ofList]
      exact deepest sound starless member decides also
  · intro scope absolute plain held changed
    obtain ⟨files, compiled, agree⟩ := ruleFor_scope sound starless ready absolute changed
    refine ⟨⟨files, compiled, agree file held⟩, fun dispatch made => ?_, fun proper => ?_⟩
    · obtain rfl := Except.ok.inj (compiled.symm.trans (compiled_of_ofPlan made).1)
      rw [ruleFor, agree file held]
    · obtain ⟨names, areSteps, rfl⟩ := exists_dirOf_of_isAbsoluteDir absolute
      obtain ⟨dispatch, made, _⟩ := ofPlan_spec sound starless areSteps (by rwa [String.toList_ofList] at plain) proper
      exact ⟨dispatch, made⟩

/-- A claim inside another one decides for the files that its rules match, and the outer one for the rest. -/
theorem ruleFor_deepest_nested_claims :
    ∃ set, RuleSet.ofRecords [{ id := 1, path := "/a/" }, { id := 2, path := "/a/b/" }]
      [{ id := 1, directoryId := 1, pattern := "*" }, { id := 2, directoryId := 2, pattern := "*.txt" }] = .ok set ∧
    set.Reached ∧ set.Starless ∧ ∃ all, Dispatch.all set = .ok all ∧
      all.ruleFor "/a/b/c.txt".toList = 2 ∧ all.ruleFor "/a/b/c".toList = 1 ∧ all.ruleFor "/b/c.txt".toList = 0 := by
  have known : (RuleSet.ofRecords [{ id := 1, path := "/a/" }, { id := 2, path := "/a/b/" }]
      [{ id := 1, directoryId := 1, pattern := "*" }, { id := 2, directoryId := 2, pattern := "*.txt" }]).toOption.map
      (fun set => (set.claims.names, (Dispatch.all set).toOption.map fun all =>
        (all.files.top.search "/a/b/c.txt".toList, all.files.top.search "/a/b/c".toList,
          all.files.top.search "/b/c.txt".toList))) =
      some (["/a/", "/a/b/"], some (some 2, some 1, none)) := by decide +kernel
  obtain ⟨set, loaded, reached, starless, answers⟩ := RuleSet.exists_ofRecords known (by decide +kernel)
  obtain ⟨all, ready, _⟩ := ruleFor_deepest reached starless
  have found := map_eq_of_ok ready answers
  rw [Prod.mk.injEq, Prod.mk.injEq] at found
  refine ⟨set, loaded, reached, starless, all, ready, ruleFor_of_search found.1, ruleFor_of_search found.2.1, ?_⟩
  rw [ruleFor, Matcher.lookup_eq_search, found.2.2, Option.getD_none]

/-- A star in the name of a changed directory meets the pattern for subdirectories: such a plan cannot be
made ready, so it has no answer for any file. -/
theorem starred_change_conflicts : ∃ set, RuleSet.ofRecords [{ id := 1, path := "/a/" }]
      [{ id := 1, directoryId := 1, pattern := "x" }] = .ok set ∧ set.Reached ∧ set.Starless ∧
    (isAbsoluteDir "/" ∧ '*' ∉ "/".toList ∧ "/".toList <+: "/a/x".toList) ∧
    (∃ all, Dispatch.all set = .ok all ∧ all.ruleFor "/a/x".toList = 1) ∧
    ofPlan (Plan.compile set "/" (some ["/a/*/"])) = .error (.patternConflict "/a/*/") := by
  have known : (RuleSet.ofRecords [{ id := 1, path := "/a/" }]
      [{ id := 1, directoryId := 1, pattern := "x" }]).toOption.map
      (fun set => (set.claims.names, ofPlan (Plan.compile set "/" (some ["/a/*/"])),
        (Dispatch.all set).toOption.map fun all => all.files.top.search "/a/x".toList)) =
      some (["/a/"], .error (.patternConflict "/a/*/"), some (some 1)) := by decide +kernel
  obtain ⟨set, loaded, reached, starless, found⟩ := RuleSet.exists_ofRecords known (by decide +kernel)
  obtain ⟨conflict, answers⟩ := Prod.mk.inj found
  obtain ⟨all, ready, rule⟩ := exists_ok_of_map answers
  exact ⟨set, loaded, reached, starless, by decide +kernel, ⟨all, ready, ruleFor_of_search rule⟩, conflict⟩

end Dispatch
end BackupAtlas
