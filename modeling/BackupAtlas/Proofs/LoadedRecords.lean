import BackupAtlas.Proofs.Records

namespace BackupAtlas

namespace RuleSet

variable {set : RuleSet}

theorem claim_unclaimed {directory : Directory} (absolute : TreePath.isAbsoluteDir directory.path)
    (unclaimed : set.directory? directory.path = none) : ∃ next, claim directory set = .ok () next ∧
      (∀ path, next.directory? path = if path = directory.path then some directory else set.directory? path) ∧
      ∀ path pattern, next.rule? path pattern = set.rule? path pattern := by
  have missing : set.get? directory.path = none := Option.map_eq_none_iff.mp unclaimed
  refine ⟨{ set with claims := set.claims.insert directory.path { directory } }, ?_,
    fun path => directory?_put set directory.path path { directory }, fun path pattern => ?_⟩
  · rw [claim_eq, if_pos absolute, Catalog.contains, show set.claims.get? directory.path = none from missing]
    rfl
  · rw [rule?_put]
    split
    · rename_i here
      rw [here, rule?, missing]
      rfl
    · rfl

/-- Directories with paths of their own can be claimed one after another. -/
theorem forM_claim (set : RuleSet) {directories : List Directory}
    (absolute : ∀ d ∈ directories, TreePath.isAbsoluteDir d.path) (distinct : directories.Pairwise (·.path ≠ ·.path))
    (fresh : ∀ d ∈ directories, set.directory? d.path = none) :
    ∃ next, directories.forM claim set = .ok () next ∧
      (∀ path directory, next.directory? path = some directory ↔
        directory ∈ directories ∧ directory.path = path ∨ set.directory? path = some directory) ∧
      ∀ path pattern, next.rule? path pattern = set.rule? path pattern := by
  induction directories generalizing set with
  | nil => exact ⟨set, rfl, by simp, fun _ _ => rfl⟩
  | cons first directories ih =>
    obtain ⟨apart, rest⟩ := List.pairwise_cons.mp distinct
    have unclaimed := fresh first List.mem_cons_self
    obtain ⟨middle, ran, claimed, sameRules⟩ := claim_unclaimed (absolute first List.mem_cons_self) unclaimed
    obtain ⟨next, others, there, rules⟩ := ih middle
      (fun d member => absolute d (List.mem_cons_of_mem _ member)) rest fun d member => by
        rw [claimed, if_neg (apart d member).symm]
        exact fresh d (List.mem_cons_of_mem _ member)
    refine ⟨next, ?_, fun path directory => ?_, fun path pattern => by rw [rules, sameRules]⟩
    · rw [List.forM, bind_eq, ran]
      exact others
    · rw [there, claimed, List.mem_cons]
      split
      · rename_i here
        subst here
        constructor
        · rintro (⟨member, same⟩ | same)
          · exact absurd same.symm (apart directory member)
          · exact Or.inl ⟨Or.inl (Option.some.inj same).symm, by rw [Option.some.inj same]⟩
        · rintro (⟨rfl | member, same⟩ | known)
          · exact Or.inr rfl
          · exact absurd same.symm (apart directory member)
          · cases unclaimed.symm.trans known
      · rename_i differs
        constructor
        · rintro (⟨member, same⟩ | known)
          · exact Or.inl ⟨Or.inr member, same⟩
          · exact Or.inr known
        · rintro (⟨rfl | member, same⟩ | known)
          · exact absurd same.symm differs
          · exact Or.inl ⟨member, same⟩
          · exact Or.inr known

/-- Adds a rule to the directory whose id it carries. -/
def addOwned (directories : List Directory) (rule : Rule) : Change Unit :=
  match pathOf? directories rule.directoryId with
  | none => throw (.orphanedRule rule.id rule.directoryId)
  | some path => addRule path rule

/-- Records are loaded by claiming all directories and then filing each rule. -/
theorem load_eq (directories : List Directory) (rules : List Rule) :
    load directories rules = (do directories.forM claim; rules.forM (addOwned directories)) := rfl

theorem addOwned_ok {directories : List Directory} {rule : Rule} {path : String} {directory : Directory}
    (found : pathOf? directories rule.directoryId = some path) (known : set.directory? path = some directory)
    (owns : directory.id = rule.directoryId) (allowed : Pattern.objection? rule.pattern = none)
    (free : set.rule? path rule.pattern = none) : ∃ next, addOwned directories rule set = .ok () next ∧
      (∀ other, next.directory? other = set.directory? other) ∧
      ∀ other pattern, next.rule? other pattern =
        if other = path ∧ pattern = rule.pattern then some rule else set.rule? other pattern := by
  obtain ⟨claim, claimed, rfl⟩ := directory?_eq_some.mp known
  rw [rule?_eq claimed] at free
  have sameRule : claim.withRule rule = { claim with rules := claim.rules.insert rule.pattern rule } := by
    rw [Claim.withRule, owns]
  refine ⟨{ set with claims := set.claims.insert path (claim.withRule rule) }, ?_, directory?_put_same claimed rfl,
    fun other pattern => ?_⟩
  · simp only [addOwned, found, addRule_eq, allowed, claimed, Catalog.contains, free]
    rfl
  · rw [rule?_put, sameRule, Catalog.get?_insert]
    by_cases here : other = path
    · subst here
      by_cases same : pattern = rule.pattern <;> simp [same, rule?_eq claimed]
    · simp [here]

/-- Rules that can be in their directories side by side can be added one after another. -/
theorem forM_addOwned (set : RuleSet) {directories : List Directory} {rules : List Rule}
    (owned : ∀ rule ∈ rules, ∃ path directory, pathOf? directories rule.directoryId = some path ∧
      set.directory? path = some directory ∧ directory.id = rule.directoryId)
    (allowed : ∀ rule ∈ rules, Pattern.objection? rule.pattern = none)
    (distinct : rules.Pairwise fun a b => ¬ (a.directoryId = b.directoryId ∧ a.pattern = b.pattern))
    (fresh : ∀ rule ∈ rules, ∀ path directory, set.directory? path = some directory →
      directory.id = rule.directoryId → set.rule? path rule.pattern = none) :
    ∃ next, rules.forM (addOwned directories) set = .ok () next ∧
      (∀ path, next.directory? path = set.directory? path) ∧
      ∀ path pattern rule, next.rule? path pattern = some rule ↔
        rule ∈ rules ∧ rule.pattern = pattern ∧ pathOf? directories rule.directoryId = some path ∨
          set.rule? path pattern = some rule := by
  induction rules generalizing set with
  | nil => exact ⟨set, rfl, fun _ => rfl, by simp⟩
  | cons first rules ih =>
    obtain ⟨apart, rest⟩ := List.pairwise_cons.mp distinct
    obtain ⟨path, directory, found, known, owns⟩ := owned first List.mem_cons_self
    have free := fresh first List.mem_cons_self path directory known owns
    obtain ⟨middle, ran, sameDirectories, added⟩ :=
      addOwned_ok found known owns (allowed first List.mem_cons_self) free
    obtain ⟨next, others, directoriesNext, there⟩ := ih middle
      (fun rule member => by
        simp only [sameDirectories]
        exact owned rule (List.mem_cons_of_mem _ member))
      (fun rule member => allowed rule (List.mem_cons_of_mem _ member)) rest
      fun rule member other directory knownOther ownsOther => by
        rw [sameDirectories] at knownOther
        rw [added, if_neg ?_]
        · exact fresh rule (List.mem_cons_of_mem _ member) other directory knownOther ownsOther
        · rintro ⟨rfl, samePattern⟩
          refine apart rule member ⟨?_, samePattern.symm⟩
          rw [← owns, ← ownsOther, Option.some.inj (knownOther.symm.trans known)]
    refine ⟨next, ?_, fun other => by rw [directoriesNext, sameDirectories], fun other pattern rule => ?_⟩
    · rw [List.forM, bind_eq, ran]
      exact others
    · rw [there, added, List.mem_cons]
      constructor
      · rintro (⟨member, same⟩ | here)
        · exact Or.inl ⟨Or.inr member, same⟩
        · split at here
          · rename_i atFirst
            obtain rfl := Option.some.inj here
            exact Or.inl ⟨Or.inl rfl, atFirst.2.symm, by rw [found, atFirst.1]⟩
          · exact Or.inr here
      · rintro (⟨rfl | member, samePattern, samePath⟩ | here)
        · right
          rw [if_pos ⟨Option.some.inj (samePath.symm.trans found), samePattern.symm⟩]
        · exact Or.inl ⟨member, samePattern, samePath⟩
        · right
          rw [if_neg ?_, here]
          rintro ⟨rfl, rfl⟩
          cases free.symm.trans here

end RuleSet

open RuleSet

namespace Recorded

variable {timed : Prop} {directories : List Directory} {rules : List Rule} {set next : RuleSet}

/-- The path of a recorded directory is found by its id. -/
theorem pathOf?_eq (recorded : Recorded timed directories rules set) {directory : Directory}
    (member : directory ∈ directories) : pathOf? directories directory.id = some directory.path := by
  rw [pathOf?]
  cases found : directories.reverse.find? (·.id == directory.id) with
  | none =>
    rw [List.find?_eq_none] at found
    exact absurd (beq_self_eq_true directory.id) (found directory (List.mem_reverse.mpr member))
  | some other =>
    have listed := List.mem_reverse.mp (List.mem_of_find?_eq_some found)
    have same : other.id = directory.id := by simpa using List.find?_some found
    rw [recorded.ids other listed directory member same]
    rfl

/-- Recorded directories have different paths. -/
theorem paths_apart (recorded : Recorded timed directories rules set) (distinct : (directories.map (·.id)).Nodup) :
    directories.Pairwise (·.path ≠ ·.path) := by
  refine List.Pairwise.imp_of_mem ?_ (List.pairwise_map.mp distinct)
  intro a b memberA memberB differs same
  have here := (recorded.claims a).mp memberA
  rw [same, (recorded.claims b).mp memberB] at here
  exact differs (congrArg Directory.id (Option.some.inj here).symm)

/-- The directory of a row. -/
theorem owner_of_row (recorded : Recorded timed directories rules set) {row : Rule} (member : row ∈ rules) :
    ∃ directory ∈ directories, directory.id = row.directoryId ∧
      ∃ rule, set.rule? directory.path row.pattern = some rule ∧ row.Alike timed rule := by
  obtain ⟨path, rule, found, same⟩ := recorded.known row member
  obtain ⟨directory, atPath, owns⟩ := recorded.owned path row.pattern rule found
  obtain rfl := recorded.sound.path_eq atPath
  exact ⟨directory, (recorded.claims directory).mpr atPath, by rw [owns, same.fields.2.1], rule, found, same⟩

/-- Recorded rules of one directory have different patterns. -/
theorem rows_apart (recorded : Recorded timed directories rules set) (distinct : (rules.map (·.id)).Nodup) :
    rules.Pairwise fun a b => ¬ (a.directoryId = b.directoryId ∧ a.pattern = b.pattern) := by
  refine List.Pairwise.imp_of_mem ?_ (List.pairwise_map.mp distinct)
  rintro a b memberA memberB differs ⟨sameDirectory, samePattern⟩
  obtain ⟨d, inD, ownsA, known, foundA, sameA⟩ := recorded.owner_of_row memberA
  obtain ⟨known', foundB, sameB⟩ :=
    recorded.rule_of_row memberB ((recorded.claims d).mp inD) (ownsA.trans sameDirectory)
  rw [← samePattern, foundA] at foundB
  obtain rfl := Option.some.inj foundB
  exact differs (by rw [sameA.fields.1, sameB.fields.1])

section

variable {loaded : RuleSet} (recorded : Recorded timed directories rules set)
variable (claims : ∀ path directory, loaded.directory? path = some directory ↔
  directory ∈ directories ∧ directory.path = path)
variable (adds : ∀ path pattern row, loaded.rule? path pattern = some row ↔
  row ∈ rules ∧ row.pattern = pattern ∧ pathOf? directories row.directoryId = some path)

include recorded

include claims in
theorem directory?_loaded (path : String) : loaded.directory? path = set.directory? path := by
  refine Option.ext fun directory => ?_
  rw [claims]
  constructor
  · rintro ⟨member, rfl⟩
    exact (recorded.claims directory).mp member
  · intro known
    obtain rfl := recorded.sound.path_eq known
    exact ⟨(recorded.claims directory).mpr known, rfl⟩

include adds in
theorem rule?_loaded (path pattern : String) :
    (loaded.rule? path pattern = none ∧ set.rule? path pattern = none) ∨ ∃ row rule,
      loaded.rule? path pattern = some row ∧ set.rule? path pattern = some rule ∧ row.Alike timed rule := by
  cases found : set.rule? path pattern with
  | some rule =>
    obtain ⟨row, member, same⟩ := recorded.stored path pattern rule found
    obtain ⟨directory, atPath, owns⟩ := recorded.owned path pattern rule found
    obtain ⟨_, sameDirectory, samePattern⟩ := same.fields
    refine Or.inr ⟨row, rule, (adds path pattern row).mpr ⟨member, ?_, ?_⟩, rfl, same⟩
    · rw [samePattern, recorded.sound.pattern_eq found]
    · have listed := recorded.mem_of_known atPath
      rw [sameDirectory, ← owns, recorded.pathOf?_eq listed, recorded.sound.path_eq atPath]
  | none =>
    cases there : loaded.rule? path pattern with
    | none => exact Or.inl ⟨rfl, rfl⟩
    | some row =>
      obtain ⟨member, rfl, atPath⟩ := (adds path pattern row).mp there
      obtain ⟨directory, inDirectories, owns, known, foundRow, _⟩ := recorded.owner_of_row member
      rw [← owns, recorded.pathOf?_eq inDirectories, Option.some.injEq] at atPath
      rw [atPath, found] at foundRow
      cases foundRow

include claims adds in
/-- A rule set that is made of the records is the same, apart from times unless these count. -/
theorem loaded_alike : loaded.untimed = set.untimed ∧ (timed → loaded = set) := by
  have sameDirectory := recorded.directory?_loaded claims
  refine ⟨ext_lookup (fun path => ?_) fun path pattern => ?_, fun counts => ext_lookup sameDirectory
    fun path pattern => ?_⟩
  · rw [directory?_untimed, directory?_untimed, sameDirectory]
  · rw [rule?_untimed, rule?_untimed]
    rcases recorded.rule?_loaded adds path pattern with ⟨here, there⟩ | ⟨row, rule, here, there, alike⟩
    · rw [here, there]
    · rw [here, there, Option.map_some, Option.map_some, alike.untimed]
  · rcases recorded.rule?_loaded adds path pattern with ⟨here, there⟩ | ⟨row, rule, here, there, alike⟩
    · rw [here, there]
    · rw [here, there, alike.2 counts]

end

/-- Loading the records of a rule set makes it again, apart from their times unless these count. -/
theorem loads (recorded : Recorded timed directories rules set) (distinct : (directories.map (·.id)).Nodup)
    (distinctRules : (rules.map (·.id)).Nodup) : ∃ loaded, ofRecords directories rules = .ok loaded ∧
      loaded.untimed = set.untimed ∧ (timed → loaded = set) := by
  obtain ⟨middle, claims, directoriesMiddle, rulesMiddle⟩ := forM_claim .empty
    (fun d member => recorded.sound.absolute ((recorded.claims d).mp member)) (recorded.paths_apart distinct)
    fun d _ => rfl
  have inMiddle : ∀ path directory, middle.directory? path = some directory ↔
      directory ∈ directories ∧ directory.path = path := fun path directory => by
    rw [directoriesMiddle]
    exact or_iff_left fun none => by cases none
  obtain ⟨loaded, added, directoriesLoaded, rulesLoaded⟩ := forM_addOwned middle
    (fun rule member => by
      obtain ⟨directory, inDirectories, owns, _⟩ := recorded.owner_of_row member
      exact ⟨directory.path, directory, owns ▸ recorded.pathOf?_eq inDirectories,
        (inMiddle _ _).mpr ⟨inDirectories, rfl⟩, owns⟩)
    (fun rule member => by
      obtain ⟨directory, _, _, known, found, same⟩ := recorded.owner_of_row member
      exact recorded.sound.allowed found)
    (recorded.rows_apart distinctRules) fun rule _ path _ _ _ => rulesMiddle path rule.pattern
  have noRules : ∀ path pattern, middle.rule? path pattern = none := fun path pattern => rulesMiddle path pattern
  refine ⟨loaded, ?_, recorded.loaded_alike (fun path directory => ?_) fun path pattern row => ?_⟩
  · rw [ofRecords, load_eq, bind_eq, claims]
    simp only [added]
  · rw [directoriesLoaded, inMiddle]
  · rw [rulesLoaded, noRules]
    exact or_iff_left fun none => by cases none

/-- Directories that can be claimed one after another are those of the rule set. -/
theorem claimAll {done rest : List Directory} (recorded : Recorded timed done [] set)
    (ran : rest.forM RuleSet.claim set = .ok () next) (fresh : ∀ d ∈ rest, ∀ e ∈ done, e.id ≠ d.id)
    (distinct : rest.Pairwise (·.id ≠ ·.id)) (all : ∀ d, d ∈ directories ↔ d ∈ done ∨ d ∈ rest) :
    Recorded timed directories [] next := by
  induction rest generalizing done set with
  | nil =>
    obtain ⟨_, rfl⟩ := EStateM.Result.ok.inj ran
    exact recorded.congr (fun d => by simp [all]) fun _ => Iff.rfl
  | cons d rest ih =>
    rw [List.forM, bind_eq] at ran
    split at ran
    · rename_i middle claimed
      obtain ⟨apart, later⟩ := List.pairwise_cons.mp distinct
      have here : Recorded timed (d :: done) [] middle :=
        recorded.afterClaim claimed (fun e => List.mem_cons) (fresh d List.mem_cons_self)
      refine ih here ran (fun next member e old => ?_) later fun e => ?_
      · rcases List.mem_cons.mp old with rfl | old
        · exact apart next member
        · exact fresh next (List.mem_cons_of_mem _ member) e old
      · rw [all, List.mem_cons, List.mem_cons]
        exact or_left_comm.trans or_assoc.symm
    · cases ran

/-- Rules that can be added one after another are those of the rule set. -/
theorem addAll {done rest : List Rule} (recorded : Recorded timed directories done set)
    (ran : rest.forM (addOwned directories) set = .ok () next) (fresh : ∀ r ∈ rest, ∀ s ∈ done, s.id ≠ r.id)
    (distinct : rest.Pairwise (·.id ≠ ·.id)) (all : ∀ r, r ∈ rules ↔ r ∈ done ∨ r ∈ rest) :
    Recorded timed directories rules next := by
  induction rest generalizing done set with
  | nil =>
    obtain ⟨_, rfl⟩ := EStateM.Result.ok.inj ran
    exact recorded.congr (fun _ => Iff.rfl) fun r => by simp [all]
  | cons rule rest ih =>
    rw [List.forM, bind_eq] at ran
    split at ran
    · rename_i middle added
      obtain ⟨apart, later⟩ := List.pairwise_cons.mp distinct
      have here : Recorded timed directories (rule :: done) middle := by
        rw [addOwned] at added
        cases known : pathOf? directories rule.directoryId with
        | none =>
          rw [known] at added
          cases added
        | some path =>
          rw [known] at added
          rw [pathOf?, Option.map_eq_some_iff] at known
          obtain ⟨owner, found, rfl⟩ := known
          have member := List.mem_reverse.mp (List.mem_of_find?_eq_some found)
          have owns : owner.id = rule.directoryId := by simpa using List.find?_some found
          exact (recorded.afterAddRule added ((recorded.claims owner).mp member) owns (.refl timed rule)
            (fun s => List.mem_cons) (fresh rule List.mem_cons_self)).1
      refine ih here ran (fun next member s old => ?_) later fun s => ?_
      · rcases List.mem_cons.mp old with rfl | old
        · exact apart next member
        · exact fresh next (List.mem_cons_of_mem _ member) s old
      · rw [all, List.mem_cons, List.mem_cons]
        exact or_left_comm.trans or_assoc.symm
    · cases ran

/-- Records that can be loaded are those of the rule set that they make. -/
theorem of_ofRecords (distinct : directories.Pairwise (·.id ≠ ·.id)) (distinctRules : rules.Pairwise (·.id ≠ ·.id))
    (read : ofRecords directories rules = .ok set) : Recorded timed directories rules set := by
  rw [ofRecords, load_eq, bind_eq] at read
  split at read
  · rename_i loaded ran
    obtain rfl := Except.ok.inj read
    split at ran
    · rename_i middle claims
      have claimed : Recorded timed directories [] middle :=
        Recorded.empty.claimAll claims (fun _ _ e none => absurd none List.not_mem_nil) distinct fun d => by simp
      exact claimed.addAll ran (fun _ _ s none => absurd none List.not_mem_nil) distinctRules fun r => by simp
    · cases ran
  · cases read

end Recorded
end BackupAtlas
