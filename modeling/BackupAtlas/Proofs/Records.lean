import BackupAtlas.Proofs.RuleSets

namespace BackupAtlas

namespace Catalog

variable {α β : Type}

theorem get?_map (f : α → β) (c : Catalog α) (name : String) : (c.map f).get? name = (c.get? name).map f := by
  obtain ⟨entries, ascending⟩ := c
  change Entries.get? name (Entries.map (fun _ => f) entries) = (Entries.get? name entries).map f
  clear ascending
  induction entries with
  | nil => rfl
  | cons entry entries ih =>
    change (if name = entry.1 then some (f entry.2) else Entries.get? name (Entries.map (fun _ => f) entries)) = _
    rw [Entries.get?, ih]
    split <;> rfl

/-- Catalogs in which the same is found are the same. -/
theorem ext_get? {a b : Catalog α} (same : ∀ name, a.get? name = b.get? name) : a = b := by
  have entries : ∀ entry, entry ∈ a.entries ↔ entry ∈ b.entries := fun entry => by
    rw [← get?_eq_some, ← get?_eq_some, same]
  have distinct : ∀ c : Catalog α, c.entries.Nodup := fun c =>
    List.Pairwise.imp (fun {first second} less equal => by
      subst equal
      exact String.lt_irrefl first.1 less) c.ascending
  refine ext (List.Perm.eq_of_pairwise (fun first second _ _ less more => ?_) a.ascending b.ascending
    ((List.perm_ext_iff_of_nodup (distinct a) (distinct b)).mpr entries))
  exact absurd more (String.lt_asymm less)

end Catalog

def Directory.untimed (directory : Directory) : Directory := { directory with created := 0, modified := 0 }

def Rule.untimed (rule : Rule) : Rule := { rule with created := 0, modified := 0 }

/-- A rule apart from the time of its last change. -/
def Rule.undated (rule : Rule) : Rule := { rule with modified := 0 }

def Claim.untimed (claim : Claim) : Claim := ⟨claim.directory.untimed, claim.rules.map Rule.untimed⟩

def RuleSet.untimed (set : RuleSet) : RuleSet := ⟨set.claims.map Claim.untimed⟩

/-- The rule with this id gets another time of its last change. -/
def Rule.redated (id : Nat) (time : Int) (rule : Rule) : Rule :=
  if rule.id = id then { rule with modified := time } else rule

theorem Rule.redated_id (id : Nat) (time : Int) (rule : Rule) : (rule.redated id time).id = rule.id := by
  rw [redated]
  split <;> rfl

theorem Rule.redated_undated (id : Nat) (time : Int) (rule : Rule) : (rule.redated id time).undated = rule.undated := by
  rw [redated]
  split <;> rfl

/-- Records of a rule are alike when they differ in the time of the last change at most, and not in this if times
count. -/
def Rule.Alike (timed : Prop) (rule other : Rule) : Prop := rule.undated = other.undated ∧ (timed → rule = other)

theorem Rule.Alike.refl (timed : Prop) (rule : Rule) : rule.Alike timed rule := ⟨rfl, fun _ => rfl⟩

/-- Records that are alike differ in their times at most. -/
theorem Rule.Alike.fields {timed : Prop} {rule other : Rule} (alike : rule.Alike timed other) :
    rule.id = other.id ∧ rule.directoryId = other.directoryId ∧ rule.pattern = other.pattern := by
  have same := alike.1
  simp only [undated, Rule.mk.injEq] at same
  exact ⟨same.1, same.2.1, same.2.2.2.2.2.2.1⟩

theorem Rule.Alike.created {timed : Prop} {rule other : Rule} (alike : rule.Alike timed other) :
    rule.created = other.created :=
  show rule.undated.created = other.undated.created from congrArg _ alike.1

theorem Rule.Alike.untimed {timed : Prop} {rule other : Rule} (alike : rule.Alike timed other) :
    rule.untimed = other.untimed :=
  show rule.undated.untimed = other.undated.untimed from congrArg _ alike.1

/-- Records that are alike are the same once they have the same time of the last change. -/
theorem Rule.Alike.dated {timed : Prop} {rule other : Rule} (alike : rule.Alike timed other) (time : Int) :
    { rule with modified := time } = { other with modified := time } :=
  show { rule.undated with modified := time } = { other.undated with modified := time } by rw [alike.1]

namespace RuleSet

variable {set next : RuleSet} {path : String} {claim : Claim}

def directory? (set : RuleSet) (path : String) : Option Directory := (set.get? path).map (·.directory)

def rule? (set : RuleSet) (path pattern : String) : Option Rule := (set.get? path).bind (·.rules.get? pattern)

theorem directory?_eq (claimed : set.get? path = some claim) : set.directory? path = some claim.directory := by
  rw [directory?, claimed]
  rfl

theorem rule?_eq (claimed : set.get? path = some claim) (pattern : String) :
    set.rule? path pattern = claim.rules.get? pattern := by
  rw [rule?, claimed]
  rfl

/-- A directory is there if it is claimed. -/
theorem directory?_eq_some {directory : Directory} : set.directory? path = some directory ↔
    ∃ claim, set.get? path = some claim ∧ claim.directory = directory := Option.map_eq_some_iff

/-- A rule is there if its directory is claimed and it is listed there. -/
theorem rule?_eq_some {pattern : String} {rule : Rule} : set.rule? path pattern = some rule ↔
    ∃ claim, set.get? path = some claim ∧ claim.rules.get? pattern = some rule := Option.bind_eq_some_iff

/-- Directories are kept under their own paths. -/
theorem Sound.path_eq (sound : set.Sound) {directory : Directory} (known : set.directory? path = some directory) :
    directory.path = path := by
  obtain ⟨claim, claimed, rfl⟩ := directory?_eq_some.mp known
  exact (sound path claim claimed).path_eq

/-- Rules are kept under their own patterns. -/
theorem Sound.pattern_eq (sound : set.Sound) {pattern : String} {rule : Rule}
    (known : set.rule? path pattern = some rule) : rule.pattern = pattern := by
  obtain ⟨claim, claimed, found⟩ := rule?_eq_some.mp known
  exact (sound path claim claimed).pattern_eq pattern rule found

theorem Sound.allowed (sound : set.Sound) {pattern : String} {rule : Rule}
    (known : set.rule? path pattern = some rule) : Pattern.objection? pattern = none := by
  obtain ⟨claim, claimed, found⟩ := rule?_eq_some.mp known
  exact (sound path claim claimed).allowed pattern rule found

theorem Sound.absolute (sound : set.Sound) {directory : Directory} (known : set.directory? path = some directory) :
    TreePath.isAbsoluteDir path := by
  obtain ⟨claim, claimed, rfl⟩ := directory?_eq_some.mp known
  exact (sound path claim claimed).absolute

/-- A rule that is listed under an id has that id. -/
theorem Sound.rule?_of_find? (sound : set.Sound) (claimed : set.get? path = some claim) {id : Nat} {rule : Rule}
    (listed : claim.rules.values.find? (·.id == id) = some rule) :
    set.rule? path rule.pattern = some rule ∧ rule.id = id := by
  obtain ⟨⟨key, value⟩, entry, same⟩ := List.mem_map.mp (List.mem_of_find?_eq_some listed)
  obtain rfl : value = rule := same
  have known : set.rule? path key = some value := by rw [rule?_eq claimed, Catalog.get?_eq_some.mpr entry]
  exact ⟨by rwa [sound.pattern_eq known], by simpa using List.find?_some listed⟩

theorem updateRule_admitted {rule previous : Rule} (claimed : set.get? path = some claim)
    (allowed : Pattern.objection? rule.pattern = none)
    (listed : claim.rules.values.find? (·.id == rule.id) = some previous)
    (free : ¬ (rule.pattern ≠ previous.pattern ∧ claim.rules.contains rule.pattern)) :
    ∃ next, updateRule path rule set = .ok previous next := by
  rw [Catalog.values, List.find?_map, Option.map_eq_some_iff] at listed
  obtain ⟨⟨key, value⟩, found, same⟩ := listed
  obtain rfl : value = previous := same
  have entry : claim.rules.entries.find? (fun entry => entry.2.id == rule.id) = some (key, value) := found
  rw [updateRule_eq, allowed, claimed]
  simp only [entry]
  rw [if_pos ?_]
  · exact ⟨_, rfl⟩
  · rw [Bool.or_eq_true, beq_iff_eq, Bool.not_eq_true']
    by_cases same : value.pattern = rule.pattern
    · exact Or.inl same
    · exact Or.inr (Bool.eq_false_iff.mpr fun taken => free ⟨Ne.symm same, taken⟩)

theorem directory?_put (set : RuleSet) (path other : String) (claim : Claim) :
    directory? { set with claims := set.claims.insert path claim } other =
      if other = path then some claim.directory else set.directory? other := by
  rw [directory?, get?, Catalog.get?_insert]
  split <;> rfl

/-- A claim that is put under a path has its rules there, and others stay. -/
theorem rule?_put (set : RuleSet) (path other pattern : String) (claim : Claim) :
    rule? { set with claims := set.claims.insert path claim } other pattern =
      if other = path then claim.rules.get? pattern else set.rule? other pattern := by
  rw [rule?, get?, Catalog.get?_insert]
  split <;> rfl

theorem directory?_erase (set : RuleSet) (path other : String) :
    directory? { set with claims := set.claims.erase path } other =
      if other = path then none else set.directory? other := by
  rw [directory?, get?, Catalog.get?_erase]
  split <;> rfl

theorem rule?_erase (set : RuleSet) (path other pattern : String) :
    rule? { set with claims := set.claims.erase path } other pattern =
      if other = path then none else set.rule? other pattern := by
  rw [rule?, get?, Catalog.get?_erase]
  split <;> rfl

/-- A claim that is put in place of one of the same directory keeps all directories. -/
theorem directory?_put_same (claimed : set.get? path = some claim) {other : Claim}
    (same : other.directory = claim.directory) (name : String) :
    directory? { set with claims := set.claims.insert path other } name = set.directory? name := by
  rw [directory?_put]
  split
  · rename_i here
    rw [here, directory?_eq claimed, same]
  · rfl

/-- Rule sets in which the same directories and rules are found are the same. -/
theorem ext_lookup (directories : ∀ path, set.directory? path = next.directory? path)
    (rules : ∀ path pattern, set.rule? path pattern = next.rule? path pattern) : set = next := by
  refine congrArg RuleSet.mk (Catalog.ext_get? fun path => ?_)
  have sameDirectory := directories path
  have sameRules := rules path
  simp only [directory?, rule?] at sameDirectory sameRules
  change set.get? path = next.get? path
  cases here : set.get? path with
  | none =>
    cases there : next.get? path with
    | none => rfl
    | some other => simp [here, there] at sameDirectory
  | some claim =>
    cases there : next.get? path with
    | none => simp [here, there] at sameDirectory
    | some other =>
      simp only [here, there, Option.map_some, Option.some.injEq, Option.bind_some] at sameDirectory sameRules ⊢
      obtain ⟨directory, known⟩ := claim
      rw [Claim.mk.injEq]
      exact ⟨sameDirectory, Catalog.ext_get? sameRules⟩

theorem directory?_untimed (set : RuleSet) (path : String) :
    set.untimed.directory? path = (set.directory? path).map Directory.untimed := by
  rw [directory?, untimed, get?, Catalog.get?_map, directory?, get?]
  cases set.claims.get? path <;> rfl

theorem rule?_untimed (set : RuleSet) (path pattern : String) :
    set.untimed.rule? path pattern = (set.rule? path pattern).map Rule.untimed := by
  rw [rule?, untimed, get?, Catalog.get?_map, rule?, get?]
  cases set.claims.get? path with
  | none => rfl
  | some claim => exact Catalog.get?_map _ _ _

end RuleSet

open RuleSet

/-- A store with these records has the claims and rules of the set, apart from the times of rules unless these count.
Rules carry the id of their directory, and no id occurs twice. -/
structure Recorded (timed : Prop) (directories : List Directory) (rules : List Rule) (set : RuleSet) : Prop where
  sound : set.Sound
  owned : ∀ path pattern rule, set.rule? path pattern = some rule →
    ∃ directory, set.directory? path = some directory ∧ directory.id = rule.directoryId
  claims : ∀ directory, directory ∈ directories ↔ set.directory? directory.path = some directory
  stored : ∀ path pattern rule, set.rule? path pattern = some rule → ∃ row ∈ rules, row.Alike timed rule
  known : ∀ row ∈ rules, ∃ path rule, set.rule? path row.pattern = some rule ∧ row.Alike timed rule
  ids : ∀ a ∈ directories, ∀ b ∈ directories, a.id = b.id → a = b
  ruleIds : ∀ a ∈ rules, ∀ b ∈ rules, a.id = b.id → a = b

namespace Recorded

variable {timed : Prop} {directories directories' : List Directory} {rules rules' : List Rule} {set next : RuleSet}
variable {path other pattern : String} {directory owner : Directory} {row rule : Rule}

/-- A claimed directory has its record. -/
theorem mem_of_known (recorded : Recorded timed directories rules set) (known : set.directory? path = some directory) :
    directory ∈ directories := (recorded.claims directory).mpr (by rwa [recorded.sound.path_eq known])

/-- A directory can be told by its id. -/
theorem path_unique (recorded : Recorded timed directories rules set) {first second : Directory}
    (here : set.directory? path = some first) (there : set.directory? other = some second)
    (same : first.id = second.id) : path = other := by
  have equal := recorded.ids _ (recorded.mem_of_known here) _ (recorded.mem_of_known there) same
  rw [← recorded.sound.path_eq here, equal, recorded.sound.path_eq there]

/-- The rule of a row is the one with its pattern in the directory with its id. -/
theorem rule_of_row (recorded : Recorded timed directories rules set) (member : row ∈ rules)
    (claimed : set.directory? path = some owner) (owns : owner.id = row.directoryId) :
    ∃ rule, set.rule? path row.pattern = some rule ∧ row.Alike timed rule := by
  obtain ⟨other, rule, known, same⟩ := recorded.known row member
  obtain ⟨second, also, owns'⟩ := recorded.owned other row.pattern rule known
  have ids : owner.id = second.id := by rw [owns, owns', same.fields.2.1]
  obtain rfl := recorded.path_unique claimed also ids
  exact ⟨rule, known, same⟩

/-- A pattern without a rule has no row. -/
theorem ne_of_free (recorded : Recorded timed directories rules set) (claimed : set.directory? path = some owner)
    (owns : owner.id = rule.directoryId) (free : set.rule? path rule.pattern = none) :
    ∀ r ∈ rules, ¬ (r.directoryId = rule.directoryId ∧ r.pattern = rule.pattern) := by
  rintro r member ⟨sameDirectory, samePattern⟩
  obtain ⟨known, found, _⟩ := recorded.rule_of_row member claimed (owns.trans sameDirectory.symm)
  rw [samePattern, free] at found
  cases found

/-- A rule can be told by its id. -/
theorem rule_unique (recorded : Recorded timed directories rules set) {pattern' : String} {first second : Rule}
    (here : set.rule? path pattern = some first) (there : set.rule? other pattern' = some second)
    (same : first.id = second.id) : path = other ∧ pattern = pattern' ∧ first = second := by
  obtain ⟨a, memberA, equalA⟩ := recorded.stored path pattern first here
  obtain ⟨b, memberB, equalB⟩ := recorded.stored other pattern' second there
  have ids : a.id = b.id := by rw [equalA.fields.1, equalB.fields.1, same]
  obtain rfl := recorded.ruleIds a memberA b memberB ids
  obtain ⟨_, directoryA, patternA⟩ := equalA.fields
  obtain ⟨_, directoryB, patternB⟩ := equalB.fields
  obtain ⟨d, atPath, ownsD⟩ := recorded.owned path pattern first here
  obtain ⟨e, atOther, ownsE⟩ := recorded.owned other pattern' second there
  obtain rfl := recorded.path_unique atPath atOther (by rw [ownsD, ownsE, ← directoryA, directoryB])
  rw [patternA, recorded.sound.pattern_eq here, recorded.sound.pattern_eq there] at patternB
  subst patternB
  exact ⟨rfl, rfl, Option.some.inj (here.symm.trans there)⟩

/-- Only which records there are matters. -/
theorem congr (recorded : Recorded timed directories rules set)
    (sameDirectories : ∀ d, d ∈ directories' ↔ d ∈ directories) (sameRules : ∀ r, r ∈ rules' ↔ r ∈ rules) :
    Recorded timed directories' rules' set where
  sound := recorded.sound
  owned := recorded.owned
  claims d := (sameDirectories d).trans (recorded.claims d)
  stored path pattern rule known := by
    obtain ⟨row, member, same⟩ := recorded.stored path pattern rule known
    exact ⟨row, (sameRules row).mpr member, same⟩
  known row member := recorded.known row ((sameRules row).mp member)
  ids a memberA b memberB := recorded.ids a ((sameDirectories a).mp memberA) b ((sameDirectories b).mp memberB)
  ruleIds a memberA b memberB := recorded.ruleIds a ((sameRules a).mp memberA) b ((sameRules b).mp memberB)

/-- No rule has the id of a directory that is not there. -/
theorem directoryId_ne (recorded : Recorded timed directories rules set) {id : Int}
    (fresh : ∀ d ∈ directories, d.id ≠ id) : ∀ row ∈ rules, row.directoryId ≠ id := by
  intro row member same
  obtain ⟨path, rule, known, equal⟩ := recorded.known row member
  obtain ⟨owner, claimed, owns⟩ := recorded.owned path row.pattern rule known
  refine fresh owner (recorded.mem_of_known claimed) ?_
  rw [owns, ← equal.fields.2.1, same]

/-- A directory is claimed. -/
theorem claim (recorded : Recorded timed directories rules set) (sound : next.Sound)
    (unclaimed : set.directory? directory.path = none)
    (claimed : ∀ path, next.directory? path = if path = directory.path then some directory else set.directory? path)
    (same : ∀ path pattern, next.rule? path pattern = set.rule? path pattern)
    (rows : ∀ d, d ∈ directories' ↔ d = directory ∨ d ∈ directories) (fresh : ∀ d ∈ directories, d.id ≠ directory.id) :
    Recorded timed directories' rules next where
  sound := sound
  owned path pattern rule known := by
    rw [same] at known
    obtain ⟨owner, here, owns⟩ := recorded.owned path pattern rule known
    refine ⟨owner, ?_, owns⟩
    rw [claimed, if_neg fun equal => ?_, here]
    rw [equal, unclaimed] at here
    cases here
  claims d := by
    rw [rows, claimed]
    split
    · rename_i equal
      refine ⟨?_, fun known => Or.inl (Option.some.inj known).symm⟩
      rintro (rfl | member)
      · rfl
      · rw [recorded.claims, equal, unclaimed] at member
        cases member
    · rename_i differs
      rw [recorded.claims]
      exact or_iff_right fun equal => differs (equal ▸ rfl)
  stored path pattern rule known := recorded.stored path pattern rule (by rwa [same] at known)
  known row member := by
    obtain ⟨path, rule, known, equal⟩ := recorded.known row member
    exact ⟨path, rule, by rwa [same], equal⟩
  ids a memberA b memberB equal := by
    rcases (rows a).mp memberA with rfl | inA <;> rcases (rows b).mp memberB with rfl | inB
    · rfl
    · exact absurd equal.symm (fresh b inB)
    · exact absurd equal (fresh a inA)
    · exact recorded.ids a inA b inB equal
  ruleIds := recorded.ruleIds

/-- The record of a directory is replaced. -/
theorem update (recorded : Recorded timed directories rules set) (sound : next.Sound)
    (claimed : set.directory? directory.path = some owner) (sameId : owner.id = directory.id)
    (updated : ∀ path, next.directory? path = if path = directory.path then some directory else set.directory? path)
    (same : ∀ path pattern, next.rule? path pattern = set.rule? path pattern)
    (rows : ∀ d, d ∈ directories' ↔ d = directory ∨ d ∈ directories ∧ d.id ≠ owner.id) :
    Recorded timed directories' rules next where
  sound := sound
  owned path pattern rule known := by
    rw [same] at known
    obtain ⟨first, here, owns⟩ := recorded.owned path pattern rule known
    rw [updated]
    split
    · rename_i equal
      obtain rfl := Option.some.inj ((equal ▸ here).symm.trans claimed)
      exact ⟨directory, rfl, sameId ▸ owns⟩
    · exact ⟨first, here, owns⟩
  claims d := by
    rw [rows, updated]
    split
    · rename_i equal
      refine ⟨?_, fun known => Or.inl (Option.some.inj known).symm⟩
      rintro (rfl | ⟨member, differs⟩)
      · rfl
      · rw [recorded.claims, equal, claimed] at member
        exact absurd (congrArg Directory.id (Option.some.inj member)).symm differs
    · rename_i differs
      rw [recorded.claims]
      constructor
      · rintro (rfl | ⟨member, _⟩)
        · exact absurd rfl differs
        · exact member
      · exact fun known => Or.inr ⟨known, fun equal => differs (recorded.path_unique known claimed equal)⟩
  stored path pattern rule known := recorded.stored path pattern rule (by rwa [same] at known)
  known row member := by
    obtain ⟨path, rule, known, equal⟩ := recorded.known row member
    exact ⟨path, rule, by rwa [same], equal⟩
  ids a memberA b memberB equal := by
    rcases (rows a).mp memberA with rfl | ⟨inA, notA⟩ <;> rcases (rows b).mp memberB with rfl | ⟨inB, notB⟩
    · rfl
    · exact absurd (equal.symm.trans sameId.symm) notB
    · exact absurd (equal.trans sameId.symm) notA
    · exact recorded.ids a inA b inB equal
  ruleIds := recorded.ruleIds

/-- A directory without rules is given up. -/
theorem revoke (recorded : Recorded timed directories rules set) (sound : next.Sound)
    (claimed : set.directory? path = some owner) (bare : ∀ pattern, set.rule? path pattern = none)
    (revoked : ∀ other, next.directory? other = if other = path then none else set.directory? other)
    (same : ∀ other pattern, next.rule? other pattern = set.rule? other pattern) :
    Recorded timed (directories.filter (·.id ≠ owner.id)) (rules.filter (·.directoryId ≠ owner.id)) next := by
  have kept : ∀ row ∈ rules, row.directoryId ≠ owner.id := fun row member equal => by
    obtain ⟨rule, known, _⟩ := recorded.rule_of_row member claimed equal.symm
    cases (bare row.pattern).symm.trans known
  have rows : ∀ row, row ∈ rules.filter (·.directoryId ≠ owner.id) ↔ row ∈ rules := fun row => by
    simpa using kept row
  refine ⟨sound, fun other pattern rule known => ?_, fun d => ?_, fun other pattern rule known => ?_,
    fun row member => ?_, fun a memberA b memberB equal => ?_, fun a memberA b memberB equal => ?_⟩
  · rw [same] at known
    obtain ⟨first, here, owns⟩ := recorded.owned other pattern rule known
    refine ⟨first, ?_, owns⟩
    rw [revoked, if_neg fun equal => ?_, here]
    rw [equal, bare] at known
    cases known
  · rw [List.mem_filter, revoked, recorded.claims, decide_eq_true_eq]
    split
    · rename_i equal
      refine ⟨fun ⟨known, differs⟩ => ?_, nofun⟩
      rw [equal, claimed] at known
      exact absurd (congrArg Directory.id (Option.some.inj known)).symm differs
    · rename_i differs
      exact and_iff_left_of_imp fun known equal => differs (recorded.path_unique known claimed equal)
  · rw [same] at known
    obtain ⟨row, member, equal⟩ := recorded.stored other pattern rule known
    exact ⟨row, (rows row).mpr member, equal⟩
  · obtain ⟨path, rule, known, equal⟩ := recorded.known row ((rows row).mp member)
    exact ⟨path, rule, by rwa [same], equal⟩
  · exact recorded.ids a (List.mem_filter.mp memberA |>.1) b (List.mem_filter.mp memberB |>.1) equal
  · exact recorded.ruleIds a ((rows a).mp memberA) b ((rows b).mp memberB) equal

/-- A rule is added, and a row for it that differs in its times at most. -/
theorem add (recorded : Recorded timed directories rules set) (sound : next.Sound)
    (claimed : set.directory? path = some owner) (owns : owner.id = rule.directoryId)
    (absent : set.rule? path rule.pattern = none)
    (same : ∀ other, next.directory? other = set.directory? other)
    (added : ∀ other pattern, next.rule? other pattern =
      if other = path ∧ pattern = rule.pattern then some rule else set.rule? other pattern)
    (equal : row.Alike timed rule) (rows : ∀ r, r ∈ rules' ↔ r = row ∨ r ∈ rules)
    (fresh : ∀ r ∈ rules, r.id ≠ rule.id) : Recorded timed directories rules' next where
  sound := sound
  owned other pattern found known := by
    rw [added] at known
    rw [same]
    split at known
    · rename_i here
      obtain rfl := Option.some.inj known
      exact ⟨owner, here.1 ▸ claimed, owns⟩
    · exact recorded.owned other pattern found known
  claims d := by rw [same, recorded.claims]
  stored other pattern found known := by
    rw [added] at known
    split at known
    · obtain rfl := Option.some.inj known
      exact ⟨row, (rows row).mpr (Or.inl rfl), equal⟩
    · obtain ⟨old, member, alike⟩ := recorded.stored other pattern found known
      exact ⟨old, (rows old).mpr (Or.inr member), alike⟩
  known r member := by
    rcases (rows r).mp member with rfl | old
    · refine ⟨path, rule, ?_, equal⟩
      rw [added, if_pos ⟨rfl, equal.fields.2.2⟩]
    · obtain ⟨other, found, known, alike⟩ := recorded.known r old
      have elsewhere : ¬ (other = path ∧ r.pattern = rule.pattern) := by
        rintro ⟨rfl, samePattern⟩
        rw [samePattern, absent] at known
        cases known
      exact ⟨other, found, by rw [added, if_neg elsewhere, known], alike⟩
  ids := recorded.ids
  ruleIds a memberA b memberB alike := by
    have rowId := equal.fields.1
    rcases (rows a).mp memberA with rfl | inA <;> rcases (rows b).mp memberB with rfl | inB
    · rfl
    · exact absurd (alike.symm.trans rowId) (fresh b inB)
    · exact absurd (alike.trans rowId) (fresh a inA)
    · exact recorded.ruleIds a inA b inB alike

/-- A rule is taken away, and the row with its id. -/
theorem remove (recorded : Recorded timed directories rules set) (sound : next.Sound)
    (found : set.rule? path pattern = some rule) (same : ∀ other, next.directory? other = set.directory? other)
    (removed : ∀ other key, next.rule? other key =
      if other = path ∧ key = pattern then none else set.rule? other key) :
    Recorded timed directories (rules.filter (·.id ≠ rule.id)) next := by
  have left : ∀ {other key known}, next.rule? other key = some known →
      set.rule? other key = some known ∧ known.id ≠ rule.id := by
    intro other key known here
    rw [removed] at here
    split at here
    · cases here
    · rename_i differs
      refine ⟨here, fun equal => differs ?_⟩
      obtain ⟨samePath, samePattern, _⟩ := recorded.rule_unique here found equal
      exact ⟨samePath, samePattern⟩
  refine ⟨sound, fun other key known here => ?_, fun d => by rw [same, recorded.claims], fun other key known here => ?_,
    fun row member => ?_, recorded.ids, fun a memberA b memberB equal => ?_⟩
  · rw [same]
    exact recorded.owned other key known (left here).1
  · obtain ⟨row, member, equal⟩ := recorded.stored other key known (left here).1
    refine ⟨row, List.mem_filter.mpr ⟨member, decide_eq_true ?_⟩, equal⟩
    rw [equal.fields.1]
    exact (left here).2
  · obtain ⟨member, differs⟩ := List.mem_filter.mp member
    obtain ⟨other, known, here, equal⟩ := recorded.known row member
    have elsewhere : ¬ (other = path ∧ row.pattern = pattern) := by
      rintro ⟨rfl, rfl⟩
      refine of_decide_eq_true differs ?_
      rw [equal.fields.1, Option.some.inj (here.symm.trans found)]
    exact ⟨other, known, by rw [removed, if_neg elsewhere, here], equal⟩
  · exact recorded.ruleIds a (List.mem_filter.mp memberA |>.1) b (List.mem_filter.mp memberB |>.1) equal

/-- The row of a rule is replaced by one that differs in its times at most. -/
theorem retime (recorded : Recorded timed directories rules set) (found : set.rule? path pattern = some rule)
    (equal : row.Alike timed rule) (rows : ∀ r, r ∈ rules' ↔ r = row ∨ r ∈ rules ∧ r.id ≠ rule.id) :
    Recorded timed directories rules' set where
  sound := recorded.sound
  owned := recorded.owned
  claims := recorded.claims
  stored other key known here := by
    by_cases alike : known.id = rule.id
    · obtain ⟨_, _, rfl⟩ := recorded.rule_unique here found alike
      exact ⟨row, (rows row).mpr (Or.inl rfl), equal⟩
    · obtain ⟨old, member, same⟩ := recorded.stored other key known here
      exact ⟨old, (rows old).mpr (Or.inr ⟨member, same.fields.1 ▸ alike⟩), same⟩
  known r member := by
    rcases (rows r).mp member with rfl | ⟨old, _⟩
    · refine ⟨path, rule, ?_, equal⟩
      rwa [equal.fields.2.2, recorded.sound.pattern_eq found]
    · exact recorded.known r old
  ids := recorded.ids
  ruleIds a memberA b memberB alike := by
    have rowId := equal.fields.1
    rcases (rows a).mp memberA with rfl | ⟨inA, notA⟩ <;> rcases (rows b).mp memberB with rfl | ⟨inB, notB⟩
    · rfl
    · exact absurd (alike.symm.trans rowId) notB
    · exact absurd (alike.trans rowId) notA
    · exact recorded.ruleIds a inA b inB alike

/-- The row of a rule has another time, and the others stay. -/
theorem mem_redated (recorded : Recorded timed directories rules set) (member : row ∈ rules) (alike : row.Alike timed rule)
    (time : Int) (r : Rule) : r ∈ rules.map (Rule.redated rule.id time) ↔
      r = { rule with modified := time } ∨ r ∈ rules ∧ r.id ≠ rule.id := by
  have sameId := alike.fields.1
  rw [List.mem_map]
  constructor
  · rintro ⟨old, inRules, rfl⟩
    by_cases same : old.id = rule.id
    · obtain rfl := recorded.ruleIds old inRules row member (same.trans sameId.symm)
      rw [Rule.redated, if_pos same]
      exact Or.inl (alike.dated time)
    · rw [Rule.redated, if_neg same]
      exact Or.inr ⟨inRules, same⟩
  · rintro (rfl | ⟨inRules, differs⟩)
    · exact ⟨row, member, by rw [Rule.redated, if_pos sameId, alike.dated time]⟩
    · exact ⟨r, inRules, if_neg differs⟩

/-- Where times count, the row of a rule has the time of the rule already. -/
theorem map_redated (recorded : Recorded True directories rules set) (found : set.rule? path pattern = some rule) :
    rules.map (Rule.redated rule.id rule.modified) = rules := by
  obtain ⟨row, member, alike⟩ := recorded.stored path pattern rule found
  obtain rfl := alike.2 trivial
  have same : ∀ r ∈ rules, r.redated row.id row.modified = r := fun r inRules => by
    rw [Rule.redated]
    split
    · rename_i sameId
      rw [recorded.ruleIds r inRules row member sameId]
    · rfl
  rw [List.map_congr_left same, List.map_id']

/-- Where times do not count, a row may get another one. -/
theorem redate (recorded : Recorded timed directories rules set) (untimed : ¬ timed) (id : Nat) (time : Int) :
    Recorded timed directories (rules.map (Rule.redated id time)) set where
  sound := recorded.sound
  owned := recorded.owned
  claims := recorded.claims
  stored path pattern rule known := by
    obtain ⟨row, member, alike⟩ := recorded.stored path pattern rule known
    exact ⟨_, List.mem_map_of_mem member, (row.redated_undated id time).trans alike.1, fun counts => absurd counts untimed⟩
  known r member := by
    obtain ⟨row, old, rfl⟩ := List.mem_map.mp member
    obtain ⟨path, rule, known, alike⟩ := recorded.known row old
    have same : (row.redated id time).Alike timed rule :=
      ⟨(row.redated_undated id time).trans alike.1, fun counts => absurd counts untimed⟩
    exact ⟨path, rule, by rwa [same.fields.2.2, ← alike.fields.2.2], same⟩
  ids := recorded.ids
  ruleIds a memberA b memberB equal := by
    obtain ⟨a, inA, rfl⟩ := List.mem_map.mp memberA
    obtain ⟨b, inB, rfl⟩ := List.mem_map.mp memberB
    rw [Rule.redated_id, Rule.redated_id] at equal
    rw [recorded.ruleIds a inA b inB equal]

/-- A pattern that no other rule of the directory has is free among the rows. -/
theorem free (recorded : Recorded timed directories rules set) (claimed : set.directory? path = some owner)
    (owns : owner.id = rule.directoryId)
    (only : ∀ known, set.rule? path rule.pattern = some known → known.id = rule.id) :
    ∀ r ∈ rules, r.directoryId = rule.directoryId → r.pattern = rule.pattern → r.id = rule.id := by
  intro r member sameDirectory samePattern
  obtain ⟨known, found, equal⟩ := recorded.rule_of_row member claimed (owns.trans sameDirectory.symm)
  rw [samePattern] at found
  rw [equal.fields.1, only known found]

/-- A new record that is taken away again leaves those that were there. -/
theorem mem_filter_added {α ι : Type} [DecidableEq ι] {id : α → ι} {before after : List α} {made : α}
    (rows : ∀ a, a ∈ after ↔ a = made ∨ a ∈ before) (fresh : ∀ a ∈ before, id a ≠ id made) (a : α) :
    a ∈ after.filter (id · ≠ id made) ↔ a ∈ before := by
  rw [List.mem_filter, rows, decide_eq_true_eq]
  constructor
  · rintro ⟨rfl | member, differs⟩
    · exact absurd rfl differs
    · exact member
  · exact fun member => ⟨Or.inr member, fresh a member⟩

theorem afterClaim (recorded : Recorded timed directories rules set) (ran : RuleSet.claim directory set = .ok () next)
    (rows : ∀ d, d ∈ directories' ↔ d = directory ∨ d ∈ directories) (fresh : ∀ d ∈ directories, d.id ≠ directory.id) :
    Recorded timed directories' rules next := by
  have effect := (Edit.claim directory).effect ran
  have sound := recorded.sound.edit effect
  cases effect with
  | claim absolute unclaimed same =>
    subst same
    refine recorded.claim sound (Option.map_eq_none_iff.mpr unclaimed)
      (fun path => directory?_put set directory.path path _) (fun path pattern => ?_) rows fresh
    rw [rule?_put]
    split
    · rename_i here
      rw [here, rule?, unclaimed]
      rfl
    · rfl

/-- A directory that is passed on changes its record only. -/
theorem afterUpdateDirectory (recorded : Recorded timed directories rules set)
    (ran : RuleSet.updateDirectory directory set = .ok () next) (claimed : set.directory? directory.path = some owner)
    (sameId : owner.id = directory.id)
    (rows : ∀ d, d ∈ directories' ↔ d = directory ∨ d ∈ directories ∧ d.id ≠ owner.id) :
    Recorded timed directories' rules next := by
  have effect := (Edit.updateDirectory directory).effect ran
  have sound := recorded.sound.edit effect
  cases effect with
  | updateDirectory known same =>
    subst same
    refine recorded.update sound claimed sameId (fun path => directory?_put set directory.path path _)
      (fun path pattern => ?_) rows
    rw [rule?_put]
    split
    · rename_i here
      rw [here, rule?_eq known]
    · rfl

/-- With a claim its record goes, and those of its rules. -/
theorem afterRevoke (recorded : Recorded timed directories rules set)
    (ran : RuleSet.revoke path set = .ok directory next) :
    directory ∈ directories ∧
      Recorded timed (directories.filter (·.id ≠ directory.id)) (rules.filter (·.directoryId ≠ directory.id)) next := by
  have edited : (Edit.revoke path).run set = .ok () next := by rw [Edit.run_revoke, ran]
  have effect := (Edit.revoke path).effect edited
  have sound := recorded.sound.edit effect
  cases effect with
  | @revoke _ claim claimed isEmpty same =>
    subst same
    have answer : claim.directory = directory := by
      rw [revoke_eq, claimed] at ran
      simp only [if_pos isEmpty] at ran
      exact (EStateM.Result.ok.inj ran).1
    subst answer
    have known := directory?_eq claimed
    have bare : ∀ pattern, set.rule? path pattern = none := fun pattern => by
      rw [rule?_eq claimed, Catalog.get?, List.isEmpty_iff.mp isEmpty]
      rfl
    refine ⟨recorded.mem_of_known known,
      recorded.revoke sound known bare (directory?_erase set path) fun other pattern => ?_⟩
    rw [rule?_erase]
    split
    · rename_i here
      rw [here, bare]
    · rfl

/-- A rule that is added has a record from then on. -/
theorem afterAddRule (recorded : Recorded timed directories rules set)
    (ran : RuleSet.addRule path rule set = .ok () next) (claimed : set.directory? path = some owner)
    (owns : owner.id = rule.directoryId) (equal : row.Alike timed rule)
    (rows : ∀ r, r ∈ rules' ↔ r = row ∨ r ∈ rules) (fresh : ∀ r ∈ rules, r.id ≠ rule.id) :
    Recorded timed directories rules' next ∧ ∀ other, next.directory? other = set.directory? other := by
  have effect := (Edit.addRule path rule).effect ran
  have sound := recorded.sound.edit effect
  cases effect with
  | @addRule _ _ claim known allowed absent same =>
    subst same
    have here := directory?_eq known
    obtain rfl := Option.some.inj (here.symm.trans claimed)
    have sameRule : claim.withRule rule = { claim with rules := claim.rules.insert rule.pattern rule } := by
      rw [Claim.withRule, owns]
    refine ⟨recorded.add sound claimed owns (by rw [rule?_eq known, absent]) (directory?_put_same known rfl)
      (fun other pattern => ?_) equal rows fresh, directory?_put_same known rfl⟩
    rw [rule?_put, sameRule, Catalog.get?_insert]
    by_cases atPath : other = path
    · subst atPath
      by_cases atPattern : pattern = rule.pattern <;> simp [atPattern, rule?_eq known]
    · simp [atPath]

/-- The rules of a batch are added, and a row for each of them. -/
theorem afterAddRules {batch : List (String × Rule)} (recorded : Recorded timed directories rules set)
    (ran : batch.forM (fun entry => RuleSet.addRule entry.1 entry.2) set = .ok () next)
    (owned : ∀ entry ∈ batch, ∃ owner, set.directory? entry.1 = some owner ∧ owner.id = entry.2.directoryId)
    (rows : ∀ r, r ∈ rules' ↔ r ∈ rules ∨ r ∈ batch.map (·.2)) (distinct : (batch.map (·.2.id)).Nodup)
    (fresh : ∀ entry ∈ batch, ∀ r ∈ rules, r.id ≠ entry.2.id) : Recorded timed directories rules' next := by
  induction batch generalizing set rules with
  | nil =>
    obtain ⟨_, rfl⟩ := EStateM.Result.ok.inj ran
    exact recorded.congr (fun _ => Iff.rfl) fun r => by simp [rows]
  | cons entry batch ih =>
    obtain ⟨dir, rule⟩ := entry
    rw [List.forM, bind_eq] at ran
    split at ran
    · rename_i middle added
      obtain ⟨owner, claimed, owns⟩ := owned (dir, rule) List.mem_cons_self
      obtain ⟨notLater, distinctRest⟩ := List.pairwise_cons.mp distinct
      have rowsMiddle : ∀ r, r ∈ rule :: rules ↔ r = rule ∨ r ∈ rules := fun r => List.mem_cons
      obtain ⟨recordedMiddle, same⟩ := recorded.afterAddRule added claimed owns (.refl timed rule) rowsMiddle
        (fresh (dir, rule) List.mem_cons_self)
      refine ih recordedMiddle ran (fun next member => ?_) (fun r => ?_) distinctRest fun next member r inRules => ?_
      · simp only [same]
        exact owned next (List.mem_cons_of_mem _ member)
      · rw [rows, List.map_cons, List.mem_cons, List.mem_cons]
        exact or_left_comm.trans or_assoc.symm
      · rcases List.mem_cons.mp inRules with rfl | old
        · exact notLater _ (List.mem_map_of_mem member)
        · exact fresh next (List.mem_cons_of_mem _ member) r old
    · cases ran

/-- A rule that is removed loses its record. -/
theorem afterRemoveRule (recorded : Recorded timed directories rules set)
    (ran : RuleSet.removeRule path pattern set = .ok rule next) :
    Recorded timed directories (rules.filter (·.id ≠ rule.id)) next := by
  have edited : (Edit.removeRule path pattern).run set = .ok () next := by rw [Edit.run_removeRule, ran]
  have effect := (Edit.removeRule path pattern).effect edited
  have sound := recorded.sound.edit effect
  cases effect with
  | @removeRule _ _ claim gone claimed found same =>
    subst same
    have answer : gone = rule := by
      rw [removeRule_eq, claimed] at ran
      simp only [found] at ran
      exact (EStateM.Result.ok.inj ran).1
    subst answer
    refine recorded.remove sound (by rw [rule?_eq claimed, found]) (directory?_put_same claimed rfl) fun other key => ?_
    rw [rule?_put, Catalog.get?_erase]
    by_cases atPath : other = path
    · subst atPath
      by_cases atPattern : key = pattern <;> simp [atPattern, rule?_eq claimed]
    · simp [atPath]

/-- A rule that is updated has a new record in place of the old one. -/
theorem afterUpdateRule (recorded : Recorded timed directories rules set) {previous : Rule}
    (ran : RuleSet.updateRule path rule set = .ok previous next) (claimed : set.directory? path = some owner)
    (owns : owner.id = rule.directoryId) (equal : row.Alike timed rule)
    (rows : ∀ r, r ∈ rules' ↔ r = row ∨ r ∈ rules ∧ r.id ≠ rule.id) : Recorded timed directories rules' next := by
  have sound := recorded.sound.edit ((Edit.updateRule path rule).effect (by rw [Edit.run_updateRule, ran]))
  obtain ⟨allowed, key, claim, known, listed, sameId, free, same⟩ := updateRule_ok ran
  subst same
  have here := directory?_eq known
  obtain rfl := Option.some.inj (here.symm.trans claimed)
  have found := Catalog.get?_eq_some.mpr listed
  obtain rfl : previous.pattern = key := (recorded.sound _ _ known).pattern_eq _ _ found
  -- The update takes the old rule away and adds the new one.
  let bare : RuleSet :=
    { set with claims := set.claims.insert path { claim with rules := claim.rules.erase previous.pattern } }
  have sameBare : ∀ other, bare.directory? other = set.directory? other := directory?_put_same known rfl
  have sameNext : ∀ other, directory? { set with claims := set.claims.insert path (claim.replaceRule previous.pattern
      rule) } other = set.directory? other := directory?_put_same known rfl
  have removed : ∀ other pattern, bare.rule? other pattern =
      if other = path ∧ pattern = previous.pattern then none else set.rule? other pattern := by
    intro other pattern
    rw [rule?_put, Catalog.get?_erase]
    by_cases atPath : other = path
    · subst atPath
      by_cases atPattern : pattern = previous.pattern <;> simp [atPattern, rule?_eq known]
    · simp [atPath]
  have without : Recorded timed directories (rules.filter (·.id ≠ previous.id)) bare :=
    recorded.remove (recorded.sound.insert ((recorded.sound _ _ known).erase _)) (by rw [rule?_eq known, found])
      sameBare removed
  have sameRule : claim.replaceRule previous.pattern rule =
      { claim with rules := (claim.rules.erase previous.pattern).insert rule.pattern rule } := by
    rw [Claim.replaceRule, Claim.withRule, owns]
  have stays : bare.directory? path = some claim.directory := by rw [sameBare, here]
  refine without.add sound stays owns ?_ (fun other => ?_)
    (fun other pattern => ?_) equal (fun r => ?_) fun r member => ?_
  · rw [removed]
    split
    · rfl
    · rename_i differs
      rw [rule?_eq known]
      rcases free with equalPattern | absent
      · exact absurd ⟨rfl, equalPattern.symm⟩ differs
      · exact absent
  · rw [sameNext, sameBare]
  · rw [rule?_put, rule?_put, sameRule, Catalog.get?_insert]
    by_cases atPath : other = path
    · subst atPath
      by_cases atPattern : pattern = rule.pattern <;> simp [atPattern]
    · simp [atPath]
  · rw [rows, List.mem_filter, sameId, decide_eq_true_eq]
  · rw [← sameId]
    exact of_decide_eq_true (List.mem_filter.mp member).2

theorem empty : Recorded timed [] [] .empty := by
  have nothing : ∀ path, RuleSet.empty.directory? path = none := fun _ => rfl
  have noRules : ∀ path pattern, RuleSet.empty.rule? path pattern = none := fun _ _ => rfl
  refine ⟨Reached.sound .empty, fun path pattern rule known => ?_, fun d => ?_, fun path pattern rule known => ?_,
    by simp, by simp, by simp⟩
  · cases (noRules path pattern).symm.trans known
  · simp [nothing]
  · cases (noRules path pattern).symm.trans known

end Recorded
end BackupAtlas
