import BackupAtlas.Proofs.Records

namespace BackupAtlas

namespace Pattern

/-- Two stars next to each other are found wherever they stand. -/
theorem hasDoubleStar_iff {chars : List Char} : hasDoubleStar chars ↔ ['*', '*'] <:+: chars := by
  fun_induction hasDoubleStar chars with
  | case1 rest => exact iff_of_true rfl (List.prefix_append ['*', '*'] rest).isInfix
  | case2 c rest notTwo ih =>
    rw [ih, List.infix_cons_iff]
    refine ⟨Or.inr, fun infixed => infixed.resolve_left fun starts => ?_⟩
    obtain ⟨later, equal⟩ := starts
    obtain ⟨rfl, rfl⟩ := List.cons.inj equal
    exact notTwo later rfl rfl
  | case3 => simp

/-- The patterns that rules may have. -/
theorem objection?_eq_none {pattern : String} : objection? pattern = none ↔
    pattern ≠ "" ∧ '/' ∉ pattern.toList ∧ ¬ ['*', '*'] <:+: pattern.toList := by
  rw [objection?, ← hasDoubleStar_iff]
  split
  · rename_i empty
    simp [empty]
  · rename_i nonempty
    split
    · rename_i slash
      simp [slash]
    · rename_i noSlash
      split <;> simp_all

end Pattern

namespace Catalog

variable {α : Type} {c : Catalog α}

theorem erase_insert {name : String} (fresh : c.get? name = none) (value : α) : (c.insert name value).erase name = c :=
  ext_get? fun other => by
    rw [get?_erase, get?_insert]
    split
    · rename_i here
      rw [here, fresh]
    · rfl

theorem insert_insert (name : String) (first second : α) :
    (c.insert name first).insert name second = c.insert name second :=
  ext_get? fun other => by
    simp only [get?_insert]
    split <;> rfl

theorem insert_get? {name : String} {value : α} (found : c.get? name = some value) : c.insert name value = c :=
  ext_get? fun other => by
    rw [get?_insert]
    split
    · rename_i here
      rw [here, found]
    · rfl

theorem isEmpty_iff : c.isEmpty ↔ c = .empty := by
  rw [isEmpty, List.isEmpty_iff]
  exact ⟨fun none => ext none, fun same => congrArg entries same⟩

end Catalog

namespace RuleSet

/-- The path of the directory that an edit names. -/
def Edit.path : Edit → String
  | claim directory => directory.path
  | updateDirectory directory => directory.path
  | revoke path => path
  | addRule path _ => path
  | removeRule path _ => path
  | updateRule path _ => path

/-- The set that an edit leaves, whether it goes through or not. -/
def Edit.apply (edit : Edit) (set : RuleSet) : RuleSet :=
  match edit.run set with
  | .ok () next => next
  | .error _ next => next

/-- The set that edits leave, one after another. -/
def edited (set : RuleSet) (edits : List Edit) : RuleSet := edits.foldl (fun set edit => edit.apply set) set

/-- Takes the rule under `old` away and adds another one. -/
def swapRule (path old : String) (rule : Rule) : Change Rule := do
  let removed ← removeRule path old
  addRule path rule
  pure removed

/-- Edits lead from sets that can be reached to such sets. -/
theorem Reached.edited {set : RuleSet} (reached : set.Reached) (edits : List Edit) : (set.edited edits).Reached := by
  induction edits generalizing set with
  | nil => exact reached
  | cons edit edits ih =>
    change (RuleSet.edited (edit.apply set) edits).Reached
    apply ih
    cases ran : edit.run set with
    | ok answer next =>
      rw [Edit.apply, ran]
      exact reached.step edit ran
    | error e after =>
      rw [Edit.apply, ran]
      exact edit.unchanged ran ▸ reached

/-- An edit touches no claim but that of its path. -/
theorem Effect.get?_other {edit : Edit} {set next : RuleSet} (effect : Effect set next edit) {path : String}
    (other : path ≠ edit.path) : next.get? path = set.get? path := by
  cases effect with
  | revoke claimed isEmpty same =>
    rw [same, get?, Catalog.get?_erase]
    exact if_neg other
  | claim absolute fresh same | updateDirectory claimed same | addRule claimed allowed fresh same
  | removeRule claimed found same | updateRule claimed allowed found known free same =>
    rw [same, get?_put]
    exact if_neg other

/-- A claim can be revoked exactly if it has no rules. -/
theorem revoke_ok_iff {set next : RuleSet} {path : String} {directory : Directory} :
    revoke path set = .ok directory next ↔ ∃ claim, set.get? path = some claim ∧ claim.rules = .empty ∧
      directory = claim.directory ∧ next = { set with claims := set.claims.erase path } := by
  rw [revoke_eq]
  cases claimed : set.get? path with
  | none => simp
  | some claim =>
    simp only [Catalog.isEmpty_iff, Option.some.injEq, exists_eq_left']
    by_cases isEmpty : claim.rules = .empty
    · simp only [isEmpty, if_true, true_and, EStateM.Result.ok.injEq, eq_comm]
    · simp [isEmpty]

/-- A listed rule can be removed, and nothing else changes. -/
theorem removeRule_of_listed {set : RuleSet} {path pattern : String} {claim : Claim} {rule : Rule}
    (claimed : set.get? path = some claim) (listed : claim.rules.get? pattern = some rule) :
    removeRule path pattern set =
      .ok rule { set with claims := set.claims.insert path { claim with rules := claim.rules.erase pattern } } := by
  rw [removeRule_eq, claimed]
  simp only [listed]

/-- A rule that was just added can be taken away again, and then the set is what it was. -/
theorem removeRule_addRule {set next : RuleSet} {path : String} {rule : Rule}
    (ran : addRule path rule set = .ok () next) : ∃ claim, set.get? path = some claim ∧
      removeRule path rule.pattern next = .ok { rule with directoryId := claim.directory.id } set := by
  cases (Edit.addRule path rule).effect ran with
  | addRule claimed allowed fresh same =>
    rename_i claim
    have added : next.get? path = some (claim.withRule rule) := by rw [same, get?_put, if_pos rfl]
    have listed : (claim.withRule rule).rules.get? rule.pattern =
        some { rule with directoryId := claim.directory.id } := by
      rw [Claim.withRule, Catalog.get?_insert, if_pos rfl]
    have restored : (claim.withRule rule).rules.erase rule.pattern = claim.rules := Catalog.erase_insert fresh _
    refine ⟨claim, claimed, (removeRule_of_listed added listed).trans ?_⟩
    rw [restored, same, Catalog.insert_insert]
    exact congrArg (fun claims => EStateM.Result.ok _ (RuleSet.mk claims)) (Catalog.insert_get? claimed)

/-- A rule that gets another pattern is taken away and added again. When this fails, nothing was taken away. -/
theorem updateRule_eq_swapRule {set : RuleSet} (sound : set.Sound) {path : String} {rule previous : Rule}
    {claim : Claim} (claimed : set.get? path = some claim)
    (listed : claim.rules.values.find? (·.id == rule.id) = some previous) (renamed : previous.pattern ≠ rule.pattern) :
    updateRule path rule set =
      match swapRule path previous.pattern rule set with
      | .ok removed next => .ok removed next
      | .error e _ => .error e set := by
  obtain ⟨known, _⟩ := sound.rule?_of_find? claimed listed
  rw [rule?_eq claimed] at known
  rw [Catalog.values, List.find?_map, Option.map_eq_some_iff] at listed
  obtain ⟨entry, found, rfl⟩ := listed
  replace found : claim.rules.entries.find? (fun entry => entry.2.id == rule.id) = some entry := found
  have differs : (entry.2.pattern == rule.pattern) = false := beq_eq_false_iff_ne.mpr renamed
  have free : (claim.rules.erase entry.2.pattern).contains rule.pattern = claim.rules.contains rule.pattern := by
    rw [Catalog.contains, Catalog.get?_erase, if_neg (Ne.symm renamed), Catalog.contains]
  rw [swapRule, bind_eq, removeRule_of_listed claimed known]
  simp only [bind_eq, pure_eq]
  rw [addRule_eq, get?_put, if_pos rfl, updateRule_eq, claimed]
  cases Pattern.objection? rule.pattern with
  | some reason => rfl
  | none =>
    simp only [found, differs, free, Bool.false_or]
    cases claim.rules.contains rule.pattern with
    | true => rfl
    | false =>
      simp only [Bool.not_false, if_true, Bool.false_eq_true, if_false, Catalog.insert_insert]
      rfl

/-- However a rule set came about: claims stand under the absolute paths of their directories and rules under their own
patterns, which are allowed; an edit that fails changes nothing, and one that goes through nothing but the directory it
names; just the claims without rules can be revoked; and taking a rule away undoes adding it and, with adding it again,
replaces giving it another pattern. -/
theorem edited_lawful {start : RuleSet}
    (origin : start = .empty ∨ ∃ directories rules, ofRecords directories rules = .ok start) (edits : List Edit) :
    let set := start.edited edits
    (∀ path claim, set.get? path = some claim →
      claim.directory.path = path ∧ path.toList.head? = some '/' ∧ path.toList.getLast? = some '/' ∧
      ∀ pattern rule, claim.rules.get? pattern = some rule →
        rule.pattern = pattern ∧ pattern ≠ "" ∧ '/' ∉ pattern.toList ∧ ¬ ['*', '*'] <:+: pattern.toList) ∧
    (∀ edit e after, Edit.run edit set = .error e after → after = set) ∧
    (∀ edit next, Edit.run edit set = .ok () next → ∀ path, path ≠ edit.path → next.get? path = set.get? path) ∧
    (∀ path directory next, revoke path set = .ok directory next ↔
      ∃ claim, set.get? path = some claim ∧ claim.rules = .empty ∧ directory = claim.directory ∧
        next = { set with claims := set.claims.erase path }) ∧
    (∀ path rule next, addRule path rule set = .ok () next → ∃ claim, set.get? path = some claim ∧
      removeRule path rule.pattern next = .ok { rule with directoryId := claim.directory.id } set) ∧
    (∀ path rule claim previous, set.get? path = some claim →
      claim.rules.values.find? (·.id == rule.id) = some previous → previous.pattern ≠ rule.pattern →
      updateRule path rule set =
        match swapRule path previous.pattern rule set with
        | .ok removed next => .ok removed next
        | .error e _ => .error e set) := by
  intro set
  have reached : start.Reached := by
    rcases origin with rfl | ⟨directories, rules, loaded⟩
    · exact .empty
    · exact ofRecords_reached loaded
  have sound : set.Sound := (reached.edited edits).sound
  refine ⟨fun path claim claimed => ?_, fun edit e after => edit.unchanged, fun edit next ran path => ?_,
    fun path directory next => revoke_ok_iff, fun path rule next => removeRule_addRule,
    fun path rule claim previous claimed => updateRule_eq_swapRule sound claimed⟩
  · have fits := sound path claim claimed
    have absolute := fits.absolute
    simp only [TreePath.isAbsoluteDir, TreePath.isDir, Bool.and_eq_true, beq_iff_eq] at absolute
    exact ⟨fits.path_eq, absolute.1, absolute.2, fun pattern rule found =>
      ⟨fits.pattern_eq pattern rule found, Pattern.objection?_eq_none.mp (fits.allowed pattern rule found)⟩⟩
  · exact (Edit.effect ran).get?_other

/-- A rule gets another pattern after one edit that fails and one that goes through. -/
theorem edited_lawful_renamed : ∃ start set next,
    ofRecords [{ id := 1, path := "/a/" }] [{ id := 1, directoryId := 1, pattern := "*.c" }] = .ok start ∧
    start.edited [.revoke "/a/", .addRule "/a/" { id := 2, pattern := "b*" }] = set ∧
    swapRule "/a/" "*.c" { id := 1, pattern := "*.h" } set = .ok { id := 1, directoryId := 1, pattern := "*.c" } next ∧
    updateRule "/a/" { id := 1, pattern := "*.h" } set = .ok { id := 1, directoryId := 1, pattern := "*.c" } next := by
  have known : (ofRecords [{ id := 1, path := "/a/" }]
      [{ id := 1, directoryId := 1, pattern := "*.c" }]).toOption.map (fun start =>
        decide (((start.edited [.revoke "/a/", .addRule "/a/" { id := 2, pattern := "b*" }]).get? "/a/").bind
            (·.rules.values.find? (·.id == 1)) = some { id := 1, directoryId := 1, pattern := "*.c" }) &&
          match swapRule "/a/" "*.c" { id := 1, pattern := "*.h" }
            (start.edited [.revoke "/a/", .addRule "/a/" { id := 2, pattern := "b*" }]) with
          | .ok removed _ => decide (removed = { id := 1, directoryId := 1, pattern := "*.c" })
          | .error _ _ => false) = some true := by
    decide +kernel
  obtain ⟨start, loaded, seen⟩ := exists_ok_of_map known
  obtain ⟨_, _, _, _, _, renames⟩ := edited_lawful (Or.inr ⟨_, _, loaded⟩)
    [.revoke "/a/", .addRule "/a/" { id := 2, pattern := "b*" }]
  rw [Bool.and_eq_true, decide_eq_true_eq] at seen
  obtain ⟨listed, swapped⟩ := seen
  obtain ⟨claim, claimed, found⟩ := Option.bind_eq_some_iff.mp listed
  split at swapped
  · rename_i removed next ran
    obtain rfl : removed = _ := of_decide_eq_true swapped
    have renamed := renames "/a/" { id := 1, pattern := "*.h" } claim _ claimed found (by decide)
    refine ⟨start, _, next, loaded, rfl, ran, renamed.trans ?_⟩
    simp only [ran]
  · cases swapped

end RuleSet
end BackupAtlas
