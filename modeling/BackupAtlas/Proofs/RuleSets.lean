import BackupAtlas.RuleSet

namespace BackupAtlas

namespace Entries

variable {α : Type}

theorem get?_insert (name other : String) (value : α) (entries : List (String × α)) :
    get? other (insert name value entries) = if other = name then some value else get? other entries := by
  induction entries with
  | nil => rfl
  | cons entry entries ih =>
    obtain ⟨key, old⟩ := entry
    rw [insert]
    split
    · by_cases here : other = name <;> simp [get?, here]
    · split
      · rename_i same
        subst same
        by_cases here : other = name <;> simp [get?, here]
      · rename_i differs
        by_cases here : other = name
        · subst here
          simp [get?, differs, ih]
        · simp only [get?, ih, here, if_false]

theorem get?_eq_some {name : String} {value : α} {entries : List (String × α)} (ascending : Ascending entries) :
    get? name entries = some value ↔ (name, value) ∈ entries := by
  induction entries with
  | nil => simp [get?]
  | cons entry entries ih =>
    obtain ⟨key, old⟩ := entry
    obtain ⟨first, tail⟩ := List.pairwise_cons.mp ascending
    rw [get?, List.mem_cons]
    split
    · rename_i same
      subst same
      have absent : (name, value) ∉ entries := fun member => String.lt_irrefl _ (first (name, value) member)
      simp [absent, eq_comm]
    · rename_i differs
      simp [ih tail, differs]

theorem get?_eq_none {name : String} {entries : List (String × α)} :
    get? name entries = none ↔ ∀ value, (name, value) ∉ entries := by
  induction entries with
  | nil => simp [get?]
  | cons entry entries ih =>
    obtain ⟨key, old⟩ := entry
    rw [get?]
    split
    · rename_i same
      simp only [reduceCtorEq, false_iff]
      exact fun absent => absent old (by simp [same])
    · rename_i differs
      simp [ih, differs]

theorem get?_erase (name other : String) {entries : List (String × α)} (ascending : Ascending entries) :
    get? other (erase name entries) = if other = name then none else get? other entries := by
  induction entries with
  | nil => simp [erase, get?]
  | cons entry entries ih =>
    obtain ⟨key, old⟩ := entry
    obtain ⟨first, tail⟩ := List.pairwise_cons.mp ascending
    rw [erase]
    split
    · rename_i same
      subst same
      by_cases here : other = name
      · subst here
        rw [if_pos rfl]
        exact get?_eq_none.mpr fun value member => String.lt_irrefl _ (first (other, value) member)
      · simp [get?, here]
    · rename_i differs
      by_cases here : other = name
      · subst here
        simp [get?, differs, ih tail]
      · simp only [get?, ih tail, here, if_false]

end Entries

namespace Catalog

variable {α : Type}

theorem get?_insert (c : Catalog α) (name other : String) (value : α) :
    (c.insert name value).get? other = if other = name then some value else c.get? other :=
  Entries.get?_insert name other value c.entries

theorem get?_erase (c : Catalog α) (name other : String) :
    (c.erase name).get? other = if other = name then none else c.get? other :=
  Entries.get?_erase name other c.ascending

theorem get?_of_erase {c : Catalog α} {name other : String} {value : α}
    (found : (c.erase name).get? other = some value) : c.get? other = some value := by
  rw [get?_erase] at found
  split at found
  · cases found
  · exact found

theorem get?_eq_some {c : Catalog α} {name : String} {value : α} :
    c.get? name = some value ↔ (name, value) ∈ c.entries :=
  Entries.get?_eq_some c.ascending

end Catalog

theorem lookup_filter {κ α : Type} [BEq κ] [LawfulBEq κ] {key : κ} (keep : κ → Bool) (entries : List (κ × α)) :
    (entries.filter fun entry => keep entry.1).lookup key = if keep key then entries.lookup key else none := by
  induction entries with
  | nil => simp
  | cons entry entries ih =>
    obtain ⟨name, entry⟩ := entry
    by_cases same : key = name
    · subst same
      cases kept : keep key <;> simp [kept, ih]
    · cases kept : keep name <;> simp [kept, ih, List.lookup_cons, beq_eq_false_iff_ne.mpr same]

section

variable {ε σ α β : Type} {state : σ}

theorem bind_eq (step : EStateM ε σ α) (next : α → EStateM ε σ β) : (step >>= next) state =
    match step state with
    | .ok a after => next a after
    | .error e after => .error e after := by
  cases ran : step state <;> simp only [bind, EStateM.bind, ran]

theorem pure_eq (a : α) : (pure a : EStateM ε σ α) state = .ok a state := rfl

theorem get_eq : (get : EStateM ε σ σ) state = .ok state state := rfl

theorem set_eq (next : σ) : (set next : EStateM ε σ PUnit) state = .ok ⟨⟩ next := rfl

theorem throw_eq (error : ε) : (throw error : EStateM ε σ α) state = .error error state := rfl

theorem exists_ok_of_run' {step : EStateM ε σ α} {a : α} (ran : step.run' state = some a) :
    ∃ next, step state = .ok a next := by
  delta EStateM.run' EStateM.run at ran
  cases outcome : step state with
  | error e next =>
    rw [outcome] at ran
    cases ran
  | ok b next =>
    rw [outcome] at ran
    exact ⟨next, congrArg (EStateM.Result.ok · next) (Option.some.inj ran)⟩

/-- Something is seen of the state afterwards only if a step goes through. -/
theorem exists_ok_of_view {step : EStateM ε σ PUnit} {view : σ → β} {seen : β}
    (ran : (step >>= fun _ => get >>= fun after => pure (view after)).run' state = some seen) :
    ∃ next, step state = .ok ⟨⟩ next ∧ view next = seen := by
  obtain ⟨_, whole⟩ := exists_ok_of_run' ran
  rw [bind_eq] at whole
  cases outcome : step state with
  | error e next =>
    rw [outcome] at whole
    cases whole
  | ok _ next =>
    rw [outcome] at whole
    exact ⟨next, rfl, (EStateM.Result.ok.inj whole).1⟩

/-- Something is seen of a result only if there is one. -/
theorem exists_ok_of_map {result : Except ε α} {view : α → β} {seen : β}
    (known : result.toOption.map view = some seen) : ∃ a, result = .ok a ∧ view a = seen := by
  cases result with
  | error e => cases known
  | ok a => exact ⟨a, rfl, Option.some.inj known⟩

theorem map_eq_of_ok {result : Except ε α} {a : α} {view : α → β} {seen : β} (same : result = .ok a)
    (known : result.toOption.map view = some seen) : view a = seen := by
  subst same
  exact Option.some.inj known

end

theorem Catalog.get?_of_not_contains {α : Type} {catalog : Catalog α} {name : String}
    (fresh : ¬ catalog.contains name = true) : catalog.get? name = none := by
  rwa [Catalog.contains, Bool.not_eq_true, Option.isSome_eq_false_iff, Option.isNone_iff_eq_none] at fresh

namespace Claim

/-- A claim with one rule more, which gets the id of the directory. -/
def withRule (claim : Claim) (rule : Rule) : Claim :=
  { claim with rules := claim.rules.insert rule.pattern { rule with directoryId := claim.directory.id } }

def replaceRule (claim : Claim) (old : String) (rule : Rule) : Claim :=
  withRule { claim with rules := claim.rules.erase old } rule

/-- The claim of the directory at `path`, with allowed rules under their patterns. -/
structure Sound (path : String) (claim : Claim) : Prop where
  path_eq : claim.directory.path = path
  absolute : TreePath.isAbsoluteDir path
  pattern_eq : ∀ pattern rule, claim.rules.get? pattern = some rule → rule.pattern = pattern
  allowed : ∀ pattern rule, claim.rules.get? pattern = some rule → Pattern.objection? pattern = none

theorem Sound.erase {path : String} {claim : Claim} (sound : claim.Sound path)
    (pattern : String) : Claim.Sound path { claim with rules := claim.rules.erase pattern } where
  path_eq := sound.path_eq
  absolute := sound.absolute
  pattern_eq other rule found := sound.pattern_eq other rule (Catalog.get?_of_erase found)
  allowed other rule found := sound.allowed other rule (Catalog.get?_of_erase found)

theorem Sound.withRule {path : String} {claim : Claim} {rule : Rule} (sound : claim.Sound path)
    (allowed : Pattern.objection? rule.pattern = none) : (claim.withRule rule).Sound path := by
  refine { path_eq := sound.path_eq, absolute := sound.absolute, pattern_eq := ?_, allowed := ?_ }
  · intro other found atOther
    rw [Claim.withRule, Catalog.get?_insert] at atOther
    split at atOther
    · rename_i same
      obtain rfl := Option.some.inj atOther
      exact same.symm
    · exact sound.pattern_eq other found atOther
  · intro other found atOther
    rw [Claim.withRule, Catalog.get?_insert] at atOther
    split at atOther
    · rename_i same
      exact same ▸ allowed
    · exact sound.allowed other found atOther

end Claim

namespace RuleSet

/-- A change of a rule set. -/
inductive Edit where
  | claim (directory : Directory)
  | updateDirectory (directory : Directory)
  | revoke (path : String)
  | addRule (path : String) (rule : Rule)
  | removeRule (path pattern : String)
  | updateRule (path : String) (rule : Rule)

def Edit.run : Edit → Change Unit
  | claim directory => RuleSet.claim directory
  | updateDirectory directory => RuleSet.updateDirectory directory
  | revoke path => do let _ ← RuleSet.revoke path
  | addRule path rule => RuleSet.addRule path rule
  | removeRule path pattern => do let _ ← RuleSet.removeRule path pattern
  | updateRule path rule => do let _ ← RuleSet.updateRule path rule

/-- The rule sets that edits lead to. -/
inductive Reached : RuleSet → Prop
  | empty : Reached .empty
  | step {set next : RuleSet} (edit : Edit) (before : Reached set) (ran : edit.run set = .ok () next) : Reached next

theorem get?_put (set : RuleSet) (path other : String) (claim : Claim) :
    get? { set with claims := set.claims.insert path claim } other =
      if other = path then some claim else set.get? other :=
  Catalog.get?_insert set.claims path other claim

/-- Claims stand under the paths of their directories, rules under their patterns. -/
def Sound (set : RuleSet) : Prop := ∀ path claim, set.get? path = some claim → claim.Sound path

section

variable {set : RuleSet}

theorem put_eq (claim : Claim) (path : String) :
    put claim path set = .ok () { set with claims := set.claims.insert path claim } := rfl

theorem ensure_eq (holds : Bool) (otherwise : Error) :
    ensure holds otherwise set = if holds then .ok () set else .error otherwise set := by
  cases holds <;> rfl

theorem claim_eq (directory : Directory) : claim directory set =
    if TreePath.isAbsoluteDir directory.path then
      if set.claims.contains directory.path then .error (.alreadyClaimed directory.path) set
      else .ok () { set with claims := set.claims.insert directory.path { directory } }
    else .error (.invalidRoot directory.path) set := by
  simp only [claim, bind_eq, ensure_eq, get_eq, put_eq]
  cases absolute : TreePath.isAbsoluteDir directory.path with
  | false => rfl
  | true => cases known : set.claims.contains directory.path <;> simp [known]

theorem updateDirectory_eq (directory : Directory) : updateDirectory directory set =
    match set.get? directory.path with
    | none => .error (.notClaimed directory.path) set
    | some claim => .ok () { set with claims := set.claims.insert directory.path { claim with directory } } := by
  simp only [updateDirectory, bind_eq, claimed, put_eq]
  cases set.get? directory.path <;> rfl

theorem revoke_eq (path : String) : revoke path set =
    match set.get? path with
    | none => .error (.notClaimed path) set
    | some claim =>
      if claim.rules.isEmpty then .ok claim.directory { set with claims := set.claims.erase path }
      else .error (.claimHasRules path claim.rules.size) set := by
  simp only [revoke, bind_eq, claimed, ensure_eq]
  cases set.get? path with
  | none => rfl
  | some claim =>
    by_cases isEmpty : claim.rules.isEmpty
    · simp only [if_pos isEmpty]; rfl
    · simp only [if_neg isEmpty]

theorem validate_eq (pattern : String) : validate pattern set =
    match Pattern.objection? pattern with
    | none => .ok () set
    | some reason => .error (.invalidPattern pattern reason) set := by
  simp only [validate, Pattern.validate]
  cases Pattern.objection? pattern <;> rfl

theorem addRule_eq (path : String) (rule : Rule) : addRule path rule set =
    match Pattern.objection? rule.pattern, set.get? path with
    | some reason, _ => .error (.invalidPattern rule.pattern reason) set
    | none, none => .error (.notClaimed path) set
    | none, some claim =>
      if claim.rules.contains rule.pattern then .error (.ruleExists path rule.pattern) set
      else .ok () { set with claims := set.claims.insert path (claim.withRule rule) } := by
  simp only [addRule, bind_eq, validate_eq, claimed, ensure_eq, put_eq]
  cases Pattern.objection? rule.pattern with
  | some reason => rfl
  | none =>
    cases found : set.get? path with
    | none => simp only [found]
    | some claim => cases known : claim.rules.contains rule.pattern <;> simp [found, known, Claim.withRule]

theorem removeRule_eq (path pattern : String) : removeRule path pattern set =
    match set.get? path with
    | none => .error (.notClaimed path) set
    | some claim =>
      match claim.rules.get? pattern with
      | none => .error (.ruleNotFound path pattern) set
      | some rule =>
        .ok rule { set with claims := set.claims.insert path { claim with rules := claim.rules.erase pattern } } := by
  simp only [removeRule, bind_eq, claimed]
  cases set.get? path with
  | none => rfl
  | some claim => cases found : claim.rules.get? pattern <;> simp only [found] <;> rfl

theorem updateRule_eq (path : String) (rule : Rule) : updateRule path rule set =
    match Pattern.objection? rule.pattern, set.get? path with
    | some reason, _ => .error (.invalidPattern rule.pattern reason) set
    | none, none => .error (.notClaimed path) set
    | none, some claim =>
      match claim.rules.entries.find? (·.2.id == rule.id) with
      | none => .error (.ruleNotFound path rule.pattern) set
      | some (_, previous) =>
        if previous.pattern == rule.pattern || !claim.rules.contains rule.pattern then
          .ok previous { set with claims := set.claims.insert path (claim.replaceRule previous.pattern rule) }
        else .error (.ruleExists path rule.pattern) set := by
  simp only [updateRule, bind_eq, validate_eq, claimed]
  cases Pattern.objection? rule.pattern with
  | some reason => rfl
  | none =>
    cases claimed : set.get? path with
    | none => simp only [claimed]
    | some claim =>
      cases found : claim.rules.entries.find? (·.2.id == rule.id) with
      | none => simp only [claimed, found]; rfl
      | some entry =>
        simp only [claimed, found, bind_eq, ensure_eq, put_eq]
        cases (entry.2.pattern == rule.pattern || !claim.rules.contains rule.pattern) <;> rfl

theorem Edit.run_revoke (path : String) : (Edit.revoke path).run set =
    match RuleSet.revoke path set with
    | .ok _ after => .ok () after
    | .error e after => .error e after := by
  simp only [Edit.run, bind_eq, pure_eq]
  cases RuleSet.revoke path set <;> rfl

theorem Edit.run_removeRule (path pattern : String) : (Edit.removeRule path pattern).run set =
    match RuleSet.removeRule path pattern set with
    | .ok _ after => .ok () after
    | .error e after => .error e after := by
  simp only [Edit.run, bind_eq, pure_eq]
  cases RuleSet.removeRule path pattern set <;> rfl

theorem Edit.run_updateRule (path : String) (rule : Rule) : (Edit.updateRule path rule).run set =
    match RuleSet.updateRule path rule set with
    | .ok _ after => .ok () after
    | .error e after => .error e after := by
  simp only [Edit.run, bind_eq, pure_eq]
  cases RuleSet.updateRule path rule set <;> rfl

end

/-- What an edit that succeeds does to the claims. -/
inductive Effect (set next : RuleSet) : Edit → Prop
  | claim {directory : Directory} (absolute : TreePath.isAbsoluteDir directory.path)
    (fresh : set.get? directory.path = none)
    (same : next = { set with claims := set.claims.insert directory.path { directory } }) :
    Effect set next (.claim directory)
  | updateDirectory {directory : Directory} {claim : Claim} (claimed : set.get? directory.path = some claim)
    (same : next = { set with claims := set.claims.insert directory.path { claim with directory } }) :
    Effect set next (.updateDirectory directory)
  | revoke {path : String} {claim : Claim} (claimed : set.get? path = some claim) (isEmpty : claim.rules.isEmpty)
    (same : next = { set with claims := set.claims.erase path }) : Effect set next (.revoke path)
  | addRule {path : String} {rule : Rule} {claim : Claim} (claimed : set.get? path = some claim)
    (allowed : Pattern.objection? rule.pattern = none) (fresh : claim.rules.get? rule.pattern = none)
    (same : next = { set with claims := set.claims.insert path (claim.withRule rule) }) :
    Effect set next (.addRule path rule)
  | removeRule {path pattern : String} {claim : Claim} {rule : Rule} (claimed : set.get? path = some claim)
    (found : claim.rules.get? pattern = some rule)
    (same : next = { set with claims := set.claims.insert path { claim with rules := claim.rules.erase pattern } }) :
    Effect set next (.removeRule path pattern)
  | updateRule {path key : String} {rule previous : Rule} {claim : Claim} (claimed : set.get? path = some claim)
    (allowed : Pattern.objection? rule.pattern = none) (found : (key, previous) ∈ claim.rules.entries)
    (known : previous.id = rule.id)
    (free : previous.pattern = rule.pattern ∨ claim.rules.get? rule.pattern = none)
    (same : next = { set with claims := set.claims.insert path (claim.replaceRule previous.pattern rule) }) :
    Effect set next (.updateRule path rule)

theorem updateRule_ok {path : String} {rule previous : Rule} {set next : RuleSet}
    (ran : updateRule path rule set = .ok previous next) :
    Pattern.objection? rule.pattern = none ∧ ∃ key claim, set.get? path = some claim ∧
      (key, previous) ∈ claim.rules.entries ∧ previous.id = rule.id ∧
      (previous.pattern = rule.pattern ∨ claim.rules.get? rule.pattern = none) ∧
      next = { set with claims := set.claims.insert path (claim.replaceRule previous.pattern rule) } := by
  rw [updateRule_eq] at ran
  cases allowed : Pattern.objection? rule.pattern with
  | some reason => simp [allowed] at ran
  | none =>
    cases claimed : set.get? path with
    | none => simp [allowed, claimed] at ran
    | some claim =>
      cases found : claim.rules.entries.find? (·.2.id == rule.id) with
      | none => simp [allowed, claimed, found] at ran
      | some entry =>
        obtain ⟨key, old⟩ := entry
        simp only [allowed, claimed, found] at ran
        split at ran
        · rename_i free
          simp only [EStateM.Result.ok.injEq] at ran
          obtain ⟨rfl, rfl⟩ := ran
          have known := List.find?_some found
          refine ⟨rfl, key, claim, rfl, List.mem_of_find?_eq_some found, by simpa using known, ?_, rfl⟩
          simpa [Catalog.contains] using free
        · exact absurd ran (by simp)

theorem Edit.effect {edit : Edit} {set next : RuleSet} (ran : edit.run set = .ok () next) : Effect set next edit := by
  cases edit with
  | claim directory =>
    rw [Edit.run, claim_eq] at ran
    split at ran
    · rename_i absolute
      split at ran
      · exact absurd ran (by simp)
      · rename_i fresh
        simp only [EStateM.Result.ok.injEq, true_and] at ran
        exact .claim absolute (Catalog.get?_of_not_contains fresh) ran.symm
    · exact absurd ran (by simp)
  | updateDirectory directory =>
    rw [Edit.run, updateDirectory_eq] at ran
    split at ran
    · exact absurd ran (by simp)
    · rename_i claim claimed
      simp only [EStateM.Result.ok.injEq, true_and] at ran
      exact .updateDirectory claimed ran.symm
  | revoke path =>
    rw [Edit.run_revoke, revoke_eq] at ran
    cases claimed : set.get? path with
    | none => simp [claimed] at ran
    | some claim =>
      by_cases isEmpty : claim.rules.isEmpty
      · simp only [claimed, if_pos isEmpty, EStateM.Result.ok.injEq, true_and] at ran
        exact .revoke claimed isEmpty ran.symm
      · simp [claimed, isEmpty] at ran
  | addRule path rule =>
    rw [Edit.run, addRule_eq] at ran
    split at ran
    · exact absurd ran (by simp)
    · exact absurd ran (by simp)
    · rename_i claim allowed claimed
      split at ran
      · exact absurd ran (by simp)
      · rename_i fresh
        simp only [EStateM.Result.ok.injEq, true_and] at ran
        exact .addRule claimed allowed (Catalog.get?_of_not_contains fresh) ran.symm
  | removeRule path pattern =>
    rw [Edit.run_removeRule, removeRule_eq] at ran
    cases claimed : set.get? path with
    | none => simp [claimed] at ran
    | some claim =>
      cases found : claim.rules.get? pattern with
      | none => simp [claimed, found] at ran
      | some rule =>
        simp only [claimed, found, EStateM.Result.ok.injEq, true_and] at ran
        exact .removeRule claimed found ran.symm
  | updateRule path rule =>
    rw [Edit.run_updateRule] at ran
    cases updated : RuleSet.updateRule path rule set with
    | error e after => simp [updated] at ran
    | ok previous after =>
      rw [updated] at ran
      simp only [EStateM.Result.ok.injEq, true_and] at ran
      subst ran
      obtain ⟨allowed, key, claim, claimed, found, known, free, same⟩ := updateRule_ok updated
      exact .updateRule claimed allowed found known free same

/-- A failing edit changes nothing. -/
theorem Edit.unchanged {edit : Edit} {set after : RuleSet} {e : Error} (failed : edit.run set = .error e after) :
    after = set := by
  cases edit with
  | claim directory => rw [Edit.run, claim_eq] at failed; grind
  | updateDirectory directory => rw [Edit.run, updateDirectory_eq] at failed; grind
  | revoke path => rw [Edit.run_revoke, revoke_eq] at failed; grind
  | addRule path rule => rw [Edit.run, addRule_eq] at failed; grind
  | removeRule path pattern => rw [Edit.run_removeRule, removeRule_eq] at failed; grind
  | updateRule path rule => rw [Edit.run_updateRule, updateRule_eq] at failed; grind

theorem Sound.insert {set : RuleSet} {path : String} {claim : Claim} (sound : set.Sound) (fits : claim.Sound path) :
    Sound { set with claims := set.claims.insert path claim } := by
  intro other found claimed
  rw [get?, Catalog.get?_insert] at claimed
  split at claimed
  · rename_i same
    obtain rfl := Option.some.inj claimed
    exact same ▸ fits
  · exact sound other found claimed

theorem Sound.erase {set : RuleSet} (sound : set.Sound) (path : String) :
    Sound { set with claims := set.claims.erase path } := by
  intro other found claimed
  exact sound other found (Catalog.get?_of_erase claimed)

theorem Sound.edit {edit : Edit} {set next : RuleSet} (sound : set.Sound) (effect : Effect set next edit) :
    next.Sound := by
  cases effect with
  | claim absolute fresh same =>
    subst same
    refine sound.insert { path_eq := rfl, absolute, pattern_eq := ?_, allowed := ?_ }
    all_goals exact fun pattern rule found => absurd found (by simp [Catalog.get?, Catalog.empty, Entries.get?])
  | updateDirectory claimed same =>
    subst same
    have old := sound _ _ claimed
    exact sound.insert ⟨rfl, old.absolute, old.pattern_eq, old.allowed⟩
  | revoke claimed isEmpty same =>
    subst same
    exact sound.erase _
  | addRule claimed allowed fresh same =>
    subst same
    exact sound.insert ((sound _ _ claimed).withRule allowed)
  | removeRule claimed found same =>
    subst same
    exact sound.insert ((sound _ _ claimed).erase _)
  | updateRule claimed allowed found known free same =>
    subst same
    exact sound.insert (((sound _ _ claimed).erase _).withRule allowed)

theorem Reached.sound {set : RuleSet} (reached : set.Reached) : set.Sound := by
  induction reached with
  | empty =>
    intro path claim claimed
    have nothing : RuleSet.empty.get? path = none := rfl
    exact absurd (nothing.symm.trans claimed) (by simp)
  | step edit _ ran sound => exact sound.edit (Edit.effect ran)

/-- What each of several changes keeps, they keep one after another. -/
theorem forM_keeps {α : Type} {change : α → Change Unit} {P : RuleSet → Prop} {items : List α} {set next : RuleSet}
    (each : ∀ item ∈ items, ∀ set next, P set → change item set = .ok () next → P next) (here : P set)
    (ran : items.forM change set = .ok () next) : P next := by
  induction items generalizing set with
  | nil =>
    obtain ⟨_, rfl⟩ := EStateM.Result.ok.inj ran
    exact here
  | cons item items ih =>
    rw [List.forM, bind_eq] at ran
    split at ran
    · rename_i after first
      exact ih (fun item member => each item (List.mem_cons_of_mem _ member))
        (each item List.mem_cons_self set after here first) ran
    · exact absurd ran (by simp)

/-- What claims and new rules keep holds of a set that is read from records. -/
theorem ofRecords_keeps {P : RuleSet → Prop}
    (claims : ∀ directory set next, P set → claim directory set = .ok () next → P next)
    (additions : ∀ path rule set next, P set → addRule path rule set = .ok () next → P next) (here : P .empty)
    {directories : List Directory} {rules : List Rule} {set : RuleSet}
    (loaded : ofRecords directories rules = .ok set) : P set := by
  rw [ofRecords] at loaded
  split at loaded
  · rename_i last ran
    obtain rfl := Except.ok.inj loaded
    simp only [load, bind_eq] at ran
    split at ran
    · rename_i middle claimed
      have first : P middle := forM_keeps (fun directory _ => claims directory) here claimed
      refine forM_keeps (fun rule _ set next before ran => ?_) first ran
      cases known : pathOf? directories rule.directoryId with
      | none =>
        simp only [known] at ran
        exact absurd ((throw_eq _).symm.trans ran) (by simp)
      | some path =>
        simp only [known] at ran
        exact additions path rule set next before ran
    · exact absurd ran (by simp)
  · exact absurd loaded (by simp)

theorem ofRecords_reached {directories : List Directory} {rules : List Rule} {set : RuleSet}
    (loaded : ofRecords directories rules = .ok set) : set.Reached :=
  ofRecords_keeps (fun directory _ _ before ran => before.step (.claim directory) ran)
    (fun path rule _ _ before ran => before.step (.addRule path rule) ran) .empty loaded

end RuleSet
end BackupAtlas
