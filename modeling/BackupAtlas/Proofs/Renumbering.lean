import BackupAtlas.AtlasQuery
import BackupAtlas.Proofs.Records

namespace BackupAtlas

namespace Entries

variable {α β : Type}

theorem map_insert (f : α → β) (name : String) (value : α) (entries : List (String × α)) :
    map (fun _ => f) (insert name value entries) = insert name (f value) (map (fun _ => f) entries) := by
  induction entries with
  | nil => rfl
  | cons entry entries ih =>
    obtain ⟨key, old⟩ := entry
    change _ = insert name (f value) ((key, f old) :: map (fun _ => f) entries)
    rw [insert, insert]
    split
    · rfl
    · split
      · rfl
      · exact congrArg ((key, f old) :: ·) ih

theorem map_erase (f : α → β) (name : String) (entries : List (String × α)) :
    map (fun _ => f) (erase name entries) = erase name (map (fun _ => f) entries) := by
  induction entries with
  | nil => rfl
  | cons entry entries ih =>
    obtain ⟨key, old⟩ := entry
    change _ = erase name ((key, f old) :: map (fun _ => f) entries)
    rw [erase, erase]
    split
    · rfl
    · exact congrArg ((key, f old) :: ·) ih

end Entries

namespace Catalog

variable {α β : Type}

theorem map_insert (f : α → β) (c : Catalog α) (name : String) (value : α) :
    (c.insert name value).map f = (c.map f).insert name (f value) := ext (Entries.map_insert f name value c.entries)

theorem map_erase (f : α → β) (c : Catalog α) (name : String) : (c.erase name).map f = (c.map f).erase name :=
  ext (Entries.map_erase f name c.entries)

theorem contains_map (f : α → β) (c : Catalog α) (name : String) : (c.map f).contains name = c.contains name := by
  rw [contains, get?_map, Option.isSome_map, contains]

theorem size_map (f : α → β) (c : Catalog α) : (c.map f).size = c.size := List.length_map _

theorem isEmpty_map (f : α → β) (c : Catalog α) : (c.map f).isEmpty = c.isEmpty := List.isEmpty_map

theorem values_map (f : α → β) (c : Catalog α) : (c.map f).values = c.values.map f := by
  rw [values, values, List.map_map]
  exact List.map_map ..

end Catalog

section

variable {ε σ τ α β γ δ : Type}

/-- A result with another look at its answer and at the state. -/
def seen (f : α → β) (view : σ → τ) : EStateM.Result ε σ α → EStateM.Result ε τ β
  | .ok a state => .ok (f a) (view state)
  | .error e state => .error e (view state)

/-- What holds of two steps of a computation holds of both together. -/
theorem seen_bind {step : EStateM ε σ α} {step' : EStateM ε τ β} {next : α → EStateM ε σ γ} {next' : β → EStateM ε τ δ}
    {f : α → β} {g : γ → δ} {view : σ → τ} {state : σ} (first : step' (view state) = seen f view (step state))
    (second : ∀ a after, step state = .ok a after → next' (f a) (view after) = seen g view (next a after)) :
    (step' >>= next') (view state) = seen g view ((step >>= next) state) := by
  rw [bind_eq, bind_eq, first]
  cases ran : step state with
  | ok a after => exact second a after ran
  | error e after => rfl

end

/-- A directory with the number that goes with its id, apart from its times. -/
def Directory.renumbered (number : Int → Int) (directory : Directory) : Directory :=
  { directory.untimed with id := number directory.id }

/-- A rule whose directory has another number, apart from its times. -/
def Rule.renumbered (number : Int → Int) (rule : Rule) : Rule :=
  { rule.untimed with directoryId := number rule.directoryId }

def Claim.renumbered (number : Int → Int) (claim : Claim) : Claim :=
  ⟨claim.directory.renumbered number, claim.rules.map (Rule.renumbered number)⟩

def RuleSet.renumbered (number : Int → Int) (set : RuleSet) : RuleSet := ⟨set.claims.map (Claim.renumbered number)⟩

def Atlas.renumbered (number : Int → Int) (atlas : Atlas) : Atlas :=
  { atlas with rules := atlas.rules.renumbered number }

/-- The rules of a batch, each beside its directory. -/
def renumberedAll (number : Int → Int) (batch : List (String × Rule)) : List (String × Rule) :=
  batch.map fun entry => (entry.1, entry.2.renumbered number)

variable {number : Int → Int}

/-- Whatever does not look at numbers and times. -/
theorem any_of_renumberedAll {other : Int → Int} {batch batch' : List (String × Rule)} {p : String × Rule → Bool}
    (same : renumberedAll number batch = renumberedAll other batch')
    (blind : ∀ number entry, p (entry.1, entry.2.renumbered number) = p entry) : batch.any p = batch'.any p := by
  have listed := congrArg (List.any · p) same
  simpa only [renumberedAll, List.any_map, Function.comp_def, blind] using listed

@[simp] theorem Directory.renumbered_path (directory : Directory) :
    (directory.renumbered number).path = directory.path := rfl

@[simp] theorem Rule.renumbered_id (rule : Rule) : (rule.renumbered number).id = rule.id := rfl

@[simp] theorem Rule.renumbered_pattern (rule : Rule) : (rule.renumbered number).pattern = rule.pattern := rfl

@[simp] theorem Atlas.renumbered_rules (atlas : Atlas) :
    (atlas.renumbered number).rules = atlas.rules.renumbered number := rfl

theorem Claim.renumbered_withRule (claim : Claim) (rule : Rule) :
    (claim.withRule rule).renumbered number = (claim.renumbered number).withRule (rule.renumbered number) :=
  congrArg (Claim.mk _) (Catalog.map_insert _ _ _ _)

theorem Claim.renumbered_replaceRule (claim : Claim) (pattern : String) (rule : Rule) :
    (claim.replaceRule pattern rule).renumbered number =
      (claim.renumbered number).replaceRule pattern (rule.renumbered number) := by
  rw [replaceRule, replaceRule, renumbered_withRule]
  exact congrArg (withRule · _) (congrArg (Claim.mk _) (Catalog.map_erase _ _ _))

section

variable {other : Int → Int} {claim claim' : Claim} (same : claim.renumbered number = claim'.renumbered other)

include same

theorem Claim.contains_of_renumbered (pattern : String) :
    claim.rules.contains pattern = claim'.rules.contains pattern := by
  have rules : claim.rules.map (Rule.renumbered number) = claim'.rules.map (Rule.renumbered other) :=
    congrArg Claim.rules same
  rw [← Catalog.contains_map (Rule.renumbered number), rules, Catalog.contains_map]

theorem Claim.get?_of_renumbered (pattern : String) : (claim.rules.get? pattern).map (Rule.renumbered number) =
    (claim'.rules.get? pattern).map (Rule.renumbered other) := by
  have rules : claim.rules.map (Rule.renumbered number) = claim'.rules.map (Rule.renumbered other) :=
    congrArg Claim.rules same
  rw [← Catalog.get?_map, rules, Catalog.get?_map]

theorem Claim.find?_of_renumbered (id : Nat) :
    (claim.rules.values.find? (·.id == id)).map (Rule.renumbered number) =
      (claim'.rules.values.find? (·.id == id)).map (Rule.renumbered other) := by
  have values : ∀ (number : Int → Int) (claim : Claim), (claim.renumbered number).rules.values =
      claim.rules.values.map (Rule.renumbered number) := fun _ _ => Catalog.values_map _ _
  have rules := congrArg (fun claim => claim.rules.values.find? (·.id == id)) same
  simp only [values, List.find?_map] at rules
  exact rules

end

namespace RuleSet

variable {set : RuleSet}

theorem get?_renumbered (set : RuleSet) (path : String) :
    (set.renumbered number).get? path = (set.get? path).map (Claim.renumbered number) := Catalog.get?_map _ _ _

theorem directory?_renumbered (set : RuleSet) (path : String) :
    (set.renumbered number).directory? path = (set.directory? path).map (Directory.renumbered number) := by
  rw [directory?, get?_renumbered, directory?]
  cases set.get? path <;> rfl

theorem rule?_renumbered (set : RuleSet) (path pattern : String) :
    (set.renumbered number).rule? path pattern = (set.rule? path pattern).map (Rule.renumbered number) := by
  rw [rule?, get?_renumbered, rule?]
  cases set.get? path with
  | none => rfl
  | some claim => exact Catalog.get?_map _ _ _

/-- Only the numbers of directories that occur matter. -/
theorem renumbered_congr {other : Int → Int} (directories : ∀ path directory, set.directory? path = some directory →
      number directory.id = other directory.id)
    (rules : ∀ path pattern rule, set.rule? path pattern = some rule →
      number rule.directoryId = other rule.directoryId) : set.renumbered number = set.renumbered other := by
  refine ext_lookup (fun path => ?_) fun path pattern => ?_
  · rw [directory?_renumbered, directory?_renumbered]
    refine Option.map_congr fun directory known => ?_
    rw [Directory.renumbered, Directory.renumbered, directories path directory known]
  · rw [rule?_renumbered, rule?_renumbered]
    refine Option.map_congr fun rule known => ?_
    rw [Rule.renumbered, Rule.renumbered, rules path pattern rule known]

theorem renumbered_put (set : RuleSet) (path : String) (claim : Claim) :
    renumbered number { set with claims := set.claims.insert path claim } =
      { claims := (set.renumbered number).claims.insert path (claim.renumbered number) } :=
  congrArg RuleSet.mk (Catalog.map_insert _ _ _ _)

theorem claim_renumbered (directory : Directory) (set : RuleSet) :
    claim (directory.renumbered number) (set.renumbered number) =
      seen id (renumbered number) (claim directory set) := by
  rw [claim_eq, claim_eq, Directory.renumbered_path,
    show (set.renumbered number).claims.contains directory.path = _ from Catalog.contains_map _ _ _]
  split
  · split
    · rfl
    · exact congrArg (EStateM.Result.ok ()) (renumbered_put set directory.path { directory }).symm
  · rfl

theorem updateDirectory_renumbered (directory : Directory) (set : RuleSet) :
    updateDirectory (directory.renumbered number) (set.renumbered number) =
      seen id (renumbered number) (updateDirectory directory set) := by
  rw [updateDirectory_eq, updateDirectory_eq, Directory.renumbered_path, get?_renumbered]
  cases set.get? directory.path with
  | none => rfl
  | some claim => exact congrArg (EStateM.Result.ok ()) (renumbered_put set directory.path { claim with directory }).symm

theorem revoke_renumbered (path : String) (set : RuleSet) :
    revoke path (set.renumbered number) = seen (Directory.renumbered number) (renumbered number) (revoke path set) := by
  rw [revoke_eq, revoke_eq, get?_renumbered]
  cases set.get? path with
  | none => rfl
  | some claim =>
    have isEmpty : (claim.renumbered number).rules.isEmpty = claim.rules.isEmpty := Catalog.isEmpty_map _ _
    have size : (claim.renumbered number).rules.size = claim.rules.size := Catalog.size_map _ _
    simp only [Option.map_some, isEmpty, size]
    split
    · exact congrArg (EStateM.Result.ok _) (congrArg RuleSet.mk (Catalog.map_erase _ _ _)).symm
    · rfl

theorem addRule_renumbered (path : String) (rule : Rule) (set : RuleSet) :
    addRule path (rule.renumbered number) (set.renumbered number) =
      seen id (renumbered number) (addRule path rule set) := by
  rw [addRule_eq, addRule_eq, get?_renumbered, Rule.renumbered_pattern]
  cases Pattern.objection? rule.pattern with
  | some reason => rfl
  | none =>
    cases set.get? path with
    | none => rfl
    | some claim =>
      have known : (claim.renumbered number).rules.contains rule.pattern = claim.rules.contains rule.pattern :=
        Catalog.contains_map _ _ _
      simp only [Option.map_some, known]
      split
      · rfl
      · rw [← Claim.renumbered_withRule]
        exact congrArg (EStateM.Result.ok ()) (renumbered_put set path _).symm

theorem forM_addRule_renumbered (batch : List (String × Rule)) (set : RuleSet) :
    ((renumberedAll number batch).forM fun (dir, rule) => addRule dir rule : Change Unit) (set.renumbered number) =
      seen id (renumbered number) ((batch.forM fun (dir, rule) => addRule dir rule : Change Unit) set) := by
  induction batch generalizing set with
  | nil => rfl
  | cons entry batch ih =>
    exact seen_bind (addRule_renumbered entry.1 entry.2 set) fun _ next _ => ih next

theorem removeRule_renumbered (path pattern : String) (set : RuleSet) :
    removeRule path pattern (set.renumbered number) =
      seen (Rule.renumbered number) (renumbered number) (removeRule path pattern set) := by
  rw [removeRule_eq, removeRule_eq, get?_renumbered]
  cases set.get? path with
  | none => rfl
  | some claim =>
    have same : (claim.renumbered number).rules.get? pattern = (claim.rules.get? pattern).map (Rule.renumbered number) :=
      Catalog.get?_map _ _ _
    simp only [Option.map_some, same]
    cases claim.rules.get? pattern with
    | none => rfl
    | some rule =>
      refine congrArg (EStateM.Result.ok _) (Eq.trans ?_ (renumbered_put set path _).symm)
      exact congrArg (fun rules => RuleSet.mk ((set.renumbered number).claims.insert path ⟨_, rules⟩))
        (Catalog.map_erase _ _ _).symm

theorem updateRule_renumbered (path : String) (rule : Rule) (set : RuleSet) :
    updateRule path (rule.renumbered number) (set.renumbered number) =
      seen (Rule.renumbered number) (renumbered number) (updateRule path rule set) := by
  rw [updateRule_eq, updateRule_eq, get?_renumbered, Rule.renumbered_pattern, Rule.renumbered_id]
  cases Pattern.objection? rule.pattern with
  | some reason => rfl
  | none =>
    cases set.get? path with
    | none => rfl
    | some claim =>
      have known : (claim.renumbered number).rules.contains rule.pattern = claim.rules.contains rule.pattern :=
        Catalog.contains_map _ _ _
      have found : (claim.renumbered number).rules.entries.find? (·.2.id == rule.id) =
          (claim.rules.entries.find? (·.2.id == rule.id)).map fun entry => (entry.1, entry.2.renumbered number) :=
        List.find?_map ..
      simp only [Option.map_some, known, found]
      cases claim.rules.entries.find? (·.2.id == rule.id) with
      | none => rfl
      | some entry =>
        obtain ⟨key, previous⟩ := entry
        simp only [Option.map_some]
        by_cases free : (previous.pattern == rule.pattern || !claim.rules.contains rule.pattern) = true
        · rw [if_pos (show ((previous.renumbered number).pattern == _ || _) = true from free), if_pos free,
            Rule.renumbered_pattern, ← Claim.renumbered_replaceRule]
          exact congrArg (EStateM.Result.ok _) (renumbered_put set path _).symm
        · rw [if_neg (show ¬ ((previous.renumbered number).pattern == _ || _) = true from free), if_neg free]
          rfl

end RuleSet

theorem Terrain.survey_renumbered (set : RuleSet) (scope : String) (changed : Option (List String)) :
    survey (set.renumbered number) scope changed = survey set scope changed := by
  have entries : (set.renumbered number).claims.entries = Entries.map (fun _ => Claim.renumbered number) set.claims.entries :=
    rfl
  have rules : ∀ claim : Claim, ((claim.renumbered number).rules.entries.map fun (pattern, rule) =>
      (pattern.toList, rule.id)) = claim.rules.entries.map fun (pattern, rule) => (pattern.toList, rule.id) :=
    fun claim => List.map_map ..
  simp only [survey, entries, Entries.map, List.filter_map, List.foldl_map, rules]
  rfl

/-- Plans read patterns and ids of rules, never the directories' numbers. -/
theorem Plan.compile_renumbered (set : RuleSet) (scope : String) (changed : Option (List String)) :
    compile (set.renumbered number) scope changed = compile set scope changed :=
  congrArg ofTree (Terrain.survey_renumbered set scope changed)

theorem Dispatch.all_renumbered (set : RuleSet) : all (set.renumbered number) = all set :=
  congrArg ofPlan (Plan.compile_renumbered set "/" none)

namespace Atlas

variable {α β : Type} {atlas : Atlas}

theorem settled_renumbered (result : Except Error α) :
    settled result (atlas.renumbered number) = seen id (renumbered number) (settled result atlas) := by
  cases result <;> rfl

theorem onRules_renumbered {change : RuleSet.Change α} {change' : RuleSet.Change β} {f : α → β}
    (same : change' (atlas.rules.renumbered number) = seen f (RuleSet.renumbered number) (change atlas.rules)) :
    onRules change' (atlas.renumbered number) = seen f (renumbered number) (onRules change atlas) := by
  rw [onRules, onRules, renumbered_rules, same]
  cases change atlas.rules <;> rfl

theorem proposed_renumbered {change : RuleSet.Change α} {change' : RuleSet.Change β} {f : α → β}
    (same : change' (atlas.rules.renumbered number) = seen f (RuleSet.renumbered number) (change atlas.rules)) :
    proposed change' (atlas.renumbered number) =
      seen (fun answer => (f answer.1, answer.2.renumbered number)) (renumbered number) (proposed change atlas) := by
  rw [proposed, proposed, renumbered_rules, same]
  cases change atlas.rules <;> rfl

theorem claim_renumbered (directory : Directory) (atlas : Atlas) :
    claim (directory.renumbered number) (atlas.renumbered number) =
      seen id (renumbered number) (claim directory atlas) :=
  onRules_renumbered (RuleSet.claim_renumbered directory atlas.rules)

theorem updateDirectory_renumbered (directory : Directory) (atlas : Atlas) :
    updateDirectory (directory.renumbered number) (atlas.renumbered number) =
      seen id (renumbered number) (updateDirectory directory atlas) :=
  onRules_renumbered (RuleSet.updateDirectory_renumbered directory atlas.rules)

theorem revoke_renumbered (path : String) (atlas : Atlas) :
    revoke path (atlas.renumbered number) =
      seen (Directory.renumbered number) (renumbered number) (revoke path atlas) :=
  onRules_renumbered (RuleSet.revoke_renumbered path atlas.rules)

theorem rebuild_renumbered (rules : RuleSet) (changed : List String) :
    rebuild (rules.renumbered number) changed = rebuild rules changed := by
  funext overlay
  rw [rebuild, Plan.compile_renumbered, rebuild]

/-- A change is taken on or refused whatever the directories are numbered. -/
theorem commit_renumbered (rules : RuleSet) (changed : List String) (atlas : Atlas) :
    commit (rules.renumbered number) changed (atlas.renumbered number) =
      seen id (renumbered number) (commit rules changed atlas) := by
  simp only [commit, Dispatch.all_renumbered, rebuild_renumbered]
  have got : (get : Change Atlas) (atlas.renumbered number) =
    seen (renumbered number) (renumbered number) ((get : Change Atlas) atlas) := rfl
  refine seen_bind got fun before _ same => ?_
  obtain ⟨rfl, rfl⟩ := EStateM.Result.ok.inj same
  refine seen_bind (settled_renumbered _) fun dispatch after _ => ?_
  exact seen_bind (settled_renumbered _) fun rebuilt last _ => rfl

theorem addRule_renumbered (dir : String) (rule : Rule) (atlas : Atlas) :
    addRule dir (rule.renumbered number) (atlas.renumbered number) =
      seen id (renumbered number) (addRule dir rule atlas) :=
  seen_bind (proposed_renumbered (RuleSet.addRule_renumbered dir rule atlas.rules)) fun answer next _ =>
    commit_renumbered answer.2 [dir] next

theorem directories_renumberedAll (batch : List (String × Rule)) :
    directories (renumberedAll number batch) = directories batch := by
  rw [directories, renumberedAll, List.map_map, directories]
  rfl

theorem addRules_renumbered (batch : List (String × Rule)) (atlas : Atlas) :
    addRules (renumberedAll number batch) (atlas.renumbered number) =
      seen id (renumbered number) (addRules batch atlas) := by
  cases batch with
  | nil => rfl
  | cons entry batch =>
    rw [addRules, directories_renumberedAll]
    exact seen_bind (proposed_renumbered (RuleSet.forM_addRule_renumbered (entry :: batch) atlas.rules))
      fun answer next _ => commit_renumbered answer.2 _ next

theorem removeRule_renumbered (dir pattern : String) (atlas : Atlas) :
    removeRule dir pattern (atlas.renumbered number) =
      seen (fun answer => (answer.1.renumbered number, answer.2)) (renumbered number) (removeRule dir pattern atlas) :=
  seen_bind (proposed_renumbered (RuleSet.removeRule_renumbered dir pattern atlas.rules)) fun answer next _ =>
    seen_bind (commit_renumbered answer.2 [dir] next) fun _ _ _ => rfl

theorem updateRule_renumbered (dir : String) (rule : Rule) (atlas : Atlas) :
    updateRule dir (rule.renumbered number) (atlas.renumbered number) =
      seen id (renumbered number) (updateRule dir rule atlas) := by
  refine seen_bind (proposed_renumbered (RuleSet.updateRule_renumbered dir rule atlas.rules)) fun answer next _ => ?_
  change (if answer.1.pattern = rule.pattern then _ else _ : Change _) _ = seen _ _ ((if _ then _ else _ : Change _) _)
  split
  · rfl
  · exact commit_renumbered answer.2 [dir] next

/-- What is mounted, and whether it may be, has nothing to do with numbers. -/
theorem addTree_renumbered (lower : StoredTree) (source : String) (atlas : Atlas) :
    addTree lower source (atlas.renumbered number) = seen id (renumbered number) (addTree lower source atlas) := by
  rw [addTree]
  refine seen_bind (settled_renumbered _) fun overlay next _ => ?_
  by_cases top : overlay.root = "/"
  · simp only [id, if_pos top]
    rfl
  simp only [id, if_neg top]
  have got : (get : Change Atlas) (next.renumbered number) =
    seen (renumbered number) (renumbered number) ((get : Change Atlas) next) := rfl
  refine seen_bind got fun before _ same => ?_
  obtain ⟨rfl, rfl⟩ := EStateM.Result.ok.inj same
  rw [show (next.renumbered number).sites = next.sites from rfl]
  by_cases refused : (!next.sites.admits (TreePath.segments overlay.root)) = true
  · simp only [if_pos refused]
    rfl
  simp only [if_neg refused, renumbered_rules, Plan.compile_renumbered]
  exact seen_bind (settled_renumbered _) fun dispatch _ _ => seen_bind (settled_renumbered _) fun built _ _ => rfl

theorem addTreeFile_renumbered (disk : Disk) (path : String) (atlas : Atlas) :
    addTreeFile disk path (atlas.renumbered number) = seen id (renumbered number) (addTreeFile disk path atlas) := by
  rw [addTreeFile]
  cases Disk.Call.readFile path disk with
  | ok bytes left => exact seen_bind (settled_renumbered _) fun lower next _ => addTree_renumbered lower path next
  | error fault left => cases fault <;> rfl

theorem claimant_renumbered (atlas : Atlas) (path : String) :
    (atlas.renumbered number).claimant path = atlas.claimant path := by
  rw [claimant, claimant, renumbered_rules, RuleSet.get?_renumbered]
  cases atlas.rules.get? path <;> rfl

theorem summary_renumbered (atlas : Atlas) (naming : Naming) (path : String) :
    (atlas.renumbered number).summary naming path = atlas.summary naming path := by
  have figures : (atlas.renumbered number).figures path = atlas.figures path := rfl
  simp only [summary, figures, claimant_renumbered]

theorem counts_renumbered (atlas : Atlas) : (atlas.renumbered number).counts = atlas.counts := by
  have values : (atlas.renumbered number).rules.claims.values =
      atlas.rules.claims.values.map (Claim.renumbered number) := Catalog.values_map _ _
  have sizes : ∀ claim : Claim, (claim.renumbered number).rules.size = claim.rules.size := fun _ => Catalog.size_map _ _
  refine Prod.ext (Catalog.size_map _ _) ?_
  simp only [counts, RuleSet.ruleCount, values, List.foldl_map, sizes]

/-- Two atlases give the same answers, but for the numbers of directories and for times. -/
structure AnswersAlike (number : Int → Int) (atlas other : Atlas) : Prop where
  summary : ∀ naming path, atlas.summary naming path = other.summary naming path
  owner : ∀ path, atlas.owner path = other.owner path
  isDirectory : ∀ path, atlas.isDirectory path = other.isDirectory path
  globPaths : ∀ patterns, atlas.globPaths patterns = other.globPaths patterns
  ruleFor : ∀ path, atlas.ruleFor path = other.ruleFor path
  directory? : ∀ path,
    (atlas.directory? path).map (Claim.renumbered number) = (other.directory? path).map (Claim.renumbered id)
  mounts : atlas.mounts = other.mounts
  counts : atlas.counts = other.counts

/-- Atlases that are equal but for numbers cannot be told apart by queries. -/
theorem AnswersAlike.of_renumbered {other : Atlas} (same : atlas.renumbered number = other.renumbered id) :
    AnswersAlike number atlas other := by
  have sites : atlas.sites = other.sites := show (atlas.renumbered number).sites = (other.renumbered id).sites by rw [same]
  have dispatch : atlas.dispatch = other.dispatch :=
    show (atlas.renumbered number).dispatch = (other.renumbered id).dispatch by rw [same]
  have target : ∀ path, atlas.target path = other.target path := fun path => by rw [Atlas.target, Atlas.target, sites]
  constructor
  case summary =>
    intro naming path
    rw [← summary_renumbered, same, summary_renumbered]
  case owner =>
    intro path
    rw [Atlas.owner, Atlas.owner, target]
  case isDirectory =>
    intro path
    rw [Atlas.isDirectory, Atlas.isDirectory, target]
  case globPaths =>
    intro patterns
    rw [Atlas.globPaths, Atlas.globPaths, sites]
  case ruleFor =>
    intro path
    rw [Atlas.ruleFor, Atlas.ruleFor, dispatch]
  case directory? =>
    intro path
    rw [Atlas.directory?, Atlas.directory?, ← RuleSet.get?_renumbered, ← RuleSet.get?_renumbered]
    exact congrArg (fun atlas => atlas.rules.get? path) same
  case mounts => rw [Atlas.mounts, Atlas.mounts, sites]
  case counts => rw [← counts_renumbered, same, counts_renumbered]

end Atlas
end BackupAtlas
