import BackupAtlas.Proofs.Stores
import BackupAtlas.Registry

namespace BackupAtlas

namespace Ends

variable {ε σ α β : Type} {good good' : α → σ → Prop} {bad bad' : ε → σ → Prop}

theorem imp {result : EStateM.Result ε σ α} (ends : Ends good bad result) (ok : ∀ a s, good a s → good' a s)
    (error : ∀ e s, bad e s → bad' e s) : Ends good' bad' result := by
  cases result with
  | ok a s => exact ok a s ends
  | error e s => exact error e s ends

/-- Of two steps, what comes of the second is what comes of both. -/
theorem bind {step : EStateM ε σ α} {next : α → EStateM ε σ β} {bad : ε → σ → Prop} {good : β → σ → Prop} {state : σ} :
    Ends good bad ((step >>= next) state) ↔ Ends (fun a after => Ends good bad (next a after)) bad (step state) := by
  rw [bind_eq]
  cases step state <;> rfl

theorem of_ok {result : EStateM.Result ε σ α} {a : α} {s : σ} (ends : Ends good bad result) (ran : result = .ok a s) :
    good a s := by
  subst ran
  exact ends

theorem bind_ok {step : EStateM ε σ α} {next : α → EStateM ε σ β} {bad : ε → σ → Prop} {good : β → σ → Prop}
    {state after : σ} {a : α} (ran : step state = .ok a after) :
    Ends good bad ((step >>= next) state) ↔ Ends good bad (next a after) := by rw [bind_eq, ran]

theorem bind_error {step : EStateM ε σ α} {next : α → EStateM ε σ β} {bad : ε → σ → Prop} {good : β → σ → Prop}
    {state after : σ} {e : ε} (ran : step state = .error e after) :
    Ends good bad ((step >>= next) state) ↔ bad e after := by
  rw [bind_eq, ran]
  rfl

/-- Of a result all is known that is known in two ways. -/
theorem and {result : EStateM.Result ε σ α} (first : Ends good bad result) (second : Ends good' bad' result) :
    Ends (fun a s => good a s ∧ good' a s) (fun e s => bad e s ∧ bad' e s) result := by
  cases result with
  | ok a s => exact ⟨first, second⟩
  | error e s => exact ⟨first, second⟩

theorem discard {step : EStateM ε σ α} {good : σ → Prop} {state : σ} (ends : Ends (fun _ => good) bad (step state)) :
    Ends (fun _ => good) bad ((Functor.discard step : EStateM ε σ PUnit) state) := by
  rw [discard_eq]
  cases ran : step state <;> rw [ran] at ends <;> exact ends

end Ends

/-- A step that fails is handled in the state that it leaves. -/
theorem tryCatch_eq {ε σ α : Type} (step : EStateM ε σ α) (handle : ε → EStateM ε σ α) (state : σ) :
    (tryCatch step handle : EStateM ε σ α) state =
      match step state with
      | .ok a after => .ok a after
      | .error e after => handle e after := by
  change EStateM.tryCatch step handle state = _
  delta EStateM.tryCatch
  dsimp only
  cases step state <;> rfl

namespace Atlas

variable {α : Type} {atlas : Atlas} {dir pattern : String} {rule : Rule}

/-- A change of the rules alone leaves the files ready for looking up as they are. -/
theorem onRules_ends {change : RuleSet.Change α}
    (unchanged : ∀ e set, change atlas.rules = .error e set → set = atlas.rules) :
    Ends (fun a next => change atlas.rules = .ok a next.rules ∧ next.dispatch = atlas.dispatch)
      (fun e next => change atlas.rules = .error e atlas.rules ∧ next = atlas) (onRules change atlas) := by
  rw [onRules]
  cases ran : change atlas.rules with
  | ok a rules => exact ⟨rfl, rfl⟩
  | error e rules =>
    obtain rfl := unchanged e rules ran
    exact ⟨rfl, rfl⟩

theorem claim_ends (directory : Directory) :
    Ends (fun _ next => RuleSet.claim directory atlas.rules = .ok () next.rules ∧ next.dispatch = atlas.dispatch)
      (fun e next => RuleSet.claim directory atlas.rules = .error e atlas.rules ∧ next = atlas)
      (claim directory atlas) :=
  onRules_ends fun e next failed => RuleSet.Edit.unchanged
    (show (RuleSet.Edit.claim directory).run atlas.rules = .error e next from failed)

theorem updateDirectory_ends (directory : Directory) :
    Ends (fun _ next => RuleSet.updateDirectory directory atlas.rules = .ok () next.rules ∧
        next.dispatch = atlas.dispatch)
      (fun e next => RuleSet.updateDirectory directory atlas.rules = .error e atlas.rules ∧ next = atlas)
      (updateDirectory directory atlas) :=
  onRules_ends fun e next failed => RuleSet.Edit.unchanged
    (show (RuleSet.Edit.updateDirectory directory).run atlas.rules = .error e next from failed)

theorem revoke_ends (path : String) :
    Ends (fun directory next => RuleSet.revoke path atlas.rules = .ok directory next.rules ∧
        next.dispatch = atlas.dispatch)
      (fun e next => RuleSet.revoke path atlas.rules = .error e atlas.rules ∧ next = atlas) (revoke path atlas) :=
  onRules_ends fun e next failed => RuleSet.Edit.unchanged
    (show (RuleSet.Edit.revoke path).run atlas.rules = .error e next by rw [RuleSet.Edit.run_revoke, failed])

/-- A change that is only proposed leaves the atlas as it is. -/
theorem proposed_ends (change : RuleSet.Change α) :
    Ends (fun answer next => change atlas.rules = .ok answer.1 answer.2 ∧ next = atlas) (fun _ next => next = atlas)
      (proposed change atlas) := by
  rw [proposed]
  cases change atlas.rules with
  | ok a rules => exact ⟨rfl, rfl⟩
  | error e rules => rfl

theorem settled_ends (result : Except Error α) :
    Ends (fun _ next => next = atlas) (fun _ next => next = atlas) (settled result atlas) := by
  cases result <;> rfl

/-- Either the new rules are there and ready for looking up files, or nothing has changed. -/
theorem commit_ends (rules : RuleSet) (changed : List String) :
    Ends (fun _ next => next.rules = rules ∧ Dispatch.all next.rules = .ok next.dispatch) (fun _ next => next = atlas)
      (commit rules changed atlas) := by
  rw [commit, Ends.bind]
  cases ready : Dispatch.all rules with
  | error e => rfl
  | ok dispatch =>
    refine Ends.bind.mpr ?_
    refine Ends.bind.mpr ((settled_ends _).imp (fun rebuilt next same => ?_) fun _ _ same => same)
    exact ⟨rfl, ready⟩

theorem proposed_commit_ends {β : Type} {change : RuleSet.Change α} {next : α × RuleSet → Change β}
    {good : β → Atlas → Prop}
    (committed : ∀ a rules, change atlas.rules = .ok a rules →
      Ends good (fun _ last => last = atlas) (next (a, rules) atlas)) :
    Ends good (fun _ last => last = atlas) ((proposed change >>= next) atlas) := by
  refine Ends.bind.mpr ((proposed_ends change).imp (fun answer last ⟨ran, same⟩ => ?_) fun _ _ same => same)
  subst same
  exact committed answer.1 answer.2 ran

/-- A rule that is added is applied, and if it cannot be, nothing changes. -/
theorem addRule_ends (dir : String) (rule : Rule) :
    Ends (fun _ next => RuleSet.addRule dir rule atlas.rules = .ok () next.rules ∧
        Dispatch.all next.rules = .ok next.dispatch)
      (fun _ next => next = atlas) (addRule dir rule atlas) :=
  proposed_commit_ends fun _ rules ran =>
    (commit_ends rules [dir]).imp (fun _ _ ⟨same, ready⟩ => ⟨same ▸ ran, ready⟩) fun _ _ same => same

/-- A batch that is added is applied as a whole, and if it cannot be, nothing changes. -/
theorem addRules_ends (batch : List (String × Rule)) :
    Ends (fun _ next => batch.forM (fun entry => RuleSet.addRule entry.1 entry.2) atlas.rules = .ok () next.rules ∧
        (batch = [] ∧ next = atlas ∨ Dispatch.all next.rules = .ok next.dispatch))
      (fun _ next => next = atlas) (addRules batch atlas) := by
  rw [addRules]
  cases batch with
  | nil => exact ⟨rfl, Or.inl ⟨rfl, rfl⟩⟩
  | cons entry batch =>
    exact proposed_commit_ends fun _ rules ran =>
      (commit_ends rules _).imp (fun _ _ ⟨same, ready⟩ => ⟨same ▸ ran, Or.inr ready⟩) fun _ _ same => same

/-- A rule that is removed no longer applies, and if that fails, nothing changes. -/
theorem removeRule_ends (dir pattern : String) :
    Ends (fun answer next => RuleSet.removeRule dir pattern atlas.rules = .ok answer.1 next.rules ∧
        Dispatch.all next.rules = .ok next.dispatch)
      (fun _ next => next = atlas) (removeRule dir pattern atlas) :=
  proposed_commit_ends fun gone rules ran => Ends.bind.mpr ((commit_ends rules [dir]).imp
    (fun _ next ⟨same, ready⟩ =>
      ⟨show RuleSet.removeRule dir pattern atlas.rules = .ok gone next.rules from same ▸ ran, ready⟩)
    fun _ _ same => same)

/-- A rule that is updated applies as it is then, and if that fails, nothing changes. -/
theorem updateRule_ends (dir : String) (rule : Rule) :
    Ends (fun _ next => ∃ previous, RuleSet.updateRule dir rule atlas.rules = .ok previous next.rules ∧
        (previous.pattern = rule.pattern ∧ next.dispatch = atlas.dispatch ∨
          Dispatch.all next.rules = .ok next.dispatch))
      (fun _ next => next = atlas) (updateRule dir rule atlas) := by
  refine proposed_commit_ends fun previous rules ran => ?_
  by_cases keeps : previous.pattern = rule.pattern
  · simp only [if_pos keeps]
    exact ⟨previous, ran, Or.inl ⟨keeps, rfl⟩⟩
  · simp only [if_neg keeps]
    exact (commit_ends rules [dir]).imp (fun _ _ ⟨same, ready⟩ => ⟨previous, same ▸ ran, Or.inr ready⟩)
      fun _ _ same => same

/-- Mounting a snapshot has nothing to do with the rules. -/
theorem addTree_ends (lower : StoredTree) (source : String) :
    Ends (fun _ next => next.rules = atlas.rules ∧ next.dispatch = atlas.dispatch) (fun _ next => next = atlas)
      (addTree lower source atlas) := by
  rw [addTree]
  refine Ends.bind.mpr ((settled_ends _).imp (fun overlay next same => ?_) fun _ _ same => same)
  subst same
  by_cases top : overlay.root = "/"
  · simp only [if_pos top]
    rfl
  simp only [if_neg top, bind_eq, get_eq]
  cases next.sites.admits (TreePath.segments overlay.root) with
  | false => rfl
  | true =>
    refine Ends.bind.mpr ((settled_ends _).imp (fun dispatch last same => ?_) fun _ _ same => same)
    subst same
    exact Ends.bind.mpr ((settled_ends _).imp (fun built last same => same ▸ ⟨rfl, rfl⟩) fun _ _ same => same)

theorem addTreeFile_ends (disk : Disk) (path : String) :
    Ends (fun _ next => next.rules = atlas.rules ∧ next.dispatch = atlas.dispatch) (fun _ next => next = atlas)
      (addTreeFile disk path atlas) := by
  rw [addTreeFile]
  cases Disk.Call.readFile path disk with
  | ok bytes left =>
    refine Ends.bind.mpr ((settled_ends _).imp (fun lower next same => ?_) fun _ _ same => same)
    subst same
    exact addTree_ends lower path
  | error fault left => cases fault <;> rfl

/-- Updates of rules that the rule set admits go through. -/
def Applies (atlas : Atlas) : Prop := ∀ dir rule previous next,
  RuleSet.updateRule dir rule atlas.rules = .ok previous next →
    ∃ builds last, updateRule dir rule atlas = .ok builds last

end Atlas

namespace Registry

variable {σ α β : Type} {registry : Registry σ}

/-- What holds of the store and the atlas after a change that succeeds, and of the registry after one that fails. -/
def Settles (holds : σ → Atlas → Prop) (undone : Registry σ → Prop) (result : EStateM.Result Error (Registry σ) α) :
    Prop :=
  Ends (fun _ next => holds next.store next.atlas) (fun _ next => undone next) result

/-- What holds of the store and the atlas after a change, whether it succeeds or fails. -/
def Leaves (holds : σ → Atlas → Prop) (result : EStateM.Result Error (Registry σ) α) : Prop :=
  Settles holds (fun next => holds next.store next.atlas) result

variable {holds : σ → Atlas → Prop} {undone : Registry σ → Prop}

/-- Where everything is taken back, things are left as they should be. -/
theorem Settles.leaves {result : EStateM.Result Error (Registry σ) α} (settles : Settles holds undone result)
    (taken : ∀ next, undone next → holds next.store next.atlas) : Leaves holds result :=
  settles.imp (fun _ _ here => here) fun _ next here => taken next here

theorem onStore_ends {call : StoreCall σ α} {good : α → σ → Prop} {bad : Error → σ → Prop}
    (ends : Ends good bad (call registry.store)) :
    Ends (fun a next => ∃ store, good a store ∧ next = { registry with store })
      (fun e next => ∃ store, bad e store ∧ next = { registry with store }) (onStore call registry) := by
  rw [onStore]
  cases ran : call registry.store <;> rw [ran] at ends <;> exact ⟨_, ends, rfl⟩

theorem onAtlas_ends {change : Atlas.Change α} {good : α → Atlas → Prop} {bad : Error → Atlas → Prop}
    (ends : Ends good bad (change registry.atlas)) :
    Ends (fun a next => ∃ atlas, good a atlas ∧ change registry.atlas = .ok a atlas ∧ next = { registry with atlas })
      (fun e next => ∃ atlas, bad e atlas ∧ change registry.atlas = .error e atlas ∧ next = { registry with atlas })
      (onAtlas change registry) := by
  rw [onAtlas]
  cases ran : change registry.atlas <;> rw [ran] at ends <;> exact ⟨_, ends, rfl, rfl⟩

/-- Registries that differ in the store, the journal and the disk at most. -/
structure Beside (registry next : Registry σ) : Prop where
  atlas : next.atlas = registry.atlas
  names : next.names = registry.names

theorem noteFailure_ok (timing : Timing) (dir pattern : String) (e : Error) (registry : Registry σ) : ∃ next,
    noteFailure timing dir pattern e registry = .ok () next ∧ next.store = registry.store ∧ registry.Beside next := by
  rw [noteFailure]
  split
  · exact ⟨registry, rfl, rfl, rfl, rfl⟩
  · exact ⟨_, rfl, rfl, rfl, rfl⟩

/-- A change ends with a note and an answer. -/
theorem noted_settles (timing : Timing) (event : JournalEvent) (answer : α)
    (here : holds registry.store registry.atlas) :
    Settles holds undone ((do note timing event; return answer : Change σ α) registry) := Ends.bind.mpr here

/-- A change that fails is undone, and its error is told in the end. -/
theorem undoing_eq (change : Change σ α) (undo : Error → Change σ Unit) : undoing change undo registry =
    match change registry with
    | .ok a next => .ok a next
    | .error e next =>
      match undo e next with
      | .ok _ last => .error e last
      | .error other last => .error other last := by
  change (tryCatch change fun e => undo e >>= fun _ => throw e) registry = _
  rw [tryCatch_eq]
  cases ran : change registry with
  | ok a next => rfl
  | error e next =>
    change (undo e >>= fun _ => throw e) next = _
    rw [bind_eq]
    simp only
    cases undo e next <;> rfl

theorem undoing_ok {change : Change σ α} {undo : Error → Change σ Unit} {a : α} {next : Registry σ}
    (ran : change registry = .ok a next) : undoing change undo registry = .ok a next := by rw [undoing_eq, ran]

theorem quietly_eq (change : Change σ α) : quietly change registry =
    match change registry with
    | .ok _ next => .ok () next
    | .error _ next => .ok () next := by
  change (tryCatch (discard change) fun _ => pure ()) registry = _
  rw [tryCatch_eq, discard_eq]
  cases change registry <;> rfl

/-- A change succeeds, or it is undone. -/
theorem undoing_ends {change : Change σ α} {undo : Error → Change σ Unit} {good : α → Registry σ → Prop}
    {bad : Error → Registry σ → Prop} {undone : Registry σ → Prop} (ends : Ends good bad (change registry))
    (undoes : ∀ e after, bad e after → Ends (fun _ last => undone last) (fun _ last => undone last) (undo e after)) :
    Ends good (fun _ last => undone last) (undoing change undo registry) := by
  rw [undoing_eq]
  cases ran : change registry with
  | ok a after =>
    rw [ran] at ends
    exact ends
  | error e after =>
    rw [ran] at ends
    have left := undoes e after ends
    simp only
    cases last : undo e after with
    | ok done store => rw [last] at left; exact left
    | error other store => rw [last] at left; exact left

theorem undoing_settles {change : Change σ α} {undo : Error → Change σ Unit} {next : α → Change σ β}
    {good : α → Registry σ → Prop} {bad : Error → Registry σ → Prop} (ends : Ends good bad (change registry))
    (goes : ∀ a after, good a after → Settles holds undone (next a after))
    (undoes : ∀ e after, bad e after → Ends (fun _ last => undone last) (fun _ last => undone last) (undo e after)) :
    Settles holds undone ((undoing change undo >>= next) registry) :=
  Ends.bind.mpr ((undoing_ends ends undoes).imp goes fun _ _ left => left)

theorem claimed_some {path : String} {claim : Claim} (found : registry.atlas.directory? path = some claim) :
    claimed path registry = .ok claim registry := by
  simp only [claimed, bind_eq, get_eq, found]
  rfl

theorem claimed_none {path : String} (missing : registry.atlas.directory? path = none) :
    claimed path registry = .error (.notClaimed path) registry := by
  simp only [claimed, bind_eq, get_eq, missing]
  rfl

theorem onStore_ok {call : StoreCall σ α} {a : α} {store : σ} (ran : call registry.store = .ok a store) :
    onStore call registry = .ok a { registry with store } := by rw [onStore, ran]

theorem onStore_error {call : StoreCall σ α} {e : Error} {store : σ} (ran : call registry.store = .error e store) :
    onStore call registry = .error e { registry with store } := by rw [onStore, ran]

theorem quietly_onStore {call : StoreCall σ α} {a : α} {store : σ} (ran : call registry.store = .ok a store) :
    quietly (onStore call) registry = .ok () { registry with store } := by rw [quietly_eq, onStore_ok ran]

/-- The store takes a change back, and the failure is noted. -/
theorem takeBack_ok (registry : Registry σ) {call : StoreCall σ α} {a : α} {store : σ} (ran : call registry.store = .ok a store)
    (timing : Timing) (dir pattern : String) (e : Error) : ∃ next,
      (do quietly (onStore call); noteFailure timing dir pattern e : Change σ Unit) registry = .ok () next ∧
        next.store = store ∧ registry.Beside next := by
  obtain ⟨next, noted, sameStore, beside⟩ := noteFailure_ok timing dir pattern e { registry with store }
  exact ⟨next, by rw [bind_eq, quietly_onStore ran]; exact noted, sameStore, beside.atlas, beside.names⟩

theorem validate_ends (pattern : String) :
    Ends (fun _ next => next = registry ∧ Pattern.objection? pattern = none) (fun _ next => next = registry)
      (validate pattern registry) := by
  rw [validate, Pattern.validate]
  cases Pattern.objection? pattern with
  | none => exact ⟨rfl, rfl⟩
  | some reason => rfl

/-- Rules are admitted without a change, if they are new, and get the ids of their directories. -/
theorem admitted_ends (seen : List (String × Rule)) (dir : String) (rule : Rule) :
    Ends (fun made next => next = registry ∧ (∃ owner, registry.atlas.rules.directory? dir = some owner ∧
        made = { rule with directoryId := owner.id }) ∧ registry.atlas.rules.rule? dir rule.pattern = none ∧
        ∀ entry ∈ seen, ¬ (entry.1 = dir ∧ entry.2.pattern = rule.pattern))
      (fun _ next => next = registry) (admitted seen dir rule registry) := by
  rw [admitted]
  refine Ends.bind.mpr ((validate_ends rule.pattern).imp (fun _ next ⟨same, _⟩ => ?_) fun _ _ same => same)
  subst same
  cases found : next.atlas.directory? dir with
  | none =>
    rw [Ends.bind_error (claimed_none found)]
  | some claim =>
    rw [Ends.bind_ok (claimed_some found)]
    split
    · rfl
    · rename_i isNew
      rw [Bool.or_eq_true, not_or, List.any_eq_true] at isNew
      refine ⟨rfl, ⟨claim.directory, RuleSet.directory?_eq found, rfl⟩, ?_, fun entry member same => ?_⟩
      · rw [RuleSet.rule?_eq found]
        simpa [Catalog.contains] using isNew.1
      · exact isNew.2 ⟨entry, member, by simp [same]⟩

/-- Rules of claimed directories, with their ids. -/
def Owned (set : RuleSet) (batch : List (String × Rule)) : Prop :=
  ∀ entry ∈ batch, ∃ owner, set.directory? entry.1 = some owner ∧ owner.id = entry.2.directoryId

/-- Rules that can be added to their directories side by side. -/
structure Fits (set : RuleSet) (batch : List (String × Rule)) : Prop where
  owned : Owned set batch
  free : ∀ entry ∈ batch, set.rule? entry.1 entry.2.pattern = none
  apart : batch.Pairwise fun a b => ¬ (a.1 = b.1 ∧ a.2.pattern = b.2.pattern)

theorem Fits.nil (set : RuleSet) : Fits set [] := ⟨by simp [Owned], by simp, .nil⟩

/-- A batch is admitted if each of its rules fits the set and no two of them clash. -/
theorem admittedAll_ends (batch : List (String × Rule)) {seen : List (String × Rule)}
    (fits : Fits registry.atlas.rules seen) :
    Ends (fun all next => next = registry ∧ Fits registry.atlas.rules all ∧ all.length = seen.length + batch.length)
      (fun _ next => next = registry) (admittedAll seen batch registry) := by
  induction batch generalizing seen with
  | nil => exact ⟨rfl, fits, rfl⟩
  | cons entry batch ih =>
    obtain ⟨dir, rule⟩ := entry
    rw [admittedAll]
    refine Ends.bind.mpr ((admitted_ends seen dir rule).imp ?_ fun _ _ same => same)
    rintro rule' _ ⟨rfl, ⟨owner, claimed, rfl⟩, free, isNew⟩
    refine (ih ⟨fun entry member => ?_, fun entry member => ?_, ?_⟩).imp ?_ fun _ _ same => same
    · rcases List.mem_append.mp member with old | new
      · exact fits.owned entry old
      · rw [List.mem_singleton.mp new]
        exact ⟨owner, claimed, rfl⟩
    · rcases List.mem_append.mp member with old | new
      · exact fits.free entry old
      · rw [List.mem_singleton.mp new]
        exact free
    · refine List.pairwise_append.mpr ⟨fits.apart, List.pairwise_singleton _ _, fun entry old next new => ?_⟩
      rw [List.mem_singleton.mp new]
      exact isNew entry old
    · rintro all _ ⟨rfl, fitsAll, length⟩
      rw [List.length_append, List.length_singleton] at length
      exact ⟨rfl, fitsAll, by rw [length, List.length_cons, Nat.add_assoc, Nat.add_comm 1]⟩

/-- Snapshots are mounted without a change of the store or of the rules. -/
theorem addTree_settles {timing : Timing} {path : String}
    (keeps : ∀ build next, Atlas.addTreeFile registry.disk path registry.atlas = .ok build next →
      next.rules = registry.atlas.rules → next.dispatch = registry.atlas.dispatch → holds registry.store next) :
    Settles holds (fun next => next.store = registry.store ∧ registry.Beside next) (addTree timing path registry) := by
  rw [addTree, Settles, Ends.bind_ok get_eq]
  refine Ends.bind.mpr ((onAtlas_ends (Atlas.addTreeFile_ends registry.disk path)).imp ?_ ?_)
  · rintro build _ ⟨atlas, ⟨rules, dispatch⟩, ran, rfl⟩
    exact noted_settles _ _ _ (keeps build atlas ran rules dispatch)
  · rintro e _ ⟨atlas, rfl, _, rfl⟩
    exact ⟨rfl, rfl, rfl⟩

section

variable [RuleStore σ] [RuleStore.Lawful σ]

open RuleStore.Lawful (Holds)

/-- The store has the records of the rules in an atlas of which `good` holds, and room for new ones. -/
def Agrees (room : Nat) (timed : Prop) (good : Atlas → Prop) (store : σ) (atlas : Atlas) : Prop :=
  ∃ directories rules, Holds room store directories rules ∧ Recorded timed directories rules atlas.rules ∧ good atlas

/-- What agrees with an atlas is what the store holds. -/
theorem Agrees.recorded {room room' : Nat} {store : σ} {atlas : Atlas} {timed : Prop} {good : Atlas → Prop} {directories : List Directory}
    {rules : List Rule} (agrees : Agrees room timed good store atlas) (held : Holds room' store directories rules) :
    Recorded timed directories rules atlas.rules := by
  obtain ⟨directories', rules', held', recorded, _⟩ := agrees
  obtain ⟨first, second⟩ := RuleStore.Lawful.reads held
  obtain ⟨first', second'⟩ := RuleStore.Lawful.reads held'
  obtain ⟨rfl, _⟩ := EStateM.Result.ok.inj (first'.symm.trans first)
  obtain ⟨rfl, _⟩ := EStateM.Result.ok.inj (second'.symm.trans second)
  exact recorded

theorem Agrees.spent {count room : Nat} {store : σ} {atlas : Atlas} {timed : Prop} {good : Atlas → Prop}
    (agrees : Agrees (count + room) timed good store atlas) : Agrees room timed good store atlas := by
  obtain ⟨directories, rules, held, recorded, fine⟩ := agrees
  exact ⟨directories, rules, RuleStore.Lawful.spent held, recorded, fine⟩

/-- A registry that has failed to change: its store holds these records, and it applies the rules it applied before. -/
structure Undone (room : Nat) (directories : List Directory) (rules : List Rule) (registry next : Registry σ) : Prop
    extends registry.Beside next where
  held : Holds room next.store directories rules

variable {room room' : Nat} {timing : Timing} {timed : Prop} {good : Atlas → Prop} {directories : List Directory} {rules : List Rule}
variable {batch stored : List (String × Rule)}

/-- A registry that has undone a change agrees with its store. -/
theorem Undone.agrees {next : Registry σ} (undone : registry.Undone room directories rules next)
    (recorded : Recorded timed directories rules registry.atlas.rules) (fine : good registry.atlas) :
    Agrees room timed good next.store next.atlas :=
  ⟨directories, rules, undone.held, undone.atlas ▸ recorded, undone.atlas ▸ fine⟩

theorem Undone.spent {count : Nat} {next : Registry σ} (undone : registry.Undone (count + room) directories rules next) :
    registry.Undone room directories rules next := ⟨undone.toBeside, RuleStore.Lawful.spent undone.held⟩

/-- A change that fails before it has changed anything. -/
theorem Undone.of_eq {next : Registry σ} (kept : Holds room registry.store directories rules) (same : next = registry) :
    registry.Undone room directories rules next := by
  subst same
  exact ⟨⟨rfl, rfl⟩, kept⟩

/-- A claim is stored and applied, or neither. -/
theorem claim_settles {path : String} (kept : Holds room registry.store directories rules)
    (recorded : Recorded timed directories rules registry.atlas.rules) (claimedBy : String)
    (keeps : ∀ directory next, directory.path = path → Atlas.claim directory registry.atlas = .ok () next → good next) :
    Settles (Agrees room timed good) (registry.Undone room directories rules) (claim timing path claimedBy registry) := by
  rw [claim]
  refine Ends.bind.mpr ((onStore_ends (RuleStore.Lawful.createDirectory kept timing.seconds { path, claimedBy })).imp
    ?_ ?_)
  · rintro made _ ⟨store, ⟨same, fresh, directories', keptNext, rows⟩, rfl⟩
    refine undoing_settles (onAtlas_ends (Atlas.claim_ends made)) ?_ ?_
    · rintro _ _ ⟨atlas, ⟨ran, _⟩, applied, rfl⟩
      exact noted_settles _ _ _ ⟨directories', rules, keptNext, recorded.afterClaim ran rows fresh,
        keeps made atlas (by rw [same]) applied⟩
    · rintro e _ ⟨atlas, ⟨_, rfl⟩, _, rfl⟩
      obtain ⟨last, ran, keptLast⟩ := RuleStore.Lawful.removeDirectory keptNext made ((rows made).mpr (Or.inl rfl))
      rw [quietly_onStore ran]
      refine ⟨⟨rfl, rfl⟩, RuleStore.Lawful.holds_congr kept keptLast (Recorded.mem_filter_added rows fresh) fun r => ?_⟩
      simpa using recorded.directoryId_ne fresh r
  · rintro e _ ⟨store, keptNext, rfl⟩
    exact ⟨⟨rfl, rfl⟩, keptNext⟩

/-- Passing a claim on cannot fail any more when the store has been changed. -/
theorem passClaim_settles (kept : Holds room registry.store directories rules)
    (recorded : Recorded timed directories rules registry.atlas.rules) (path claimedBy : String)
    (keeps : ∀ directory next, Atlas.updateDirectory directory registry.atlas = .ok () next → good next) :
    Settles (Agrees room timed good) (registry.Undone room directories rules) (passClaim timing path claimedBy registry) := by
  rw [passClaim, Settles]
  cases found : registry.atlas.directory? path with
  | none =>
    rw [Ends.bind_error (claimed_none found)]
    exact .of_eq kept rfl
  | some claim =>
    rw [Ends.bind_ok (claimed_some found)]
    have claimed : registry.atlas.rules.get? path = some claim := found
    have known := RuleSet.directory?_eq claimed
    have samePath := recorded.sound.path_eq known
    have member := recorded.mem_of_known known
    obtain ⟨store, directories', ran, keptNext, rows⟩ :=
      RuleStore.Lawful.updateDirectory kept claim.directory member timing.seconds claimedBy
    rw [Ends.bind_ok (onStore_ok ran)]
    refine undoing_settles (onAtlas_ends (Atlas.updateDirectory_ends _)) ?_ ?_
    · rintro _ _ ⟨atlas, ⟨updated, _⟩, applied, rfl⟩
      refine noted_settles _ _ _ ⟨directories', rules, keptNext, ?_, keeps _ atlas applied⟩
      have before : registry.atlas.rules.directory? claim.directory.path = some claim.directory := by
        rw [← known, samePath]
      exact recorded.afterUpdateDirectory updated before rfl rows
    · rintro e _ ⟨atlas, ⟨failed, _⟩, _, rfl⟩
      have present : registry.atlas.rules.get? claim.directory.path = some claim := by rw [samePath, claimed]
      rw [RuleSet.updateDirectory_eq] at failed
      simp only [present] at failed
      cases failed

/-- Giving up a claim cannot fail any more when the atlas has been changed. -/
theorem revoke_settles {path : String} (kept : Holds room registry.store directories rules)
    (recorded : Recorded timed directories rules registry.atlas.rules)
    (keeps : ∀ directory next, Atlas.revoke path registry.atlas = .ok directory next → good next) :
    Settles (Agrees room timed good) (registry.Undone room directories rules) (revoke timing path registry) := by
  rw [revoke]
  refine Ends.bind.mpr ((onAtlas_ends (Atlas.revoke_ends path)).imp ?_ ?_)
  · rintro directory _ ⟨atlas, ⟨ran, _⟩, applied, rfl⟩
    obtain ⟨member, recordedNext⟩ := recorded.afterRevoke ran
    obtain ⟨store, removed, keptNext⟩ := RuleStore.Lawful.removeDirectory kept directory member
    have ends : Ends (fun _ next => next = store) (fun _ _ => False)
        (RuleStore.removeDirectory directory.id registry.store) := by
      rw [removed]
      rfl
    refine undoing_settles (onStore_ends ends) ?_ ?_
    · rintro _ _ ⟨_, rfl, rfl⟩
      exact noted_settles _ _ _ ⟨_, _, keptNext, recordedNext, keeps directory atlas applied⟩
    · rintro e _ ⟨_, impossible, _⟩
      exact impossible.elim
  · rintro e _ ⟨atlas, ⟨_, rfl⟩, _, rfl⟩
    exact .of_eq kept rfl

/-- A new rule is stored and applied, or neither. -/
theorem createRule_settles {dir : String} (kept : Holds (1 + room) registry.store directories rules)
    (recorded : Recorded timed directories rules registry.atlas.rules) (rule : Rule)
    (keeps : ∀ rule builds next, Atlas.addRule dir rule registry.atlas = .ok builds next → good next) :
    Settles (Agrees room timed good) (registry.Undone room directories rules) (createRule timing dir rule registry) := by
  rw [createRule]
  refine Ends.bind.mpr ((admitted_ends [] dir rule).imp ?_ fun _ _ same =>
    .of_eq (RuleStore.Lawful.spent kept) same)
  rintro rule' _ ⟨rfl, ⟨owner, claimed, rfl⟩, -⟩
  rename_i registry
  refine Ends.bind.mpr ((onStore_ends (RuleStore.Lawful.createRule kept timing.seconds _)).imp ?_ ?_)
  · rintro made _ ⟨store, ⟨same, fresh, rules', keptNext, rows⟩, rfl⟩
    have owns : owner.id = made.directoryId := by rw [same]
    refine undoing_settles (onAtlas_ends (Atlas.addRule_ends dir made)) ?_ ?_
    · rintro builds _ ⟨atlas, ⟨ran, _⟩, applied, rfl⟩
      exact noted_settles _ _ _ ⟨directories, rules', keptNext,
        (recorded.afterAddRule ran claimed owns (.refl timed made) rows fresh).1, keeps made builds atlas applied⟩
    · rintro e _ ⟨atlas, rfl, _, rfl⟩
      obtain ⟨last, ran, keptLast⟩ := RuleStore.Lawful.removeRule keptNext made ((rows made).mpr (Or.inl rfl))
      obtain ⟨next, taken, rfl, beside⟩ := takeBack_ok { registry with store } ran timing dir made.pattern e
      rw [taken]
      exact ⟨⟨beside.atlas, beside.names⟩, RuleStore.Lawful.holds_congr kept keptLast (fun _ => Iff.rfl)
        (Recorded.mem_filter_added rows fresh)⟩
  · rintro e _ ⟨store, keptNext, rfl⟩
    exact ⟨⟨rfl, rfl⟩, keptNext⟩

/-- The rules of a batch have been stored beside those that were there. -/
structure Stored (room : Nat) (directories : List Directory) (rules : List Rule) (batch : List (String × Rule)) (store : σ) :
    Prop where
  held : ∃ rules', Holds room store directories rules' ∧ ∀ r, r ∈ rules' ↔ r ∈ rules ∨ r ∈ batch.map (·.2)
  distinct : (batch.map (·.2.id)).Nodup
  fresh : ∀ entry ∈ batch, ∀ r ∈ rules, r.id ≠ entry.2.id

theorem Stored.nil (kept : Holds room registry.store directories rules) : Stored room directories rules [] registry.store :=
  ⟨⟨rules, kept, fun r => by simp⟩, .nil, fun entry member => absurd member List.not_mem_nil⟩

/-- The rules of a batch are taken away again, one after another. -/
theorem takeAll_spec (registry : Registry σ) (step : String × Rule → Change σ Unit)
    (steps : ∀ entry (registry : Registry σ) store, RuleStore.removeRule entry.2.id registry.store = .ok () store →
      ∃ next, step entry registry = .ok () next ∧ next.store = store ∧ registry.Beside next)
    (here : Stored room directories rules batch registry.store) : ∃ last,
      batch.forM step registry = .ok () last ∧ Stored room directories rules [] last.store ∧ registry.Beside last := by
  induction batch generalizing registry with
  | nil => exact ⟨registry, rfl, here, rfl, rfl⟩
  | cons entry batch ih =>
    obtain ⟨⟨rules', kept, rows⟩, distinct, fresh⟩ := here
    obtain ⟨notLater, distinctRest⟩ := List.pairwise_cons.mp distinct
    obtain ⟨store, removed, keptNext⟩ := RuleStore.Lawful.removeRule kept entry.2 ((rows entry.2).mpr (by simp))
    obtain ⟨next, ran, rfl, beside⟩ := steps entry registry store removed
    have apart : ∀ r, r ∈ rules ∨ r ∈ batch.map (·.2) → r.id ≠ entry.2.id := by
      rintro r (old | later)
      · exact fresh entry List.mem_cons_self r old
      · obtain ⟨next, listed, rfl⟩ := List.mem_map.mp later
        exact (notLater _ (List.mem_map_of_mem listed)).symm
    have left : Stored room directories rules batch next.store := by
      refine ⟨⟨_, keptNext, fun r => ?_⟩, distinctRest, fun next member => fresh next (List.mem_cons_of_mem _ member)⟩
      rw [List.mem_filter, rows, List.map_cons, List.mem_cons, decide_eq_true_eq]
      constructor
      · rintro ⟨old | rfl | later, differs⟩
        · exact Or.inl old
        · exact absurd rfl differs
        · exact Or.inr later
      · exact fun member => ⟨member.imp_right Or.inr, apart r member⟩
    obtain ⟨last, others, done, still⟩ := ih next left
    refine ⟨last, ?_, done, still.atlas.trans beside.atlas, still.names.trans beside.names⟩
    rw [List.forM, bind_eq, ran]
    exact others

/-- Whatever takes the rules of a batch away again, one after another, leaves what was stored before them. -/
theorem takeAll_undone (kept : Holds room' registry.store directories rules) {next : Registry σ} (beside : registry.Beside next)
    {step : String × Rule → Change σ Unit}
    (steps : ∀ entry (registry : Registry σ) store, RuleStore.removeRule entry.2.id registry.store = .ok () store →
      ∃ next, step entry registry = .ok () next ∧ next.store = store ∧ registry.Beside next)
    (here : Stored room directories rules batch next.store) :
    Ends (fun _ last => registry.Undone room directories rules last) (fun _ last => registry.Undone room directories rules last)
      (batch.forM step next) := by
  obtain ⟨last, ran, ⟨⟨rules', keptLast, rows⟩, _, _⟩, still⟩ := takeAll_spec next step steps here
  rw [ran]
  exact ⟨⟨still.atlas.trans beside.atlas, still.names.trans beside.names⟩,
    RuleStore.Lawful.holds_congr kept keptLast (fun _ => Iff.rfl) fun r => by simp [rows]⟩

/-- One rule more is stored, or none. -/
theorem Stored.create {store : σ} (here : Stored (1 + room) directories rules stored store) (now : Int) (dir : String)
    (rule : Rule) :
    Ends (fun made next => Stored room directories rules (stored ++ [(dir, made)]) next ∧
        made.directoryId = rule.directoryId)
      (fun _ next => Stored room directories rules stored next) (RuleStore.createRule now rule store) := by
  obtain ⟨⟨rules', kept, rows⟩, distinct, fresh⟩ := here
  refine (RuleStore.Lawful.createRule kept now rule).imp ?_ fun _ next keptNext => ⟨⟨rules', keptNext, rows⟩, distinct,
    fresh⟩
  rintro made next ⟨same, freshMade, rules'', keptNext, rowsNext⟩
  refine ⟨⟨⟨rules'', keptNext, fun r => ?_⟩, ?_, fun entry member r old => ?_⟩, by rw [same]⟩
  · rw [rowsNext, rows, List.map_append, List.mem_append, List.map_singleton, List.mem_singleton]
    exact or_comm.trans or_assoc
  · rw [List.map_append, List.nodup_append]
    refine ⟨distinct, List.pairwise_singleton _ _, fun id inStored other new equal => ?_⟩
    obtain ⟨entry, listed, rfl⟩ := List.mem_map.mp inStored
    rw [List.map_singleton, List.mem_singleton] at new
    exact freshMade entry.2 ((rows _).mpr (Or.inr (List.mem_map_of_mem listed))) (equal.trans new)
  · rcases List.mem_append.mp member with before | new
    · exact fresh entry before r old
    · rw [List.mem_singleton.mp new]
      exact freshMade r ((rows r).mpr (Or.inl old))

/-- Either all rules of a batch are stored, or none. -/
theorem storeAll_ends (kept : Holds room' registry.store directories rules) (batch : List (String × Rule))
    {next : Registry σ} (beside : registry.Beside next)
    (here : Stored (batch.length + room) directories rules stored next.store)
    (owned : Owned registry.atlas.rules stored) (also : Owned registry.atlas.rules batch) :
    Ends (fun all last => registry.Beside last ∧ Stored room directories rules all last.store ∧
        Owned registry.atlas.rules all)
      (fun _ last => registry.Undone room directories rules last) (storeAll timing stored batch next) := by
  induction batch generalizing next stored with
  | nil =>
    rw [List.length_nil, Nat.zero_add] at here
    exact ⟨beside, here, owned⟩
  | cons entry batch ih =>
    obtain ⟨dir, rule⟩ := entry
    rw [List.length_cons, Nat.add_comm batch.length, Nat.add_assoc] at here
    rw [storeAll]
    have created : Ends _ _ (onStore (RuleStore.createRule timing.seconds rule) next) :=
      onStore_ends (here.create timing.seconds dir rule)
    refine Ends.bind.mpr ((undoing_ends created ?_).imp ?_ fun _ _ left => left)
    · rintro e _ ⟨store, left, rfl⟩
      have still : registry.Beside { next with store } := ⟨beside.atlas, beside.names⟩
      refine (takeAll_undone kept still (fun _ _ store removed => ?_) left).imp ?_ ?_
      · exact ⟨_, quietly_onStore removed, rfl, rfl, rfl⟩
      · exact fun _ _ undone => undone.spent
      · exact fun _ _ undone => undone.spent
    · rintro made _ ⟨store, ⟨left, sameId⟩, rfl⟩
      refine ih ⟨beside.atlas, beside.names⟩ left (fun entry member => ?_)
        fun entry member => also entry (List.mem_cons_of_mem _ member)
      rcases List.mem_append.mp member with old | new
      · exact owned entry old
      · rw [List.mem_singleton.mp new, sameId]
        exact also (dir, rule) List.mem_cons_self

/-- A batch of new rules is stored and applied as a whole, or not at all. -/
theorem createRules_settles {batch : List (String × Rule)}
    (kept : Holds (batch.length + room) registry.store directories rules)
    (recorded : Recorded timed directories rules registry.atlas.rules)
    (keeps : ∀ batch builds next, Atlas.addRules batch registry.atlas = .ok builds next → good next) :
    Settles (Agrees room timed good) (registry.Undone room directories rules) (createRules timing batch registry) := by
  rw [createRules]
  refine Ends.bind.mpr ((admittedAll_ends batch (Fits.nil _)).imp ?_ fun _ _ same =>
    .of_eq (RuleStore.Lawful.spent kept) same)
  rintro admitted _ ⟨rfl, fits, length⟩
  rename_i registry
  rw [List.length_nil, Nat.zero_add] at length
  rw [← length] at kept
  refine Ends.bind.mpr ((storeAll_ends kept admitted ⟨rfl, rfl⟩ (Stored.nil kept)
    (fun entry member => absurd member List.not_mem_nil) fits.owned).imp ?_ fun _ _ left => left)
  rintro all next ⟨beside, stored, ownedAll⟩
  refine undoing_settles (onAtlas_ends (Atlas.addRules_ends all)) ?_ ?_
  · rintro builds _ ⟨atlas, ⟨ran, _⟩, applied, rfl⟩
    rw [beside.atlas] at ran applied
    obtain ⟨⟨rules', keptNext, rows⟩, distinct, fresh⟩ := stored
    exact noted_settles _ _ _ ⟨directories, rules', keptNext, recorded.afterAddRules ran ownedAll rows distinct fresh,
      keeps all builds atlas applied⟩
  · rintro e _ ⟨atlas, rfl, _, rfl⟩
    refine takeAll_undone kept ⟨beside.atlas, beside.names⟩ (fun entry registry store removed => ?_) stored
    obtain ⟨dir, rule⟩ := entry
    exact takeBack_ok registry removed timing dir rule.pattern e

/-- The row of a rule can be removed and then be put back, with the time that the rule has where it is applied. -/
theorem removeRule_stored {dir pattern : String} {rule : Rule} {before : σ} {set : RuleSet}
    (kept : Holds room before directories rules) (recorded : Recorded timed directories rules set)
    (known : set.rule? dir pattern = some rule) :
    ∃ store, RuleStore.removeRule rule.id before = .ok () store ∧
      Holds room store directories (rules.filter (·.id ≠ rule.id)) ∧
      ∃ last, RuleStore.restoreRule rule store = .ok () last ∧
        Holds room last directories (rules.map (Rule.redated rule.id rule.modified)) := by
  have samePattern := recorded.sound.pattern_eq known
  obtain ⟨row, member, equal⟩ := recorded.stored dir pattern rule known
  obtain ⟨sameId, _, _⟩ := equal.fields
  obtain ⟨store, removed, keptNext⟩ := RuleStore.Lawful.removeRule kept row member
  obtain ⟨owner, ownerAt, owns⟩ := recorded.owned dir pattern rule known
  have ownerIn := recorded.mem_of_known ownerAt
  have free := recorded.free ownerAt owns fun other here => by
    rw [samePattern, known] at here
    rw [Option.some.inj here]
  obtain ⟨last, rules', restored, keptLast, rows⟩ :=
    RuleStore.Lawful.restoreRule kept row member store rule removed sameId.symm ⟨owner, ownerIn, owns⟩ free
  have same : ∀ r, r ∈ rules' ↔ r ∈ rules.map (Rule.redated rule.id rule.modified) := fun r =>
    (rows r).trans (recorded.mem_redated member equal rule.modified r).symm
  rw [sameId] at removed keptNext
  exact ⟨store, removed, keptNext, last, restored, RuleStore.Lawful.holds_redated kept keptLast same⟩

/-- A rule is removed from the store and from the set, or from neither. -/
theorem removeRule_settles {dir pattern : String} (kept : Holds room registry.store directories rules)
    (recorded : Recorded timed directories rules registry.atlas.rules)
    (keeps : ∀ answer next, Atlas.removeRule dir pattern registry.atlas = .ok answer next → good next) :
    Settles (Agrees room timed good) (fun next => registry.Undone room directories rules next ∨
        ∃ rule, registry.atlas.rules.rule? dir pattern = some rule ∧
          registry.Undone room directories (rules.map (Rule.redated rule.id rule.modified)) next)
      (removeRule timing dir pattern registry) := by
  rw [removeRule, Settles]
  cases found : registry.atlas.directory? dir with
  | none =>
    rw [Ends.bind_error (claimed_none found)]
    exact Or.inl (.of_eq kept rfl)
  | some claim =>
    rw [Ends.bind_ok (claimed_some found)]
    cases listed : claim.rules.get? pattern with
    | none => exact Or.inl (.of_eq kept rfl)
    | some rule =>
      have known : registry.atlas.rules.rule? dir pattern = some rule := by rw [RuleSet.rule?_eq found, listed]
      obtain ⟨store, removed, keptNext, last, restored, keptLast⟩ := removeRule_stored kept recorded known
      rw [Ends.bind_ok (onStore_ok removed)]
      refine undoing_settles (onAtlas_ends (Atlas.removeRule_ends dir pattern)) ?_ ?_
      · rintro ⟨gone, builds⟩ _ ⟨atlas, ⟨ran, _⟩, applied, rfl⟩
        have same : gone = rule := by
          rw [RuleSet.removeRule_eq] at ran
          simp only [show registry.atlas.rules.get? dir = some claim from found, listed] at ran
          exact (EStateM.Result.ok.inj ran).1.symm
        subst same
        exact noted_settles _ _ _ ⟨directories, _, keptNext, recorded.afterRemoveRule ran, keeps _ atlas applied⟩
      · rintro e _ ⟨atlas, rfl, _, rfl⟩
        obtain ⟨next, taken, rfl, beside⟩ := takeBack_ok { registry with store } restored timing dir pattern e
        rw [taken]
        exact Or.inr ⟨rule, known, ⟨beside.atlas, beside.names⟩, keptLast⟩

/-- A row that was written over is put back, but the time of its last change is that of putting it back. -/
theorem writeBack {dir : String} {previous written row : Rule} {rules' : List Rule} {before store : σ} {set : RuleSet}
    (kept : Holds room before directories rules) (recorded : Recorded timed directories rules set) (member : row ∈ rules)
    (known : set.rule? dir previous.pattern = some previous) (alike : row.Alike timed previous)
    (keptNext : Holds room store directories rules') (sameId : written.id = previous.id)
    (sameDirectory : written.directoryId = previous.directoryId) (sameCreated : written.created = previous.created)
    (rows : ∀ r, r ∈ rules' ↔ r = written ∨ r ∈ rules ∧ r.id ≠ written.id) (now : Int) :
    ∃ back last, RuleStore.updateRule now previous store = .ok back last ∧
      Holds room last directories (rules.map (Rule.redated previous.id now)) := by
  rw [sameId] at rows
  obtain ⟨owner, claimed, owns⟩ := recorded.owned dir previous.pattern previous known
  have free := recorded.free claimed owns fun other here => by rw [Option.some.inj (here.symm.trans known)]
  have freeNow : ∀ r ∈ rules', r.directoryId = previous.directoryId → r.pattern = previous.pattern →
      r.id = previous.id := by
    intro r inRules
    rcases (rows r).mp inRules with rfl | ⟨old, _⟩
    · exact fun _ _ => sameId
    · exact free r old
  obtain ⟨last, rules'', back, keptLast, rowsLast⟩ := RuleStore.Lawful.updateRule keptNext written
    ((rows written).mpr (Or.inl rfl)) now previous sameId.symm sameDirectory.symm sameCreated.symm freeNow
  refine ⟨_, last, back, RuleStore.Lawful.holds_redated kept keptLast fun r => ?_⟩
  rw [rowsLast, rows, recorded.mem_redated member alike]
  refine or_congr_right ⟨?_, fun ⟨old, differs⟩ => ⟨Or.inr ⟨old, differs⟩, differs⟩⟩
  rintro ⟨rfl | old, differs⟩
  · exact absurd sameId differs
  · exact old

/-- The row of a rule can be written over and then be put back, but for its time. -/
theorem updateRule_stored {dir : String} {claim : Claim} {rule previous : Rule} {before : σ} {set : RuleSet}
    (kept : Holds room before directories rules) (recorded : Recorded timed directories rules set)
    (found : set.get? dir = some claim) (listed : claim.rules.values.find? (·.id == rule.id) = some previous)
    (free : ¬ (rule.pattern ≠ previous.pattern ∧ claim.rules.contains rule.pattern)) (now : Int) {changed : Rule}
    (changes : changed = { rule with directoryId := previous.directoryId, created := previous.created }) :
    ∃ store rules', RuleStore.updateRule now changed before = .ok { changed with modified := now } store ∧
      Holds room store directories rules' ∧
      (∀ r, r ∈ rules' ↔ r = { changed with modified := now } ∨ r ∈ rules ∧ r.id ≠ changed.id) ∧
      ∃ back last, RuleStore.updateRule now previous store = .ok back last ∧
        Holds room last directories (rules.map (Rule.redated previous.id now)) := by
  obtain ⟨known, sameId⟩ := recorded.sound.rule?_of_find? found listed
  obtain ⟨owner, claimed, owns⟩ := recorded.owned dir previous.pattern previous known
  obtain ⟨row, member, equal⟩ := recorded.stored dir previous.pattern previous known
  obtain ⟨rowId, rowDirectory, _⟩ := equal.fields
  have sameFields : changed.id = rule.id ∧ changed.directoryId = previous.directoryId ∧
      changed.pattern = rule.pattern ∧ changed.created = previous.created := by
    rw [changes]
    exact ⟨rfl, rfl, rfl, rfl⟩
  obtain ⟨changedId, changedDirectory, changedPattern, changedCreated⟩ := sameFields
  have only : ∀ other, set.rule? dir changed.pattern = some other → other.id = changed.id := by
    intro other here
    rw [changedPattern] at here
    by_cases keeps : rule.pattern = previous.pattern
    · rw [keeps, known] at here
      rw [← Option.some.inj here, changedId, sameId]
    · rw [RuleSet.rule?_eq found] at here
      exact absurd ⟨keeps, by rw [Catalog.contains, here]; rfl⟩ free
  obtain ⟨store, rules', updated, keptNext, rows⟩ :=
    RuleStore.Lawful.updateRule kept row member now changed (by rw [changedId, rowId, sameId])
      (by rw [changedDirectory, rowDirectory]) (by rw [changedCreated, equal.created])
      (recorded.free claimed (by rw [owns, changedDirectory]) only)
  have writtenId : ({ changed with modified := now } : Rule).id = previous.id := changedId.trans sameId.symm
  exact ⟨store, rules', updated, keptNext, rows,
    writeBack kept recorded member known equal keptNext writtenId changedDirectory changedCreated rows now⟩

/-- An update that cannot be applied leaves its time on the record of the rule. -/
theorem updateRule_settles {dir : String} (kept : Holds room registry.store directories rules)
    (recorded : Recorded timed directories rules registry.atlas.rules) (rule : Rule)
    (keeps : ∀ rule builds next, Atlas.updateRule dir rule registry.atlas = .ok builds next → good next) :
    Settles (Agrees room timed good) (fun next => registry.Undone room directories rules next ∨ ¬ registry.atlas.Applies ∧
        registry.Undone room directories (rules.map (Rule.redated rule.id timing.seconds)) next)
      (updateRule timing dir rule registry) := by
  rw [updateRule]
  refine Ends.bind.mpr ((validate_ends rule.pattern).imp ?_ fun _ _ same => Or.inl (.of_eq kept same))
  rintro _ _ ⟨rfl, allowed⟩
  rename_i registry
  cases found : registry.atlas.directory? dir with
  | none =>
    rw [Ends.bind_error (claimed_none found)]
    exact Or.inl (.of_eq kept rfl)
  | some claim =>
    rw [Ends.bind_ok (claimed_some found)]
    cases listed : claim.rules.values.find? (·.id == rule.id) with
    | none => exact Or.inl (.of_eq kept rfl)
    | some previous =>
      obtain ⟨known, sameId⟩ := recorded.sound.rule?_of_find? found listed
      obtain ⟨owner, claimed, owns⟩ := recorded.owned dir previous.pattern previous known
      dsimp only
      split
      · exact Or.inl (.of_eq kept rfl)
      · rename_i free
        generalize changes : ({ rule with directoryId := previous.directoryId, created := previous.created } : Rule) =
          changed
        obtain ⟨store, rules', updated, keptNext, rows, back, last, undone, keptLast⟩ :=
          updateRule_stored kept recorded found listed free timing.seconds changes.symm
        rw [Ends.bind_ok (onStore_ok updated)]
        refine undoing_settles (onAtlas_ends (Atlas.updateRule_ends dir _)) ?_ ?_
        · rintro builds _ ⟨atlas, ⟨old, ran, _⟩, applied, rfl⟩
          have ownsChanged : owner.id = changed.directoryId := by rw [owns, ← changes]
          exact noted_settles _ _ _ ⟨directories, rules', keptNext,
            recorded.afterUpdateRule ran claimed ownsChanged (.refl timed _) rows, keeps _ _ atlas applied⟩
        · rintro e _ ⟨atlas, rfl, failed, rfl⟩
          have refused : ¬ registry.atlas.Applies := fun applies => by
            have taken : ∃ next, RuleSet.updateRule dir { changed with modified := timing.seconds } registry.atlas.rules =
                .ok previous next := by
              subst changes
              exact RuleSet.updateRule_admitted found allowed listed free
            obtain ⟨next, taken⟩ := taken
            obtain ⟨builds, last, applied⟩ := applies dir _ previous next taken
            cases applied.symm.trans failed
          obtain ⟨next, taken, rfl, beside⟩ := takeBack_ok { registry with store } undone timing dir changed.pattern e
          dsimp only
          rw [taken, ← sameId]
          exact Or.inr ⟨refused, ⟨beside.atlas, beside.names⟩, keptLast⟩

end

end Registry
end BackupAtlas
