import BackupAtlas.Proofs.TwinRuns

namespace BackupAtlas

/-- What is noted of the id of a rule. -/
inductive IdNote where
  /-- A new rule got it. -/
  | assigned (id : Nat)
  /-- A rule was put back with it. -/
  | restored (id : Nat)
  deriving DecidableEq

def IdNote.id : IdNote → Nat
  | assigned id => id
  | restored id => id

/-- A store with the ids that new rules got and that rules were put back with, the latest first. -/
structure NotingStore (σ : Type) where
  store : σ
  notes : List IdNote := []
  deriving DecidableEq

namespace NotingStore

variable {σ α : Type}

/-- Calls the store, and takes note of its answer. -/
def call (note : α → List IdNote) (act : StoreCall σ α) : StoreCall (NotingStore σ) α := fun { store, notes } =>
  match act store with
  | .ok a store => .ok a { store, notes := note a ++ notes }
  | .error e store => .error e { store, notes }

instance [RuleStore σ] : RuleStore (NotingStore σ) where
  readDirectories := call (fun _ => []) RuleStore.readDirectories
  readRules := call (fun _ => []) RuleStore.readRules
  createDirectory now directory := call (fun _ => []) (RuleStore.createDirectory now directory)
  updateDirectory now directory := call (fun _ => []) (RuleStore.updateDirectory now directory)
  removeDirectory id := call (fun _ => []) (RuleStore.removeDirectory id)
  createRule now rule := call (fun made => [.assigned made.id]) (RuleStore.createRule now rule)
  updateRule now rule := call (fun _ => []) (RuleStore.updateRule now rule)
  removeRule id := call (fun _ => []) (RuleStore.removeRule id)
  restoreRule rule := call (fun _ => [.restored rule.id]) (RuleStore.restoreRule rule)

/-- To note ids changes neither the answer of a call nor the store below. -/
theorem call_seen (note : α → List IdNote) (act : StoreCall σ α) (noting : NotingStore σ) :
    act noting.store = seen id store (call note act noting) := by
  rw [call]
  cases act noting.store <;> rfl

end NotingStore

/-- A call that may change a store. -/
inductive StoreRequest where
  | createDirectory (now : Int) (directory : Directory)
  | updateDirectory (now : Int) (directory : Directory)
  | removeDirectory (id : Int)
  | createRule (now : Int) (rule : Rule)
  | updateRule (now : Int) (rule : Rule)
  | removeRule (id : Nat)
  | restoreRule (rule : Rule)

namespace StoreRequest

variable {σ : Type} [RuleStore σ]

def perform : StoreRequest → StoreCall σ Unit
  | createDirectory now directory => discard (RuleStore.createDirectory now directory)
  | updateDirectory now directory => discard (RuleStore.updateDirectory now directory)
  | removeDirectory id => RuleStore.removeDirectory id
  | createRule now rule => discard (RuleStore.createRule now rule)
  | updateRule now rule => discard (RuleStore.updateRule now rule)
  | removeRule id => RuleStore.removeRule id
  | restoreRule rule => RuleStore.restoreRule rule

/-- The store that a request leaves, whether it succeeds or fails. -/
def leaves (store : σ) (request : StoreRequest) : σ :=
  match request.perform store with
  | .ok () next => next
  | .error _ next => next

end StoreRequest

namespace Registry

variable {σ α β : Type}

/-- The registry without the notes. -/
def plain (registry : Registry (NotingStore σ)) : Registry σ := registry.keeping registry.store.store

theorem plain_atlas (registry : Registry (NotingStore σ)) : registry.plain.atlas = registry.atlas := rfl

/-- A change that does not depend on the notes. -/
def Ignores (change : Change (NotingStore σ) α) (bare : Change σ α) : Prop :=
  ∀ registry, bare registry.plain = seen id plain (change registry)

namespace Ignores

theorem pure (a : α) : Ignores (Pure.pure a : Change (NotingStore σ) α) (Pure.pure a) := fun _ => rfl

theorem throw (e : Error) : Ignores (MonadExcept.throw e : Change (NotingStore σ) α) (MonadExcept.throw e) :=
  fun _ => rfl

/-- Changes that ignore the notes can be joined. -/
theorem bind {change : Change (NotingStore σ) α} {bare : Change σ α} {next : α → Change (NotingStore σ) β}
    {bareNext : α → Change σ β} (first : Ignores change bare) (second : ∀ a, Ignores (next a) (bareNext a)) :
    Ignores (change >>= next) (bare >>= bareNext) :=
  fun registry => seen_bind (first registry) fun a after _ => second a after

theorem forM {change : β → Change (NotingStore σ) Unit} {bare : β → Change σ Unit} (items : List β)
    (each : ∀ item, Ignores (change item) (bare item)) : Ignores (items.forM change) (items.forM bare) := by
  induction items with
  | nil => exact .pure ()
  | cons item items ih => exact (each item).bind fun _ => ih

/-- A call of the store that is noted is ignored. -/
theorem onStore {call : StoreCall (NotingStore σ) α} {act : StoreCall σ α}
    (same : ∀ noting : NotingStore σ, act noting.store = seen id NotingStore.store (call noting)) :
    Ignores (Registry.onStore call) (Registry.onStore act) := by
  intro registry
  rw [Registry.onStore, Registry.onStore, show registry.plain.store = registry.store.store from rfl, same]
  cases call registry.store <;> rfl

theorem onAtlas (change : Atlas.Change α) : Ignores (Registry.onAtlas change) (Registry.onAtlas change : Change σ α) := by
  intro registry
  rw [Registry.onAtlas, Registry.onAtlas, plain_atlas]
  cases change registry.atlas <;> rfl

theorem note (timing : Timing) (event : JournalEvent) :
    Ignores (Registry.note timing event) (Registry.note timing event : Change σ Unit) := fun _ => rfl

theorem noteFailure (timing : Timing) (dir pattern : String) (e : Error) :
    Ignores (Registry.noteFailure timing dir pattern e) (Registry.noteFailure timing dir pattern e : Change σ Unit) := by
  rw [Registry.noteFailure, Registry.noteFailure]
  split
  · exact .pure ()
  · exact .note timing _

theorem quietly {change : Change (NotingStore σ) α} {bare : Change σ α} (same : Ignores change bare) :
    Ignores (Registry.quietly change) (Registry.quietly bare) := by
  intro registry
  rw [quietly_eq, quietly_eq, same]
  cases change registry <;> rfl

/-- A change that is undone ignores the notes if the change and its undoing do. -/
theorem undoing {change : Change (NotingStore σ) α} {bare : Change σ α} {undo : Error → Change (NotingStore σ) Unit}
    {bareUndo : Error → Change σ Unit} (same : Ignores change bare) (undone : ∀ e, Ignores (undo e) (bareUndo e)) :
    Ignores (Registry.undoing change undo) (Registry.undoing bare bareUndo) := by
  intro registry
  rw [undoing_eq, undoing_eq, same]
  cases ran : change registry with
  | ok a next => rfl
  | error e next =>
    simp only [seen, undone e next]
    cases undo e next <;> rfl

theorem claimed (path : String) : Ignores (Registry.claimed path) (Registry.claimed path : Change σ Claim) := by
  intro registry
  cases found : registry.atlas.directory? path with
  | some claim =>
    rw [claimed_some found, claimed_some (show registry.plain.atlas.directory? path = some claim from found)]
    rfl
  | none =>
    rw [claimed_none found, claimed_none (show registry.plain.atlas.directory? path = none from found)]
    rfl

theorem admitted (seen : List (String × Rule)) (dir : String) (rule : Rule) :
    Ignores (Registry.admitted seen dir rule) (Registry.admitted seen dir rule : Change σ Rule) := by
  refine bind (onAtlas _) fun _ => bind (claimed dir) fun claim => ?_
  split
  · exact fun _ => rfl
  · exact .pure _

theorem admittedAll (batch seen : List (String × Rule)) :
    Ignores (Registry.admittedAll seen batch) (Registry.admittedAll seen batch : Change σ (List (String × Rule))) := by
  induction batch generalizing seen with
  | nil => exact .pure seen
  | cons entry batch ih => exact bind (admitted seen entry.1 entry.2) fun rule => ih _

theorem addTree (timing : Timing) (path : String) :
    Ignores (Registry.addTree timing path) (Registry.addTree timing path : Change σ MountBuild) := by
  intro registry
  have got : (get : Change σ (Registry σ)) registry.plain =
    seen plain plain ((get : Change (NotingStore σ) (Registry (NotingStore σ))) registry) := rfl
  refine seen_bind got fun before after _ => ?_
  exact bind (onAtlas _) (fun build => bind (note timing _) fun _ => .pure build) after

theorem discard {change : Change (NotingStore σ) α} {bare : Change σ α} (same : Ignores change bare) :
    Ignores (Functor.discard change) (Functor.discard bare) := by
  intro registry
  rw [discard_eq, discard_eq, same]
  cases change registry <;> rfl

theorem mountConfigured (config : Config) (timing : Timing) (atlas : Atlas) :
    Ignores (Registry.mountConfigured config timing atlas) (Registry.mountConfigured config timing atlas : Change σ Unit) :=
  bind (note timing _) fun _ => forM config.snapshotFiles fun path => discard (addTree timing path)

variable [RuleStore σ] (timing : Timing)

theorem removeStored (id : Nat) : Ignores (Registry.quietly (Registry.onStore (RuleStore.removeRule id)))
    (Registry.quietly (Registry.onStore (RuleStore.removeRule id)) : Change σ Unit) :=
  quietly (onStore (NotingStore.call_seen _ _))

theorem claim (path claimedBy : String) : Ignores (Registry.claim timing path claimedBy)
    (Registry.claim timing path claimedBy : Change σ Directory) := by
  refine bind (onStore (NotingStore.call_seen _ _)) fun directory => bind (undoing (onAtlas _) fun _ => ?_) fun _ =>
    bind (note timing _) fun _ => .pure directory
  exact quietly (onStore (NotingStore.call_seen _ _))

theorem passClaim (path claimedBy : String) : Ignores (Registry.passClaim timing path claimedBy)
    (Registry.passClaim timing path claimedBy : Change σ Directory) := by
  refine bind (claimed path) fun previous => bind (onStore (NotingStore.call_seen _ _)) fun directory =>
    bind (undoing (onAtlas _) fun _ => ?_) fun _ => bind (note timing _) fun _ => .pure directory
  exact quietly (onStore (NotingStore.call_seen _ _))

theorem revoke (path : String) : Ignores (Registry.revoke timing path)
    (Registry.revoke timing path : Change σ Directory) := by
  refine bind (onAtlas _) fun directory => bind (undoing (onStore (NotingStore.call_seen _ _)) fun _ => ?_) fun _ =>
    bind (note timing _) fun _ => .pure directory
  exact quietly (onAtlas _)

/-- To create a rule ignores the notes. -/
theorem createRule (dir : String) (rule : Rule) : Ignores (Registry.createRule timing dir rule)
    (Registry.createRule timing dir rule : Change σ RuleChange) := by
  refine bind (admitted [] dir rule) fun _ => bind (onStore (NotingStore.call_seen _ _)) fun rule =>
    bind (undoing (onAtlas _) fun e => ?_) fun builds => bind (note timing _) fun _ => .pure (rule, builds)
  exact bind (removeStored rule.id) fun _ => noteFailure timing dir rule.pattern e

theorem storeAll (batch stored : List (String × Rule)) : Ignores (Registry.storeAll timing stored batch)
    (Registry.storeAll timing stored batch : Change σ (List (String × Rule))) := by
  induction batch generalizing stored with
  | nil => exact .pure stored
  | cons entry batch ih =>
    refine bind (undoing (onStore (NotingStore.call_seen _ _)) fun _ => ?_) fun rule => ih _
    exact forM stored fun entry => removeStored entry.2.id

theorem createRules (batch : List (String × Rule)) : Ignores (Registry.createRules timing batch)
    (Registry.createRules timing batch : Change σ (List (String × Rule) × List MountBuild)) := by
  refine bind (admittedAll batch []) fun admitted => bind (storeAll timing admitted []) fun rules =>
    bind (undoing (onAtlas _) fun e => ?_) fun builds => bind (note timing _) fun _ => .pure (rules, builds)
  exact forM rules fun entry => bind (removeStored entry.2.id) fun _ => noteFailure timing entry.1 entry.2.pattern e

theorem removeRule (dir pattern : String) : Ignores (Registry.removeRule timing dir pattern)
    (Registry.removeRule timing dir pattern : Change σ RuleChange) := by
  refine bind (claimed dir) fun claim => ?_
  cases claim.rules.get? pattern with
  | none => exact throw _
  | some rule =>
    refine bind (onStore (NotingStore.call_seen _ _)) fun _ => bind (undoing (onAtlas _) fun e => ?_) fun answer =>
      bind (note timing _) fun _ => .pure (rule, answer.2)
    exact bind (quietly (onStore (NotingStore.call_seen _ _))) fun _ => noteFailure timing dir pattern e

theorem updateRule (dir : String) (rule : Rule) : Ignores (Registry.updateRule timing dir rule)
    (Registry.updateRule timing dir rule : Change σ RuleChange) := by
  refine bind (onAtlas _) fun _ => bind (claimed dir) fun claim => ?_
  cases claim.rules.values.find? (·.id == rule.id) with
  | none => exact throw _
  | some previous =>
    dsimp only
    split
    · exact fun _ => rfl
    · refine bind (onStore (NotingStore.call_seen _ _)) fun rule => bind (undoing (onAtlas _) fun e => ?_) fun builds =>
        bind (note timing _) fun _ => .pure (rule, builds)
      exact bind (quietly (onStore (NotingStore.call_seen _ _))) fun _ => noteFailure timing dir rule.pattern e

/-- No operation of a registry depends on the notes. -/
theorem perform (op : Op) : Ignores (op.perform timing) (op.perform timing : Change σ Answer) := by
  cases op with
  | claim path claimedBy => exact bind (claim timing path claimedBy) fun _ => .pure _
  | passClaim path claimedBy => exact bind (passClaim timing path claimedBy) fun _ => .pure _
  | revoke path => exact bind (revoke timing path) fun _ => .pure _
  | createRule dir rule => exact bind (createRule timing dir rule) fun _ => .pure _
  | createRules batch => exact bind (createRules timing batch) fun _ => .pure _
  | removeRule dir pattern => exact bind (removeRule timing dir pattern) fun _ => .pure _
  | updateRule dir rule => exact bind (updateRule timing dir rule) fun _ => .pure _
  | addTree disk path =>
    exact bind (fun _ => rfl) fun _ => bind (addTree timing path) fun _ => .pure _

end Ignores

variable [RuleStore σ]

end Registry
end BackupAtlas
