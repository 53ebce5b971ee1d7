import BackupAtlas.RuleStore

namespace BackupAtlas

inductive StoreMethod where
  | readDirectories
  | readRules
  | createDirectory
  | updateDirectory
  | removeDirectory
  | createRule
  | updateRule
  | removeRule
  | restoreRule
  deriving DecidableEq, Repr

namespace StoreMethod

def text : StoreMethod → String
  | readDirectories => "read_directories"
  | readRules => "read_rules"
  | createDirectory => "create_directory"
  | updateDirectory => "update_directory"
  | removeDirectory => "remove_directory"
  | createRule => "create_rule"
  | updateRule => "update_rule"
  | removeRule => "remove_rule"
  | restoreRule => "restore_rule"

def ofText? (text : String) : Option StoreMethod :=
  [readDirectories, readRules, createDirectory, updateDirectory, removeDirectory, createRule,
    updateRule, removeRule, restoreRule].find? (·.text == text)

end StoreMethod

/-- A failure to come: calls of the method succeed `after` times more, and then one fails. -/
structure PlannedFailure where
  method : StoreMethod
  after : Nat
  deriving DecidableEq, Repr

/-- A store that can fail at any call. Which of the calls to come fail is planned ahead, so whatever
holds for all plans holds for all failures. A call that fails does not reach the store. -/
structure FallibleStore (σ : Type) where
  store : σ
  /-- For each method the first plan counts; the next one when it has been carried out. -/
  plans : List PlannedFailure := []
  deriving DecidableEq, Repr

namespace FallibleStore

variable {σ α : Type}

def plan (failure : PlannedFailure) (store : FallibleStore σ) : FallibleStore σ :=
  { store with plans := store.plans ++ [failure] }

/-- Whether a call of the method fails now, and the plans that are left. -/
def take (method : StoreMethod) : List PlannedFailure → Bool × List PlannedFailure
  | [] => (false, [])
  | first :: others =>
    if first.method = method then
      match first.after with
      | 0 => (true, others)
      | after + 1 => (false, { first with after } :: others)
    else
      let (fails, others) := take method others
      (fails, first :: others)

/-- Calls the store, unless the call is planned to fail. -/
def call (method : StoreMethod) (act : StoreCall σ α) : StoreCall (FallibleStore σ) α :=
  fun { store, plans } =>
    let (fails, plans) := take method plans
    if fails then .error (.sql "injected" method.text) { store, plans }
    else
      match act store with
      | .ok a store => .ok a { store, plans }
      | .error e store => .error e { store, plans }

instance [RuleStore σ] : RuleStore (FallibleStore σ) where
  readDirectories := call .readDirectories RuleStore.readDirectories
  readRules := call .readRules RuleStore.readRules
  createDirectory now directory := call .createDirectory (RuleStore.createDirectory now directory)
  updateDirectory now directory := call .updateDirectory (RuleStore.updateDirectory now directory)
  removeDirectory id := call .removeDirectory (RuleStore.removeDirectory id)
  createRule now rule := call .createRule (RuleStore.createRule now rule)
  updateRule now rule := call .updateRule (RuleStore.updateRule now rule)
  removeRule id := call .removeRule (RuleStore.removeRule id)
  restoreRule rule := call .restoreRule (RuleStore.restoreRule rule)

end FallibleStore
end BackupAtlas
