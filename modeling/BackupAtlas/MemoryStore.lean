import BackupAtlas.RuleStore
import BackupAtlas.Table
import BackupAtlas.Word

namespace BackupAtlas

/-- Claims and rules in memory. Records are kept as they are given; only the path of a claim has to
be new, and the directory of a rule has to be there. -/
structure MemoryStore where
  directories : Table Directory := {}
  rules : Table Rule := {}
  deriving DecidableEq, Repr

namespace MemoryStore

def checkOwner (rule : Rule) : StoreCall MemoryStore Unit := do
  if !(← get).directories.contains rule.directoryId then
    throw (.orphanedRule rule.id rule.directoryId)

def createDirectory (now : Int) (directory : Directory) : StoreCall MemoryStore Directory := do
  let store ← get
  if store.directories.values.any (·.path = directory.path) then
    throw (.alreadyClaimed directory.path)
  let id := store.directories.next
  let directory := { directory with id, created := now, modified := now }
  set { store with directories := store.directories.put id directory }
  return directory

def updateDirectory (now : Int) (directory : Directory) : StoreCall MemoryStore Directory := do
  let store ← get
  if !store.directories.contains directory.id then throw (.notClaimed directory.path)
  let directory := { directory with modified := now }
  set { store with directories := store.directories.put directory.id directory }
  return directory

def removeDirectory (id : Int) : StoreCall MemoryStore Unit :=
  modify fun store =>
    { directories := store.directories.erase id
      rules := store.rules.filter (·.directoryId ≠ id) }

/-- Adds a rule. Ids of rules are words: after the greatest one the count begins anew, with zero. -/
def createRule (now : Int) (rule : Rule) : StoreCall MemoryStore Rule := do
  checkOwner rule
  let store ← get
  let id := Word.add store.rules.last.toNat 1
  let rule := { rule with id, created := now, modified := now }
  set { store with rules := { store.rules.put id rule with last := id } }
  return rule

def updateRule (now : Int) (rule : Rule) : StoreCall MemoryStore Rule := do
  let store ← get
  if !store.rules.contains rule.id then
    throw (.ruleNotFound (toString rule.directoryId) rule.pattern)
  let rule := { rule with modified := now }
  set { store with rules := store.rules.put rule.id rule }
  return rule

def removeRule (id : Nat) : StoreCall MemoryStore Unit :=
  modify fun store => { store with rules := store.rules.erase id }

def restoreRule (rule : Rule) : StoreCall MemoryStore Unit := do
  checkOwner rule
  modify fun store => { store with rules := store.rules.put rule.id rule }

instance : RuleStore MemoryStore where
  readDirectories := return (← get).directories.values
  readRules := return (← get).rules.values
  createDirectory := createDirectory
  updateDirectory := updateDirectory
  removeDirectory := removeDirectory
  createRule := createRule
  updateRule := updateRule
  removeRule := removeRule
  restoreRule := restoreRule

end MemoryStore
end BackupAtlas
