import BackupAtlas.Rule

namespace BackupAtlas

abbrev StoreCall (σ α : Type) := EStateM Error σ α

/-- What keeps claims and rules while no program runs. A store gives out the ids of new records and
notes when each was made and last changed; times are in seconds. A rule that was taken away can be
put back just as it was. -/
class RuleStore (σ : Type) where
  /-- All claimed directories, in the order of their ids. -/
  readDirectories : StoreCall σ (List Directory)
  /-- All rules, in the order of their ids. -/
  readRules : StoreCall σ (List Rule)
  /-- Adds a claim, and answers it with its id and times. -/
  createDirectory (now : Int) (directory : Directory) : StoreCall σ Directory
  updateDirectory (now : Int) (directory : Directory) : StoreCall σ Directory
  /-- Takes a directory away, and with it its rules. -/
  removeDirectory (id : Int) : StoreCall σ Unit
  /-- Adds a rule to a directory that is there, and answers it with its id and times. -/
  createRule (now : Int) (rule : Rule) : StoreCall σ Rule
  updateRule (now : Int) (rule : Rule) : StoreCall σ Rule
  removeRule (id : Nat) : StoreCall σ Unit
  /-- Puts back a rule with its id and times. -/
  restoreRule (rule : Rule) : StoreCall σ Unit

end BackupAtlas
