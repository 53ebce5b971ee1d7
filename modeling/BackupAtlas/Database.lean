import BackupAtlas.Disk
import BackupAtlas.FilePath
import BackupAtlas.RuleStore
import BackupAtlas.Table

namespace BackupAtlas

/-- A rule as a row of its table, without its id. -/
structure RuleRow where
  directoryId : Int
  backupType : String
  metadata : String := ""
  reviewDate : Int := 0
  removeDate : Int := 0
  pattern : String
  frequency : Nat := 0
  created : Int
  modified : Int
  deriving DecidableEq, Repr

namespace RuleRow

def ofRule (rule : Rule) : RuleRow :=
  { directoryId := rule.directoryId
    backupType := rule.backupType.text
    metadata := rule.metadata
    reviewDate := rule.reviewDate
    removeDate := rule.removeDate
    pattern := rule.pattern
    frequency := rule.frequency
    created := rule.created
    modified := rule.modified }

def rule (id : Int) (row : RuleRow) : Except Error Rule := do
  if id < 0 then throw (.corrupt "rule id" s!"negative id {id}")
  let backupType ← BackupType.parse row.backupType
  return { id := id.toNat, directoryId := row.directoryId, backupType, metadata := row.metadata,
           reviewDate := row.reviewDate, removeDate := row.removeDate, pattern := row.pattern,
           frequency := row.frequency, created := row.created, modified := row.modified }

/-- Whether two rows may not be in the table at the same time. -/
def clashes (row other : RuleRow) : Bool :=
  row.directoryId = other.directoryId && row.pattern = other.pattern

end RuleRow

/-- Claims and rules in two tables of a database. No two directories have the same path, and no two
rules the same directory and pattern; a directory takes its rules with it when it goes. Ids are
numbers of 63 bits, and types of backup are words, which reading may find to be neither. -/
structure Database where
  path : String
  directories : Table Directory := {}
  rules : Table RuleRow := {}
  deriving DecidableEq, Repr

namespace Database

def maxId : Int := 0x7fffffffffffffff

/-- A failure of the database itself. -/
def failure (details : String) : Error := .sql "rusqlite" details

def violation (columns : String) : Error := failure s!"UNIQUE constraint failed: {columns}"

/-- A call to the disk, whose faults are errors of the store. -/
def onDisk {α : Type} (onFault : DiskFault → Error) (call : Disk.Call α) : StoreCall Disk α :=
  fun disk =>
    match call disk with
    | .ok a disk => .ok a disk
    | .error fault disk => .error (onFault fault) disk

/-- Makes the file of a database, and the directories above it, as far as they are missing. An
empty file will do. -/
def prepare (path : String) : StoreCall Disk Unit := do
  let parent := FilePath.parent path
  onDisk (fun fault => .fileFailure parent fault.message) (.makeDirs parent)
  let file ← onDisk (fun _ => failure s!"unable to open database file: {path}") (.openFile path)
  if (← get).size file ≠ 0 then throw (failure "file is not a database")

def create (path : String) : StoreCall Disk Database := do
  prepare path
  return { path }

/-- Whether changes are written to a log ahead of the tables: always. -/
def writesAhead (_ : Database) : Bool := true

/-- The id of a new row. -/
def newId {α : Type} (table : Table α) : Except Error Int :=
  if maxId ≤ table.last then .error (failure "database or disk is full") else .ok table.next

/-- A rule's id as a number of 63 bits. -/
def rowId (id : Nat) : Except Error Int :=
  if maxId < id then .error (.sql "rule id" s!"{id} out of range") else .ok id

/-- What has been worked out without a change. -/
def settled {α : Type} (result : Except Error α) : StoreCall Database α := fun database =>
  match result with
  | .ok a => .ok a database
  | .error e => .error e database

/-- Inserts a row of rules, under a new id unless one is given. -/
def insertRule (given : Option Int) (row : RuleRow) : StoreCall Database Int := do
  let database ← get
  let id ← settled <| match given with
    | some id => if database.rules.contains id then .error (violation "rules.id") else .ok id
    | none => newId database.rules
  if database.rules.values.any row.clashes then
    throw (violation "rules.directory_id, rules.pattern")
  set { database with rules := database.rules.put id row }
  return id

def checkOwner (rule : Rule) : StoreCall Database Unit := do
  if !(← get).directories.contains rule.directoryId then
    throw (.orphanedRule rule.id rule.directoryId)

def readRules : StoreCall Database (List Rule) := do
  settled ((← get).rules.rows.mapM fun (id, row) => row.rule id)

/-- Claims a directory. A directory that is claimed already uses up an id. -/
def createDirectory (now : Int) (directory : Directory) : StoreCall Database Directory := do
  let database ← get
  let id ← settled (newId database.directories)
  if database.directories.values.any (·.path = directory.path) then
    set { database with directories := database.directories.skip }
    throw (.alreadyClaimed directory.path)
  let directory := { directory with id, created := now, modified := now }
  set { database with directories := database.directories.put id directory }
  return directory

/-- Changes who has claimed a directory, and nothing else of its row. -/
def updateDirectory (now : Int) (directory : Directory) : StoreCall Database Directory := do
  let database ← get
  match database.directories.get? directory.id with
  | none => throw (.notClaimed directory.path)
  | some row =>
    let row := { row with claimedBy := directory.claimedBy, modified := now }
    set { database with directories := database.directories.put directory.id row }
    return { directory with modified := now }

def removeDirectory (id : Int) : StoreCall Database Unit :=
  modify fun database =>
    if database.directories.contains id then
      { database with
        directories := database.directories.erase id
        rules := database.rules.filter (·.directoryId ≠ id) }
    else database

def createRule (now : Int) (rule : Rule) : StoreCall Database Rule := do
  checkOwner rule
  let rule := { rule with created := now, modified := now }
  let id ← insertRule none (.ofRule rule)
  return { rule with id := id.toNat }

/-- Changes a rule, except for its directory and the time it was made. -/
def updateRule (now : Int) (rule : Rule) : StoreCall Database Rule := do
  let id ← settled (rowId rule.id)
  let database ← get
  match database.rules.get? id with
  | none => throw (.ruleNotFound (toString rule.directoryId) rule.pattern)
  | some row =>
    let changed : RuleRow :=
      { RuleRow.ofRule rule with
        directoryId := row.directoryId, created := row.created, modified := now }
    if (database.rules.erase id).values.any changed.clashes then
      throw (violation "rules.directory_id, rules.pattern")
    set { database with rules := database.rules.put id changed }
    return { rule with modified := now }

def removeRule (id : Nat) : StoreCall Database Unit := do
  let id ← settled (rowId id)
  modify fun database => { database with rules := database.rules.erase id }

def restoreRule (rule : Rule) : StoreCall Database Unit := do
  checkOwner rule
  discard (insertRule (some (← settled (rowId rule.id))) (.ofRule rule))

instance : RuleStore Database where
  readDirectories := return (← get).directories.values
  readRules := readRules
  createDirectory := createDirectory
  updateDirectory := updateDirectory
  removeDirectory := removeDirectory
  createRule := createRule
  updateRule := updateRule
  removeRule := removeRule
  restoreRule := restoreRule

end Database
end BackupAtlas
