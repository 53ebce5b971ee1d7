import BackupAtlas.AtlasQuery
import BackupAtlas.Journal
import BackupAtlas.Names
import BackupAtlas.RuleStore

namespace BackupAtlas

/-- When something is done and how long it takes, both in milliseconds. -/
structure Timing where
  now : Nat
  duration : Nat := 0
  deriving DecidableEq, Repr

namespace Timing

/-- The time for the records of a store. -/
def seconds (timing : Timing) : Int := (timing.now / 1000 : Nat)

end Timing

/-- A registry keeps claims and rules in a store, applies them to the mounted snapshots, and takes
note of every change in a journal. Most changes go to the store first; when they cannot be applied
afterwards, the store is told to undo them, and the caller sees why they could not. -/
structure Registry (σ : Type) where
  config : Config
  /-- The names of users and groups, for showing figures. -/
  names : NameTable
  store : σ
  /-- What is in the store, applied to the mounted snapshots. -/
  atlas : Atlas
  journal : Journal
  /-- It holds the files of snapshots and of the journal. -/
  disk : Disk
  deriving DecidableEq

namespace Registry

variable {σ α : Type}

abbrev Change (σ α : Type) := EStateM Error (Registry σ) α

/-- A call of the store. -/
def onStore (call : StoreCall σ α) : Change σ α := fun registry =>
  match call registry.store with
  | .ok a store => .ok a { registry with store }
  | .error e store => .error e { registry with store }

def onAtlas (change : Atlas.Change α) : Change σ α := fun registry =>
  match change registry.atlas with
  | .ok a atlas => .ok a { registry with atlas }
  | .error e atlas => .error e { registry with atlas }

/-- Takes note of an event in the journal. -/
def note (timing : Timing) (event : JournalEvent) : Change σ Unit :=
  modify fun registry =>
    let (journal, disk) := registry.journal.record event timing.now registry.disk
    { registry with journal, disk }

/-- Notes that a rule could not be applied, unless the caller can do something about it. -/
def noteFailure (timing : Timing) (dir pattern : String) (error : Error) : Change σ Unit :=
  if error.isRecoverable then pure () else note timing (.failed dir pattern error)

/-- Whether it succeeds is of no interest. -/
def quietly (change : Change σ α) : Change σ Unit := do
  try discard change catch _ => pure ()

/-- A change that is made good by `undo` when it fails. It fails all the same. -/
def undoing (change : Change σ α) (undo : Error → Change σ Unit) : Change σ α := do
  try change catch e =>
    undo e
    throw e

/-- The claim of a directory with its rules. -/
def claimed (path : String) : Change σ Claim := do
  match (← get).atlas.directory? path with
  | some claim => return claim
  | none => throw (.notClaimed path)

def validate (pattern : String) : Change σ Unit :=
  onAtlas (Atlas.settled (Pattern.validate pattern))

/-- Mounts the snapshot in a file, in place of one with the same root. -/
def addTree (timing : Timing) (path : String) : Change σ MountBuild := do
  let build ← onAtlas (Atlas.addTreeFile (← get).disk path)
  note timing (.loaded path build timing.duration)
  return build

variable [RuleStore σ]

/-- Claims a directory. The store gives the claim its id. -/
def claim (timing : Timing) (path claimedBy : String) : Change σ Directory := do
  let directory ← onStore (RuleStore.createDirectory timing.seconds { path, claimedBy })
  undoing (onAtlas (Atlas.claim directory)) fun _ =>
    quietly (onStore (RuleStore.removeDirectory directory.id))
  note timing (.claimed directory)
  return directory

/-- Passes a claim on to someone else. -/
def passClaim (timing : Timing) (path claimedBy : String) : Change σ Directory := do
  let previous := (← claimed path).directory
  let directory ← onStore
    (RuleStore.updateDirectory timing.seconds { previous with claimedBy })
  undoing (onAtlas (Atlas.updateDirectory directory)) fun _ =>
    quietly (onStore (RuleStore.updateDirectory timing.seconds previous))
  note timing (.passed directory)
  return directory

/-- Gives up a claim, which must have no rules left. Here the store comes last, as a claim can be
put back with its id only where it is applied. -/
def revoke (timing : Timing) (path : String) : Change σ Directory := do
  let directory ← onAtlas (Atlas.revoke path)
  undoing (onStore (RuleStore.removeDirectory directory.id)) fun _ =>
    quietly (onAtlas (Atlas.claim directory))
  note timing (.revoked directory)
  return directory

/-- A rule together with the snapshots that were built for it. -/
abbrev RuleChange := Rule × List MountBuild

/-- A new rule of the directory `dir`, if it can be one beside the rules `seen` before. -/
def admitted (seen : List (String × Rule)) (dir : String) (rule : Rule) : Change σ Rule := do
  validate rule.pattern
  let claim ← claimed dir
  if claim.rules.contains rule.pattern ||
      seen.any (fun (other, r) => other = dir && r.pattern = rule.pattern) then
    throw (.ruleExists dir rule.pattern)
  return { rule with directoryId := claim.directory.id }

/-- Adds a rule to a claimed directory. The store gives it its id. -/
def createRule (timing : Timing) (dir : String) (rule : Rule) : Change σ RuleChange := do
  let rule ← admitted [] dir rule
  let rule ← onStore (RuleStore.createRule timing.seconds rule)
  let builds ← undoing (onAtlas (Atlas.addRule dir rule)) fun e => do
    quietly (onStore (RuleStore.removeRule rule.id))
    noteFailure timing dir rule.pattern e
  note timing (.added dir rule builds timing.duration)
  return (rule, builds)

/-- A batch of new rules, if they can be such side by side. -/
def admittedAll (seen : List (String × Rule)) :
    List (String × Rule) → Change σ (List (String × Rule))
  | [] => return seen
  | (dir, rule) :: rest => do
    let rule ← admitted seen dir rule
    admittedAll (seen ++ [(dir, rule)]) rest

/-- Stores a batch of rules, of which some are stored already: either all or none. -/
def storeAll (timing : Timing) (stored : List (String × Rule)) :
    List (String × Rule) → Change σ (List (String × Rule))
  | [] => return stored
  | (dir, rule) :: rest => do
    let rule ← undoing (onStore (RuleStore.createRule timing.seconds rule)) fun _ =>
      stored.forM fun (_, rule) => quietly (onStore (RuleStore.removeRule rule.id))
    storeAll timing (stored ++ [(dir, rule)]) rest

/-- Adds many rules, each to the claimed directory beside it: either all or none. -/
def createRules (timing : Timing) (batch : List (String × Rule)) :
    Change σ (List (String × Rule) × List MountBuild) := do
  let rules ← storeAll timing [] (← admittedAll [] batch)
  let builds ← undoing (onAtlas (Atlas.addRules rules)) fun e =>
    rules.forM fun (dir, rule) => do
      quietly (onStore (RuleStore.removeRule rule.id))
      noteFailure timing dir rule.pattern e
  note timing (.imported rules.length builds timing.duration)
  return (rules, builds)

def removeRule (timing : Timing) (dir pattern : String) : Change σ RuleChange := do
  match (← claimed dir).rules.get? pattern with
  | none => throw (.ruleNotFound dir pattern)
  | some rule =>
    onStore (RuleStore.removeRule rule.id)
    let (_, builds) ← undoing (onAtlas (Atlas.removeRule dir pattern)) fun e => do
      quietly (onStore (RuleStore.restoreRule rule))
      noteFailure timing dir pattern e
    note timing (.removed dir rule builds timing.duration)
    return (rule, builds)

/-- Replaces the rule with the same id, except for its directory and the time it was made. -/
def updateRule (timing : Timing) (dir : String) (rule : Rule) : Change σ RuleChange := do
  validate rule.pattern
  let claim ← claimed dir
  match claim.rules.values.find? (·.id == rule.id) with
  | none => throw (.ruleNotFound dir rule.pattern)
  | some previous =>
    if rule.pattern ≠ previous.pattern ∧ claim.rules.contains rule.pattern then
      throw (.ruleExists dir rule.pattern)
    let rule := { rule with directoryId := previous.directoryId, created := previous.created }
    let rule ← onStore (RuleStore.updateRule timing.seconds rule)
    let builds ← undoing (onAtlas (Atlas.updateRule dir rule)) fun e => do
      quietly (onStore (RuleStore.updateRule timing.seconds previous))
      noteFailure timing dir rule.pattern e
    note timing (.updated dir rule builds timing.duration)
    return (rule, builds)

/-- What is in a store, applied. -/
def load : StoreCall σ Atlas := do
  let directories ← RuleStore.readDirectories
  let rules ← RuleStore.readRules
  match RuleSet.ofRecords directories rules >>= Atlas.ofRules with
  | .ok atlas => return atlas
  | .error e => throw e

/-- Ends a registry. The store and the disk outlive it. -/
def close (registry : Registry σ) : σ × Disk :=
  (registry.store, registry.journal.close registry.disk)

/-- Begins with what is in the store, and mounts the configured snapshots. An error comes with
the store and the disk, which outlive it. -/
def start (config : Config) (names : NameTable) (timing : Timing) (store : σ) (disk : Disk) :
    Except (Error × σ × Disk) (Registry σ) :=
  let (journal, disk) := Journal.start config.journal timing.now disk
  match load store with
  | .error e store => .error (e, store, journal.close disk)
  | .ok atlas store =>
    let (directories, rules) := atlas.counts
    let mount : Change σ Unit := do
      note timing (.started config.hash directories rules)
      config.snapshotFiles.forM fun path => discard (addTree timing path)
    match mount { config, names, store, atlas, journal, disk } with
    | .ok () registry => .ok registry
    | .error e registry => .error (e, registry.close)

end Registry
end BackupAtlas
