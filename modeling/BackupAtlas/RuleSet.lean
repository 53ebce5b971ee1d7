import BackupAtlas.Catalog
import BackupAtlas.Pattern
import BackupAtlas.Rule
import BackupAtlas.TreePath

namespace BackupAtlas

/-- A claimed directory with its rules by pattern. -/
structure Claim where
  directory : Directory
  rules : Catalog Rule := .empty
  deriving DecidableEq

/-- All claimed directories with their rules. A claim is kept under its path and a rule under its
pattern. Changes check everything before they touch the set. -/
structure RuleSet where
  claims : Catalog Claim := .empty
  deriving DecidableEq

namespace RuleSet

abbrev Change (α : Type) := EStateM Error RuleSet α

def empty : RuleSet := {}

def get? (set : RuleSet) (path : String) : Option Claim := set.claims.get? path

def size (set : RuleSet) : Nat := set.claims.size

def ruleCount (set : RuleSet) : Nat := set.claims.values.foldl (fun count claim => count + claim.rules.size) 0

def put (claim : Claim) (path : String) : Change Unit :=
  modify fun set => { set with claims := set.claims.insert path claim }

def claimed (path : String) : Change Claim := fun set =>
  match set.get? path with
  | some claim => .ok claim set
  | none => .error (.notClaimed path) set

def ensure (holds : Bool) (otherwise : Error) : Change Unit :=
  if holds then pure () else throw otherwise

def validate (pattern : String) : Change Unit := fun set =>
  match Pattern.validate pattern with
  | .ok () => .ok () set
  | .error e => .error e set

/-- Claims a directory that nobody has claimed. -/
def claim (directory : Directory) : Change Unit := do
  ensure (TreePath.isAbsoluteDir directory.path) (.invalidRoot directory.path)
  ensure (!(← get).claims.contains directory.path) (.alreadyClaimed directory.path)
  put { directory } directory.path

/-- Replaces the record of a claimed directory, to pass it on for instance. -/
def updateDirectory (directory : Directory) : Change Unit := do
  let claim ← claimed directory.path
  put { claim with directory } directory.path

/-- Gives up a claim, which must have no rules left. -/
def revoke (path : String) : Change Directory := do
  let claim ← claimed path
  ensure claim.rules.isEmpty (.claimHasRules path claim.rules.size)
  modify fun set => { set with claims := set.claims.erase path }
  pure claim.directory

/-- Adds a rule to a claimed directory. Its pattern must be new there. -/
def addRule (path : String) (rule : Rule) : Change Unit := do
  validate rule.pattern
  let claim ← claimed path
  ensure (!claim.rules.contains rule.pattern) (.ruleExists path rule.pattern)
  let rule := { rule with directoryId := claim.directory.id }
  put { claim with rules := claim.rules.insert rule.pattern rule } path

def removeRule (path pattern : String) : Change Rule := do
  let claim ← claimed path
  match claim.rules.get? pattern with
  | none => throw (.ruleNotFound path pattern)
  | some rule =>
    put { claim with rules := claim.rules.erase pattern } path
    pure rule

/-- Replaces the rule with the same id, whose pattern may change, and returns it. -/
def updateRule (path : String) (rule : Rule) : Change Rule := do
  validate rule.pattern
  let claim ← claimed path
  match claim.rules.entries.find? (·.2.id == rule.id) with
  | none => throw (.ruleNotFound path rule.pattern)
  | some (_, previous) =>
    ensure (previous.pattern == rule.pattern || !claim.rules.contains rule.pattern)
      (.ruleExists path rule.pattern)
    let rule := { rule with directoryId := claim.directory.id }
    let rules := (claim.rules.erase previous.pattern).insert rule.pattern rule
    put { claim with rules } path
    pure previous

/-- The path under which the last of the directories with this id is claimed. -/
def pathOf? (directories : List Directory) (id : Int) : Option String :=
  (directories.reverse.find? (·.id == id)).map (·.path)

/-- Claims the directories and adds the rules, each to the directory whose id it carries. -/
def load (directories : List Directory) (rules : List Rule) : Change Unit := do
  directories.forM claim
  rules.forM fun rule =>
    match pathOf? directories rule.directoryId with
    | none => throw (.orphanedRule rule.id rule.directoryId)
    | some path => addRule path rule

/-- The rule set of stored records. -/
def ofRecords (directories : List Directory) (rules : List Rule) : Except Error RuleSet :=
  match load directories rules empty with
  | .ok () set => .ok set
  | .error e _ => .error e

end RuleSet
end BackupAtlas
