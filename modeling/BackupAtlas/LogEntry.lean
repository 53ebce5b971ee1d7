import BackupAtlas.Datum

namespace BackupAtlas

inductive Severity where
  | info
  | warning
  | error
  deriving DecidableEq, Repr

inductive LogEvent where
  | engineStart
  | treeLoaded
  | treeReplaced
  | ruleAdded
  | rulesImported
  | ruleRemoved
  | ruleUpdated
  | directoryClaimed
  | directoryUpdated
  | claimRevoked
  | rebuildFailed
  deriving DecidableEq, Repr

namespace Severity

def text : Severity → String
  | info => "info"
  | warning => "warning"
  | error => "error"

def words : List (String × Severity) := [info, warning, error].map fun level => (level.text, level)

end Severity

namespace LogEvent

def text : LogEvent → String
  | engineStart => "engine_start"
  | treeLoaded => "tree_loaded"
  | treeReplaced => "tree_replaced"
  | ruleAdded => "rule_added"
  | rulesImported => "rules_imported"
  | ruleRemoved => "rule_removed"
  | ruleUpdated => "rule_updated"
  | directoryClaimed => "directory_claimed"
  | directoryUpdated => "directory_updated"
  | claimRevoked => "claim_revoked"
  | rebuildFailed => "rebuild_failed"

def words : List (String × LogEvent) :=
  [engineStart, treeLoaded, treeReplaced, ruleAdded, rulesImported, ruleRemoved, ruleUpdated,
    directoryClaimed, directoryUpdated, claimRevoked, rebuildFailed].map fun event =>
      (event.text, event)

end LogEvent

/-- An entry of a journal. It says when and what; everything else is there only where it applies. -/
structure LogEntry where
  /-- When, in universal time. -/
  ts : String
  event : LogEvent
  severity : Severity
  /-- A claimed directory or the root of a snapshot. -/
  path : Option String := none
  /-- The file that a snapshot was read from. -/
  source : Option String := none
  ruleId : Option Nat := none
  pattern : Option String := none
  backupType : Option String := none
  claimedBy : Option String := none
  /-- The roots of the snapshots that were built. -/
  rebuilt : Option (List String) := none
  processed : Option Nat := none
  assigned : Option Nat := none
  reused : Option Nat := none
  durationMs : Option Nat := none
  ok : Option Bool := none
  errorCode : Option String := none
  errorMessage : Option String := none
  configHash : Option String := none
  version : Option String := none
  /-- The numbers of claimed directories and of rules at the start. -/
  directories : Option Nat := none
  rules : Option Nat := none
  deriving DecidableEq, Repr

namespace LogEntry

def fieldNames : List String :=
  ["ts", "event", "severity", "path", "source", "rule_id", "pattern", "backup_type", "claimed_by",
    "rebuilt", "processed", "assigned", "reused", "duration_ms", "ok", "error_code",
    "error_message", "config_hash", "version", "directories", "rules"]

/-- The fields that are there, in their order. -/
def toDatum (entry : LogEntry) : Datum :=
  let text := fun (value : Option String) => value.map Datum.text
  let number := fun (value : Option Nat) => value.map fun n => Datum.integer n
  let values : List (Option Datum) :=
    [some (.text entry.ts), some (.text entry.event.text), some (.text entry.severity.text),
      text entry.path, text entry.source, number entry.ruleId, text entry.pattern,
      text entry.backupType, text entry.claimedBy,
      entry.rebuilt.map fun roots => .list (roots.map .text),
      number entry.processed, number entry.assigned, number entry.reused,
      number entry.durationMs, entry.ok.map .bool, text entry.errorCode,
      text entry.errorMessage, text entry.configHash, text entry.version,
      number entry.directories, number entry.rules]
  .record ((fieldNames.zip values).filterMap fun (name, value) => value.map (name, ·))

def ofDatum? (datum : Datum) : Option LogEntry := do
  let fields ← datum.fields? fieldNames
  let optional := fun {α : Type} (name : String) (read : Datum → Option α) =>
    Datum.fieldOr none fields name (Datum.optional? read)
  let number := Datum.nat? UInt64.size
  let ts ← Datum.field? fields "ts" Datum.text?
  let event ← Datum.field? fields "event" (Datum.word? LogEvent.words)
  let severity ← Datum.field? fields "severity" (Datum.word? Severity.words)
  let path ← optional "path" Datum.text?
  let source ← optional "source" Datum.text?
  let ruleId ← optional "rule_id" number
  let pattern ← optional "pattern" Datum.text?
  let backupType ← optional "backup_type" Datum.text?
  let claimedBy ← optional "claimed_by" Datum.text?
  let rebuilt ← optional "rebuilt" Datum.texts?
  let processed ← optional "processed" number
  let assigned ← optional "assigned" number
  let reused ← optional "reused" number
  let durationMs ← optional "duration_ms" number
  let ok ← optional "ok" Datum.bool?
  let errorCode ← optional "error_code" Datum.text?
  let errorMessage ← optional "error_message" Datum.text?
  let configHash ← optional "config_hash" Datum.text?
  let version ← optional "version" Datum.text?
  let directories ← optional "directories" number
  let rules ← optional "rules" number
  pure { ts, event, severity, path, source, ruleId, pattern, backupType, claimedBy, rebuilt,
         processed, assigned, reused, durationMs, ok, errorCode, errorMessage, configHash,
         version, directories, rules }

end LogEntry
end BackupAtlas
