import BackupAtlas.JsonText
import BackupAtlas.Rule

namespace BackupAtlas

namespace BackupType

def words : List (String × BackupType) :=
  [(text excluded, excluded), (text service, service), (text manual, manual)]

def toDatum (type : BackupType) : Datum := .text type.text

def ofDatum? (datum : Datum) : Option BackupType := datum.word? words

end BackupType

namespace Directory

def fieldNames : List String := ["id", "path", "claimed_by", "created", "modified"]

def toDatum (directory : Directory) : Datum :=
  .record (fieldNames.zip
    [.integer directory.id, .text directory.path, .text directory.claimedBy,
      .integer directory.created, .integer directory.modified])

def ofDatum? (datum : Datum) : Option Directory := do
  let fields ← datum.fields? fieldNames
  let id ← Datum.field? fields "id" Datum.int?
  let path ← Datum.field? fields "path" Datum.text?
  let claimedBy ← Datum.field? fields "claimed_by" Datum.text?
  let created ← Datum.field? fields "created" Datum.int?
  let modified ← Datum.field? fields "modified" Datum.int?
  pure { id, path, claimedBy, created, modified }

end Directory

namespace Rule

def fieldNames : List String :=
  ["id", "directory_id", "backup_type", "metadata", "review_date", "remove_date", "pattern",
    "frequency", "created", "modified"]

def toDatum (rule : Rule) : Datum :=
  .record (fieldNames.zip
    [.integer rule.id, .integer rule.directoryId, rule.backupType.toDatum, .text rule.metadata,
      .integer rule.reviewDate, .integer rule.removeDate, .text rule.pattern,
      .integer rule.frequency, .integer rule.created, .integer rule.modified])

def ofDatum? (datum : Datum) : Option Rule := do
  let fields ← datum.fields? fieldNames
  let id ← Datum.field? fields "id" (Datum.nat? UInt64.size)
  let directoryId ← Datum.field? fields "directory_id" Datum.int?
  let backupType ← Datum.field? fields "backup_type" BackupType.ofDatum?
  let metadata ← Datum.field? fields "metadata" Datum.text?
  let reviewDate ← Datum.field? fields "review_date" Datum.int?
  let removeDate ← Datum.field? fields "remove_date" Datum.int?
  let pattern ← Datum.field? fields "pattern" Datum.text?
  let frequency ← Datum.field? fields "frequency" (Datum.nat? UInt32.size)
  let created ← Datum.field? fields "created" Datum.int?
  let modified ← Datum.field? fields "modified" Datum.int?
  pure { id, directoryId, backupType, metadata, reviewDate, removeDate, pattern, frequency,
         created, modified }

end Rule
end BackupAtlas
