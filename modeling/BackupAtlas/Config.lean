import BackupAtlas.Datum
import BackupAtlas.Disk
import BackupAtlas.Error
import BackupAtlas.FilePath
import BackupAtlas.Fnv
import BackupAtlas.Scan
import BackupAtlas.UnicodeRanges
import BackupAtlas.Utf8

namespace BackupAtlas

structure JournalSettings where
  enabled : Bool := true
  path : String
  /-- The file that lines go to when the first fails. -/
  fallbackPath : Option String := none
  maxSizeBytes : Nat := 64 * 1024 * 1024
  maxRotatedFiles : Nat := 5
  fsyncIntervalSeconds : Nat := 30
  deriving DecidableEq, Repr

/-- The configuration: a file, variables of the environment that override it, and defaults for what
neither mentions. Before it is used, the paths in it are made absolute and its figures are
checked. -/
structure Config where
  database : String
  snapshotFiles : List String := []
  /-- How long the name of a user or group is good. -/
  cacheTtlSeconds : Nat := 60 * 60
  journal : JournalSettings
  configFile : String
  dataDir : String
  deriving DecidableEq, Repr

namespace Config

def homeOr (home : Option String) : String := home.getD "/tmp"

def joinAll (dir : String) (names : List String) : String := names.foldl FilePath.join dir

/-- Where the configuration is read from unless a path is given. -/
def defaultPath (home : Option String) : String :=
  joinAll (homeOr home) [".config", "ruletree", "config.toml"]

def defaultDataDir (home : Option String) : String :=
  joinAll (homeOr home) [".local", "share", "ruletree"]

/-- What holds without a file, for a user with the given home. -/
def default (home : Option String) : Config :=
  let dataDir := defaultDataDir home
  { database := FilePath.join dataDir "rules.sqlite3"
    journal := { path := FilePath.join dataDir "activity.jsonl" }
    configFile := defaultPath home
    dataDir }

/-- Reads settings of the journal; a list may have `surplus` items. -/
def journalOf? (surplus : Bool) (fallback : JournalSettings) (datum : Datum) :
    Option JournalSettings := do
  let fields ← datum.someFields? surplus
    ["enabled", "path", "fallback_path", "max_size_bytes", "max_rotated_files",
      "fsync_interval_seconds"]
  let enabled ← Datum.fieldOr fallback.enabled fields "enabled" Datum.bool?
  let path ← Datum.fieldOr fallback.path fields "path" Datum.text?
  let fallbackPath ← Datum.fieldOr fallback.fallbackPath fields "fallback_path"
    (Datum.optional? Datum.text?)
  let maxSizeBytes ← Datum.fieldOr fallback.maxSizeBytes fields "max_size_bytes"
    (Datum.nat? UInt64.size)
  let maxRotatedFiles ← Datum.fieldOr fallback.maxRotatedFiles fields "max_rotated_files"
    (Datum.nat? UInt32.size)
  let fsyncIntervalSeconds ← Datum.fieldOr fallback.fsyncIntervalSeconds fields
    "fsync_interval_seconds" (Datum.nat? UInt64.size)
  pure { enabled, path, fallbackPath, maxSizeBytes, maxRotatedFiles, fsyncIntervalSeconds }

/-- Reads a section with a single field. -/
def sectionOf? {α : Type} (surplus : Bool) (name : String) (fallback : α)
    (read : Datum → Option α) (datum : Datum) : Option α := do
  Datum.fieldOr fallback (← datum.someFields? surplus [name]) name read

def pathsOf? (surplus : Bool) (fallback : String × String) (datum : Datum) :
    Option (String × String) := do
  let fields ← datum.someFields? surplus ["config_file", "data_dir"]
  let configFile ← Datum.fieldOr fallback.1 fields "config_file" Datum.text?
  let dataDir ← Datum.fieldOr fallback.2 fields "data_dir" Datum.text?
  pure (configFile, dataDir)

/-- Reads a configuration. What is missing is as in `fallback`; what is unknown is ignored. -/
def ofDatum? (surplus : Bool) (fallback : Config) (datum : Datum) : Option Config := do
  let fields ← datum.someFields? surplus ["rules", "snapshots", "names", "journal", "paths"]
  let database ← Datum.fieldOr fallback.database fields "rules"
    (sectionOf? surplus "database" fallback.database Datum.text?)
  let snapshotFiles ← Datum.fieldOr fallback.snapshotFiles fields "snapshots"
    (sectionOf? surplus "files" fallback.snapshotFiles Datum.texts?)
  let cacheTtlSeconds ← Datum.fieldOr fallback.cacheTtlSeconds fields "names"
    (sectionOf? surplus "cache_ttl_seconds" fallback.cacheTtlSeconds (Datum.nat? UInt64.size))
  let journal ← Datum.fieldOr fallback.journal fields "journal"
    (journalOf? surplus fallback.journal)
  let own := (fallback.configFile, fallback.dataDir)
  let (configFile, dataDir) ← Datum.fieldOr own fields "paths" (pathsOf? surplus own)
  pure { database, snapshotFiles, cacheTtlSeconds, journal, configFile, dataDir }

def toDatum (config : Config) : Datum :=
  let journal := config.journal
  .record [
    ("rules", .record [("database", .text config.database)]),
    ("snapshots", .record [("files", .list (config.snapshotFiles.map .text))]),
    ("names", .record [("cache_ttl_seconds", .integer config.cacheTtlSeconds)]),
    ("journal", .record [
      ("enabled", .bool journal.enabled),
      ("path", .text journal.path),
      ("fallback_path", (journal.fallbackPath.map .text).getD .null),
      ("max_size_bytes", .integer journal.maxSizeBytes),
      ("max_rotated_files", .integer journal.maxRotatedFiles),
      ("fsync_interval_seconds", .integer journal.fsyncIntervalSeconds)]),
    ("paths", .record [("config_file", .text config.configFile),
      ("data_dir", .text config.dataDir)])]

def hash (config : Config) : String := Fnv.hex (Fnv.hash (Utf8.encode config.toDatum.json))

abbrev Environment := List (String × String)

/-- The value of a variable, unless it is blank. -/
def valueOf? (environment : Environment) (name : String) : Option String :=
  (environment.lookup name).filter fun value => trimBlanks value.toList ≠ []

/-- Reads digits into a number of 64 bits. The first fault counts: a character that is no digit,
or one that makes the number too large. -/
def numberFrom (value : Nat) : List Char → Except String Nat
  | [] => .ok value
  | c :: rest =>
    match digitValue? 10 c with
    | none => .error "invalid digit found in string"
    | some digit =>
      if 10 * value + digit < UInt64.size then numberFrom (10 * value + digit) rest
      else .error "number too large to fit in target type"

/-- A number of 64 bits, before which a plus may stand. -/
def number : List Char → Except String Nat
  | ['+'] | ['-'] => .error "invalid digit found in string"
  | '+' :: digits => numberFrom 0 digits
  | digits => numberFrom 0 digits

def wrongVariable (name value reason : String) : Error :=
  .unreadableConfig "env" s!"{name}={quoted value}: {reason}"

def numberVariable (name value : String) : Except Error Nat :=
  match number (trimBlanks value.toList) with
  | .ok n => .ok n
  | .error reason => .error (wrongVariable name value reason)

def switchVariable (name value : String) : Except Error Bool :=
  let word := String.ofList ((trimBlanks value.toList).map Char.toLower)
  if ["1", "true", "yes", "on"].contains word then .ok true
  else if ["0", "false", "no", "off"].contains word then .ok false
  else .error (wrongVariable name value "expected a boolean")

/-- The paths in a list with colons between them, without empty ones. -/
def listedPaths (value : String) : List String :=
  ((FilePath.split ':' value.toList).filter (· ≠ [])).map String.ofList

/-- Puts a variable in place of a value, if it is set. -/
def overridden {α : Type} (environment : Environment) (name : String) (value : α)
    (read : String → String → Except Error α) : Except Error α :=
  match valueOf? environment name with
  | some text => read name text
  | none => .ok value

def override (environment : Environment) (config : Config) : Except Error Config := do
  let plain := fun (_ text : String) => (pure text : Except Error String)
  let database ← overridden environment "BRT_RULES_DATABASE" config.database plain
  let snapshotFiles ← overridden environment "BRT_SNAPSHOT_FILES" config.snapshotFiles
    fun _ text => pure (listedPaths text)
  let cacheTtlSeconds ← overridden environment "BRT_NAMES_CACHE_TTL_SECONDS"
    config.cacheTtlSeconds numberVariable
  let enabled ← overridden environment "BRT_JOURNAL_ENABLED" config.journal.enabled
    switchVariable
  let path ← overridden environment "BRT_JOURNAL_PATH" config.journal.path plain
  let fallbackPath ← overridden environment "BRT_JOURNAL_FALLBACK_PATH"
    config.journal.fallbackPath fun _ text => pure (some text)
  let maxSizeBytes ← overridden environment "BRT_JOURNAL_MAX_SIZE_BYTES"
    config.journal.maxSizeBytes numberVariable
  pure { config with
    database, snapshotFiles, cacheTtlSeconds
    journal := { config.journal with enabled, path, fallbackPath, maxSizeBytes } }

/-- The paths of files that the program opens. -/
def files (config : Config) : List String :=
  config.database :: config.journal.path ::
    (config.journal.fallbackPath.toList ++ config.snapshotFiles)

/-- Makes the paths of files absolute. -/
def normalize (config : Config) (host : FilePath.Host := {}) : Config :=
  let resolve := fun path => FilePath.resolve path host
  { config with
    database := resolve config.database
    snapshotFiles := config.snapshotFiles.map resolve
    journal := { config.journal with
      path := resolve config.journal.path
      fallbackPath := config.journal.fallbackPath.map resolve } }

def repeated? (seen : List String) : List String → Option String
  | [] => none
  | value :: rest => if seen.contains value then some value else repeated? (value :: seen) rest

def objection? (config : Config) : Option String :=
  let journal := config.journal
  if config.cacheTtlSeconds = 0 then some "names.cache_ttl_seconds must be > 0"
  else if journal.enabled ∧ journal.maxSizeBytes < 4096 then
    some s!"journal.max_size_bytes must be at least 4096, got {journal.maxSizeBytes}"
  else if journal.enabled ∧ journal.maxRotatedFiles = 0 then
    some "journal.max_rotated_files must be >= 1"
  else if journal.enabled ∧ journal.fallbackPath = some journal.path then
    some "journal.fallback_path must differ from journal.path"
  else (repeated? [] config.snapshotFiles).map fun file => s!"snapshots.files lists {file} twice"

def validate (config : Config) : Except Error Unit :=
  match config.objection? with
  | none => .ok ()
  | some details => .error (.invalidConfig details)

section

-- what a document means, if it can be read
variable (document : String → Option Datum)

/-- The configuration that a file spells, completed by defaults. -/
def ofFile (path : String) (home : Option String) (bytes : Bytes) : Except Error Config :=
  match Utf8.decode bytes with
  | .error _ => .error (.fileFailure path "stream did not contain valid UTF-8")
  | .ok text =>
    match (document text).bind (ofDatum? true (default home)) with
    | some config => .ok config
    | none => .error (.unreadableConfig "toml" "invalid document")

/-- What is configured: in the file at the given path, which must be there, or else at the default
path, and in the environment. A file is there if its path leads to it. -/
def configured (disk : Disk) (home : Option String) (environment : Environment)
    (explicit : Option String) : Except Error Config := do
  let path := explicit.getD (defaultPath home)
  let config ←
    match Disk.Call.readFile path disk, explicit with
    | .ok bytes _, _ => ofFile document path home bytes
    | .error .isDirectory _, _ => throw (.fileFailure path DiskFault.isDirectory.message)
    | .error _ _, none => pure (default home)
    | .error _ _, some path => throw (.missingConfig path)
  override environment { config with configFile := path }

/-- What is configured, with its paths made absolute, if nothing speaks against it. -/
def load (disk : Disk) (home : Option String) (environment : Environment)
    (explicit : Option String) (host : FilePath.Host := {}) : Except Error Config := do
  let config := (← configured document disk home environment explicit).normalize host
  config.validate
  pure config

end

end Config
end BackupAtlas
