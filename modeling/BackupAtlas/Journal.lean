import BackupAtlas.Build
import BackupAtlas.Config
import BackupAtlas.LineSink
import BackupAtlas.LogEntry
import BackupAtlas.Rule
import BackupAtlas.Timestamp

namespace BackupAtlas

/-- What a journal takes note of. Durations are in milliseconds. -/
inductive JournalEvent where
  | started (configHash : String) (directories rules : Nat)
  | loaded (source : String) (build : MountBuild) (duration : Nat)
  | claimed (directory : Directory)
  | passed (directory : Directory)
  | revoked (directory : Directory)
  | added (dir : String) (rule : Rule) (builds : List MountBuild) (duration : Nat)
  | imported (rules : Nat) (builds : List MountBuild) (duration : Nat)
  | removed (dir : String) (rule : Rule) (builds : List MountBuild) (duration : Nat)
  | updated (dir : String) (rule : Rule) (builds : List MountBuild) (duration : Nat)
  | failed (dir pattern : String) (error : Error)
  deriving DecidableEq, Repr

namespace LogEntry

def programVersion : String := "0.1.0"

/-- Notes what was built, and that all went well. -/
def withBuilds (entry : LogEntry) (builds : List MountBuild) (duration : Nat) : LogEntry :=
  let total (count : Report → Nat) :=
    builds.foldl (fun sum build => Word.add sum (count build.report)) 0
  { entry with
    rebuilt := some (builds.map (·.root))
    processed := some (total (·.processed))
    assigned := some (total (·.assigned))
    reused := some (total (·.reused))
    durationMs := some duration
    ok := some true }

def ofDirectory (ts : String) (event : LogEvent) (directory : Directory) : LogEntry :=
  { ts, event, severity := .info
    path := some directory.path
    claimedBy := some directory.claimedBy
    ok := some true }

def ofRule (ts : String) (event : LogEvent) (dir : String) (rule : Rule)
    (builds : List MountBuild) (duration : Nat) : LogEntry :=
  { ts, event, severity := .info
    path := some dir
    ruleId := some rule.id
    pattern := some rule.pattern
    backupType := some rule.backupType.text : LogEntry }.withBuilds builds duration

def ofEvent (ts : String) : JournalEvent → LogEntry
  | .started configHash directories rules =>
    { ts, event := .engineStart, severity := .info
      configHash := some configHash
      version := some programVersion
      directories := some directories
      rules := some rules }
  | .loaded source build duration =>
    { ts, severity := .info
      event := if build.replaced then .treeReplaced else .treeLoaded
      path := some build.root
      source := some source : LogEntry }.withBuilds [build] duration
  | .claimed directory => ofDirectory ts .directoryClaimed directory
  | .passed directory => ofDirectory ts .directoryUpdated directory
  | .revoked directory => ofDirectory ts .claimRevoked directory
  | .added dir rule builds duration => ofRule ts .ruleAdded dir rule builds duration
  | .imported rules builds duration =>
    { ts, event := .rulesImported, severity := .info
      rules := some rules : LogEntry }.withBuilds builds duration
  | .removed dir rule builds duration => ofRule ts .ruleRemoved dir rule builds duration
  | .updated dir rule builds duration => ofRule ts .ruleUpdated dir rule builds duration
  | .failed dir pattern error =>
    { ts, event := .rebuildFailed, severity := .error
      path := some dir
      pattern := some pattern
      ok := some false
      errorCode := some error.code
      errorMessage := some error.message }

def line (entry : LogEntry) : Bytes := Utf8.encode (entry.toDatum.json ++ "\n")

end LogEntry

namespace SinkSettings

def ofJournal (settings : JournalSettings) : SinkSettings :=
  { path := settings.path
    fallback := settings.fallbackPath
    maxSize := settings.maxSizeBytes
    keep := settings.maxRotatedFiles
    syncInterval := 1000 * settings.fsyncIntervalSeconds }

end SinkSettings

/-- The journal: what happens to claims, rules and snapshots, one line an event. A journal that is
not enabled takes no notice. -/
structure Journal where
  /-- There is none unless the journal is enabled. -/
  sink : Option LineSink := none
  deriving DecidableEq, Repr

namespace Journal

/-- Opens the journal, unless it is not enabled. Times are in milliseconds. -/
def start (settings : JournalSettings) (now : Nat) (disk : Disk) : Journal × Disk :=
  if settings.enabled then
    let (sink, disk) := LineSink.start (.ofJournal settings) now disk
    ({ sink := some sink }, disk)
  else ({}, disk)

def isEnabled (journal : Journal) : Bool := journal.sink.isSome

/-- Takes note of an event. -/
def record (event : JournalEvent) (now : Nat) (journal : Journal) (disk : Disk) :
    Journal × Disk :=
  match journal.sink with
  | none => (journal, disk)
  | some sink =>
    let entry := LogEntry.ofEvent (Timestamp.format now) event
    let (sink, disk) := LineSink.write entry.line now sink disk
    ({ sink := some sink }, disk)

/-- Brings the files up to date. -/
def sync (now : Nat) (journal : Journal) (disk : Disk) : Journal × Disk :=
  match journal.sink with
  | none => (journal, disk)
  | some sink =>
    let (sink, disk) := sink.sync now disk
    ({ sink := some sink }, disk)

def close (journal : Journal) (disk : Disk) : Disk :=
  match journal.sink with
  | none => disk
  | some sink => sink.close disk

end Journal
end BackupAtlas
