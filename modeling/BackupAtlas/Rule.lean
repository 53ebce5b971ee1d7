import BackupAtlas.Error

namespace BackupAtlas

/-- How the files of a rule are backed up. -/
inductive BackupType where
  /-- Not at all. -/
  | excluded
  /-- By the backup service. -/
  | service
  /-- By the claimant, with other means. -/
  | manual
  deriving DecidableEq, Repr, Inhabited

namespace BackupType

def text : BackupType → String
  | excluded => "none"
  | service => "ibackup"
  | manual => "manual"

def ofText? (text : String) : Option BackupType :=
  [excluded, service, manual].find? (·.text == text)

def parse (text : String) : Except Error BackupType :=
  match ofText? text with
  | some type => .ok type
  | none => .error (.corrupt "backup type" s!"unknown backup type {quoted text}")

end BackupType

/-- A claimed directory. -/
structure Directory where
  id : Int := 0
  /-- Absolute, ending in a slash. -/
  path : String
  claimedBy : String := ""
  created : Int := 0
  modified : Int := 0
  deriving DecidableEq, Repr, Inhabited

/-- A rule for the files of one directory and everything below it. -/
structure Rule where
  id : Nat := 0
  directoryId : Int := 0
  backupType : BackupType := .excluded
  metadata : String := ""
  reviewDate : Int := 0
  removeDate : Int := 0
  /-- The name of a file, or a pattern with stars. -/
  pattern : String
  frequency : Nat := 0
  created : Int := 0
  modified : Int := 0
  deriving DecidableEq, Repr, Inhabited

end BackupAtlas
