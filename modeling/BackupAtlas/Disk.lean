import BackupAtlas.FilePath
import BackupAtlas.Varint

namespace BackupAtlas

/-- Names from the top of the disk down to a file or directory. -/
abbrev DiskPath := List String

inductive DiskEntry where
  | directory
  /-- The file whose content has this number. -/
  | file (number : Nat)
  /-- A device that can be opened but takes no data. -/
  | device
  deriving DecidableEq, Repr

inductive DiskFault where
  | missing
  | refused
  /-- The name of a directory that cannot be given another. -/
  | busy
  | exists
  | notDirectory
  | isDirectory
  | noRoom
  | nameTooLong
  | notEmpty
  /-- A path cannot hold NUL, the mark of its end. -/
  | endsEarly
  deriving DecidableEq, Repr

/-- The wording of a fault, with its number, if it has one. -/
def DiskFault.message : DiskFault → String
  | missing => "No such file or directory (os error 2)"
  | refused => "Input/output error (os error 5)"
  | busy => "Device or resource busy (os error 16)"
  | «exists» => "File exists (os error 17)"
  | notDirectory => "Not a directory (os error 20)"
  | isDirectory => "Is a directory (os error 21)"
  | noRoom => "No space left on device (os error 28)"
  | nameTooLong => "File name too long (os error 36)"
  | notEmpty => "Directory not empty (os error 39)"
  | endsEarly => "file name contained an unexpected NUL byte"

inductive OpenFile where
  | file (number : Nat)
  | device
  deriving DecidableEq, Repr

inductive DiskPlace where
  /-- To a directory that it has gone through. -/
  | reached (dir : DiskPath)
  /-- To a name in a directory, where a slash may follow the name. -/
  | within (dir : DiskPath) (name : String) (slashed : Bool)
  deriving DecidableEq, Repr

/-- The files that journals and snapshots are kept in. A disk has names for directories, files and a
device without room; contents are kept apart from names, so a file that is open can still be written
when its name has gone or stands for another file.

Calls fail for what they find, or because the device refuses: which of the calls to come it refuses
is part of the disk, so whatever holds for all disks holds for all outcomes of calls. -/
structure Disk where
  /-- Every name but the top, which is a directory. -/
  entries : List (DiskPath × DiskEntry) := []
  /-- The contents of files, by number. -/
  contents : List Bytes := []
  /-- For the calls to come, whether the device refuses them; further calls it does not. -/
  refusals : List Bool := []
  deriving DecidableEq, Repr

namespace Disk

/-- A call to the disk. It may fail, and may change the disk even then. -/
abbrev Call (α : Type) := EStateM DiskFault Disk α

def find? (disk : Disk) (path : DiskPath) : Option DiskEntry :=
  if path = [] then some .directory else disk.entries.lookup path

def content (disk : Disk) (number : Nat) : Bytes := disk.contents.getD number []

def read? (disk : Disk) (path : DiskPath) : Option Bytes :=
  match disk.find? path with
  | some (.file number) => some (disk.content number)
  | _ => none

def size (disk : Disk) : OpenFile → Nat
  | .file number => (disk.content number).length
  | .device => 0

def put (path : DiskPath) (entry : DiskEntry) (disk : Disk) : Disk :=
  { disk with entries := (path, entry) :: disk.entries.filter fun (name, _) => name ≠ path }

/-- Takes away a name and all names below it. -/
def erase (path : DiskPath) (disk : Disk) : Disk :=
  { disk with entries := disk.entries.filter fun (name, _) => !path.isPrefixOf name }

/-- Gives another name to an entry and to all below it. -/
def move (source target : DiskPath) (disk : Disk) : Disk :=
  { disk with
    entries := (disk.erase target).entries.map fun (name, entry) =>
      if source.isPrefixOf name then (target ++ name.drop source.length, entry)
      else (name, entry) }

def isEmptyAt (disk : Disk) (path : DiskPath) : Bool :=
  disk.entries.all fun (name, _) => name = path || !path.isPrefixOf name

def append (number : Nat) (data : Bytes) (disk : Disk) : Disk :=
  { disk with contents := disk.contents.set number (disk.content number ++ data) }

def maxNameLength : Nat := 255

def maxPathLength : Nat := 4095

/-- Whether a path can be followed at all. -/
def check (path : String) : Except DiskFault Unit :=
  if path.toList.contains '\x00' then .error .endsEarly
  else if maxPathLength < path.utf8ByteSize then .error .nameTooLong
  else .ok ()

/-- What a name in the directory at `dir` stands for, if it stands for anything. -/
def named? (disk : Disk) (dir : DiskPath) (name : String) :
    Except DiskFault (Option DiskEntry) :=
  if maxNameLength < name.utf8ByteSize then .error .nameTooLong
  else .ok (disk.find? (dir ++ [name]))

/-- The directory that names lead to from the directory at `dir`. -/
def walk (disk : Disk) (dir : DiskPath) : List String → Except DiskFault DiskPath
  | [] => .ok dir
  | name :: names =>
    if name = "." then walk disk dir names
    else if name = ".." then walk disk dir.dropLast names
    else
      match disk.named? dir name with
      | .error fault => .error fault
      | .ok none => .error .missing
      | .ok (some .directory) => walk disk (dir ++ [name]) names
      | .ok (some _) => .error .notDirectory

/-- Where a path leads. The empty path leads nowhere. -/
def place (disk : Disk) (path : String) : Except DiskFault DiskPlace := do
  check path
  if path = "" then throw .missing
  let names := FilePath.names path
  match names.getLast? with
  | none => return .reached []
  | some name =>
    let dir ← disk.walk [] names.dropLast
    if name = "." then return .reached dir
    else if name = ".." then return .reached dir.dropLast
    else return .within dir name (FilePath.isSlashed path)

def entryAt (disk : Disk) : DiskPlace → Except DiskFault DiskEntry
  | .reached _ => .ok .directory
  | .within dir name slashed => do
    match ← disk.named? dir name with
    | none => throw .missing
    | some .directory => return .directory
    | some entry => if slashed then throw .notDirectory else return entry

namespace Call

/-- What can be said of the disk without a change. -/
def ask {α : Type} (question : Disk → Except DiskFault α) : Call α := fun disk =>
  match question disk with
  | .ok a => .ok a disk
  | .error fault => .error fault disk

/-- Fails if the device refuses the call. -/
def admitted : Call Unit := do
  match (← get).refusals with
  | [] => pure ()
  | refused :: later =>
    modify fun disk => { disk with refusals := later }
    if refused then throw .refused

/-- Makes the directories that names lead to from the directory at `dir`. -/
def makeDirsWithin (dir : DiskPath) : List String → Call Unit
  | [] => pure ()
  | name :: names =>
    if name = ".." then makeDirsWithin dir.dropLast names
    else do
      match ← ask (·.named? dir name) with
      | some .directory => pure ()
      | some _ => throw (if names = [] then .exists else .notDirectory)
      | none => modify (put (dir ++ [name]) .directory)
      makeDirsWithin (dir ++ [name]) names

/-- Makes a directory and those above it, as far as they are missing. -/
def makeDirs (path : String) : Call Unit := do
  ask fun _ => check path
  makeDirsWithin [] (FilePath.components path)

def makeFile (path : DiskPath) : Call OpenFile := do
  let number := (← get).contents.length
  modify fun disk => { put path (.file number) disk with contents := disk.contents ++ [[]] }
  return .file number

/-- Opens a file for writing, which is made if it is missing. -/
def openFile (path : String) : Call OpenFile := do
  match ← ask (·.place path) with
  | .within dir name false =>
    match ← ask (·.named? dir name) with
    | some .directory => throw .isDirectory
    | some (.file number) => return .file number
    | some .device => return .device
    | none => makeFile (dir ++ [name])
  | _ => throw .isDirectory

/-- Opens a file to write at its end, and tells its size. A missing file and missing directories
above it are made. -/
def openAppend (path : String) : Call (OpenFile × Nat) := do
  makeDirs (FilePath.parent path)
  admitted
  let file ← openFile path
  return (file, (← get).size file)

/-- Writes at the end of an open file, either all of `data` or nothing. -/
def write (data : Bytes) : OpenFile → Call Unit
  | .file number => do
    admitted
    modify (append number data)
  | .device => throw .noRoom

def remove (path : String) : Call Unit := do
  admitted
  let place ← ask (·.place path)
  match ← ask (·.entryAt place), place with
  | .directory, _ | _, .reached _ => throw .isDirectory
  | _, .within dir name _ => modify (erase (dir ++ [name]))

/-- Gives another name to what is at a place. A file or an empty directory of that name goes. -/
def rename (source target : String) : Call Unit := do
  admitted
  match ← ask (·.place source), ← ask (·.place target) with
  | .within dir name slashed, .within newDir newName newSlashed =>
    let entry ← ask (·.entryAt (.within dir name slashed))
    let old ← ask (·.named? newDir newName)
    match entry, old with
    | .directory, some .directory =>
      if !(← get).isEmptyAt (newDir ++ [newName]) then throw .notEmpty
    | .directory, some _ => throw .notDirectory
    | _, some .directory => throw .isDirectory
    | .directory, none => pure ()
    | _, _ => if newSlashed then throw .notDirectory
    modify (move (dir ++ [name]) (newDir ++ [newName]))
  | _, _ => throw .busy

/-- Writes a whole file in place of what was in it. The directory must be there. -/
def writeFile (path : String) (data : Bytes) : Call Unit := do
  let file ← openFile path
  if let .file number := file then
    modify fun disk => { disk with contents := disk.contents.set number [] }
  write data file

def readFile (path : String) : Call Bytes := do
  match ← ask fun disk => do disk.entryAt (← disk.place path) with
  | .directory => throw .isDirectory
  | .device => return []
  | .file number => return (← get).content number

end Call

/-- What a call answers, if it does not fail. -/
def Call.answer? {α : Type} (call : Call α) (disk : Disk) : Option α × Disk :=
  match call disk with
  | .ok a disk => (some a, disk)
  | .error _ disk => (none, disk)

end Disk
end BackupAtlas
