import BackupAtlas.Catalog
import BackupAtlas.Disk
import BackupAtlas.Draft
import BackupAtlas.Forest
import BackupAtlas.Payload
import BackupAtlas.TreePath

namespace BackupAtlas

/-- What has been recorded of a directory, its subdirectories apart. -/
structure CensusDir where
  uid : Nat
  gid : Nat
  files : Catalog FileStat := .empty
  deriving DecidableEq

/-- Stock is taken of a directory: its files and subdirectories are recorded one by one, in any
order, and come out as a snapshot. A snapshot is a stored tree with one entry at the top, named by
the path of the directory. Every directory in it has tallies of all files below it. -/
structure Census where
  /-- The path of the directory, absolute and ending in a slash. -/
  root : String
  tree : DirTree CensusDir
  deriving DecidableEq

namespace Census

abbrev Step := EStateM Error Census Unit

def start (root : String) (uid gid : Nat) : Except Error Census :=
  if TreePath.isAbsoluteDir root then .ok { root, tree := { label := { uid, gid } } }
  else .error (.invalidRoot root)

def outside (census : Census) (path : String) : Error :=
  .invalidSnapshot path s!"not below snapshot root {census.root}"

/-- Changes the record of the directory at `dir`. Missing directories on the way belong to the
owner of the one above them. An error names `path`. -/
def changeDir (dir path : String) (change : CensusDir → CensusDir) : Step := fun census =>
  if TreePath.isWithin dir census.root then
    let inner := String.ofList (dir.toList.drop census.root.toList.length)
    let blank := fun (parent : CensusDir) => { uid := parent.uid, gid := parent.gid }
    let tree := census.tree.along blank (fun last label => if last then change label else label)
      (TreePath.segments inner)
    .ok () { census with tree }
  else .error (census.outside path) census

def addDir (path : String) (uid gid : Nat) : Step :=
  if TreePath.isDir path then changeDir path path fun dir => { dir with uid, gid }
  else throw (.invalidSnapshot path "directory paths must end in '/'")

def addFile (path : String) (file : FileStat) : Step := fun census =>
  match TreePath.upToSlash path.toList with
  | none => .error (census.outside path) census
  | some dir =>
    let name := String.ofList (path.toList.drop dir.length)
    if name = "" then
      .error (.invalidSnapshot path "file paths must not end in '/'") census
    else
      changeDir (String.ofList dir) path
        (fun dir => { dir with files := dir.files.insert name file }) census

/-- The owner of a directory, and tallies of its own files and those of its subdirectories. -/
def stat (dir : CensusDir) (subs : List DirStat) : DirStat :=
  let own := dir.files.values.foldl DirStat.addFile { uid := dir.uid, gid := dir.gid }
  subs.foldl DirStat.addDir own

/-- A directory with the given subdirectories, as a node of the snapshot. -/
def node (name : String) (dir : CensusDir) (subs : List (Piece × DirStat)) : Piece × DirStat :=
  let files : List Piece :=
    dir.files.entries.map fun (name, file) => { name, block := .ofNode file.encode [] }
  let stat := stat dir (subs.map (·.2))
  ({ name, block := .ofNode stat.encode (files ++ subs.map (·.1)) }, stat)

def nodes : Forest CensusDir → List (Piece × DirStat)
  | .nil => []
  | .cons name dir below rest => node name dir (nodes below) :: nodes rest

/-- The snapshot, as the bytes of a stored tree. -/
def toBytes (census : Census) : Bytes :=
  let (top, _) := node census.root census.tree.label (nodes census.tree.below)
  StoredTree.seal (.ofNode [] [top])

def writeFile (census : Census) (path : String) (disk : Disk) : Except Error Unit × Disk :=
  match Disk.Call.writeFile path census.toBytes disk with
  | .ok () disk => (.ok (), disk)
  | .error .noRoom disk => (.error (.unwritable "tree writer" DiskFault.noRoom.message), disk)
  | .error fault disk => (.error (.fileFailure path fault.message), disk)

end Census
end BackupAtlas
