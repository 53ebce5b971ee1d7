import BackupAtlas.Counterpart
import BackupAtlas.Draft
import BackupAtlas.Plan

namespace BackupAtlas

structure Report where
  processed : Nat := 0
  assigned : Nat := 0
  reused : Nat := 0
  /-- Entries of the previous tree that were read. -/
  priorVisited : Nat := 0
  files : Nat := 0
  /-- The length of the tagged tree. -/
  bytes : Nat := 0
  deriving DecidableEq, Repr, Inhabited

/-- The children of a directory's counterpart in the previous tree that are still to be read. They
are read in step with the subdirectories, both in ascending order, so no entry of the previous tree
is read twice. -/
inductive PriorChildren where
  /-- `pending` has been read, but stands behind all names that were asked for. -/
  | listed (pending : Option (String × Node)) (rest : Nodes)
  | uniform (rule : Nat)
  | absent
  deriving DecidableEq, Repr

structure MountBuild where
  root : String
  replaced : Bool
  report : Report
  deriving DecidableEq, Repr, Inhabited

namespace PriorChildren

def ofCounterpart : Counterpart → Except Error PriorChildren
  | .node node => return listed none (← node.children)
  | .uniform rule => .ok (uniform rule)
  | .absent => .ok absent

/-- Where a search among entries ends: a counterpart, what is left, and how many were read. -/
abbrev Found := Counterpart × PriorChildren × Nat

/-- What follows from having read the child `key`, or nothing if it stands before `name`. -/
def settle (name key : String) (node : Node) (rest : Nodes) (visited : Nat) :
    Option (Except Error Found) :=
  if key < name then none
  else if key = name then
    some ((Counterpart.ofNode node).map fun found => (found, listed none rest, visited))
  else some (.ok (.absent, listed (some (key, node)) rest, visited))

/-- Reads entries up to the first one that does not stand before `name`. -/
def advance (name : String) (visited : Nat) : Nodes → Except Error Found
  | .done => .ok (.absent, listed none .done, visited)
  | .flaw reason _ => .error reason
  | .torn key reason rest =>
    (settle name key (.torn reason) rest (visited + 1)).getD (advance name (visited + 1) rest)
  | .entry key data block below rest =>
    (settle name key (.sound data block below) rest (visited + 1)).getD
      (advance name (visited + 1) rest)

/-- The counterpart of the subdirectory `name`, what is left for the names after it, and how
many entries were read. -/
def seek (name : String) : PriorChildren → Except Error Found
  | listed (some (key, node)) rest => (settle name key node rest 0).getD (advance name 0 rest)
  | listed none rest => advance name 0 rest
  | uniform rule => .ok (.uniform rule, uniform rule, 0)
  | absent => .ok (.absent, absent, 0)

end PriorChildren

structure Walk where
  prior : PriorChildren
  /-- The shares of what has been seen. -/
  shares : List Share := []
  /-- The subdirectories that are finished. -/
  pieces : List Piece := []
  report : Report
  deriving DecidableEq, Repr

namespace Walk

def enter (prior : Counterpart) (report : Report) : Except Error Walk := do
  let prior ← PriorChildren.ofCounterpart prior
  pure { prior, report := { report with processed := report.processed + 1 } }

def seek (walk : Walk) (name : String) : Except Error (Counterpart × Walk) := do
  let (found, prior, visited) ← walk.prior.seek name
  let report := { walk.report with priorVisited := walk.report.priorVisited + visited }
  pure (found, { walk with prior, report })

def file (walk : Walk) (dispatch : Dispatch) (path : List Char) (node : Node) :
    Except Error Walk := do
  let file ← FileStat.decode (← node.data)
  pure { walk with
    shares := Share.addFile (dispatch.ruleFor path) file walk.shares
    report := { walk.report with files := walk.report.files + 1 } }

/-- Gives all files below a subdirectory to one rule. -/
def uniform (walk : Walk) (name : String) (node : Node) (rule : Nat) : Except Error Walk := do
  let dir ← DirStat.decode (← node.data)
  let data := TaggedDir.encode { uid := dir.uid, gid := dir.gid, tagging := .uniform rule }
  pure { walk with
    shares := Share.addDir rule dir walk.shares
    pieces := walk.pieces ++ [{ name, block := .ofNode data [] }] }

/-- Keeps what the previous tree says of a subdirectory; if it says nothing, all files go to
`rule`. -/
def reuse (walk : Walk) (name : String) (node : Node) (rule : Nat) : Except Error Walk := do
  let report := { walk.report with reused := walk.report.reused + 1 }
  let (found, walk) ← { walk with report }.seek name
  match found with
  | .node previous =>
    let dir ← TaggedDir.decode (← previous.data)
    let shares := match dir.tagging with
      | .shares shares => Share.merge walk.shares shares
      | .uniform _ => walk.shares
    let block ← previous.block
    pure { walk with shares, pieces := walk.pieces ++ [⟨name, block⟩] }
  | .uniform previous => walk.uniform name node previous
  | .absent => walk.uniform name node rule

/-- The payload of a directory with the given owner that has been walked. -/
def tagged (walk : Walk) (owner : Owner) : Bytes :=
  TaggedDir.encode { uid := owner.uid, gid := owner.gid, tagging := .shares walk.shares }

/-- Leaves a subdirectory and takes over what was found `inside`. -/
def leave (walk : Walk) (name : String) (owner : Owner) (inside : Walk) : Walk :=
  { walk with
    shares := Share.merge walk.shares inside.shares
    pieces := walk.pieces ++ [{ name, block := .ofNode (inside.tagged owner) inside.pieces }]
    report := inside.report }

def nodes (dispatch : Dispatch) (path : List Char) : Nodes → Walk → Except Error Walk
  | .done, walk => .ok walk
  | .flaw reason _, _ => .error reason
  | .torn name reason rest, walk => do
    let here := path ++ name.toList
    let walk ←
      if TreePath.isDir name then
        match dispatch.directiveFor here with
        | .process => do
          let _ ← walk.seek name
          throw reason
        | .assign _ => throw reason
        | .reuse rule => walk.reuse name (.torn reason) rule
        | .unmatched => walk.reuse name (.torn reason) 0
      else throw reason
    nodes dispatch path rest walk
  | .entry name data block below rest, walk => do
    let here := path ++ name.toList
    let node := Node.sound data block below
    let walk ←
      if TreePath.isDir name then
        match dispatch.directiveFor here with
        | .process => do
          let (prior, walk) ← walk.seek name
          let owner ← DirStat.decodeOwner data
          let inside ← nodes dispatch here below (← enter prior walk.report)
          pure (walk.leave name owner inside)
        | .assign rule =>
          let report := { walk.report with assigned := walk.report.assigned + 1 }
          { walk with report }.uniform name node rule
        | .reuse rule => walk.reuse name node rule
        | .unmatched => walk.reuse name node 0
      else walk.file dispatch here node
    nodes dispatch path rest walk

end Walk

/-- The tagged tree of the snapshot directory `top` at the path `root`, and what building it took.
The snapshot is walked under the directives of a plan. Files are dispatched to their rules one by
one where the directive says so; elsewhere the tallies of a whole directory go to one rule, or the
node of the previous tagged tree is copied. -/
def build (top : Node) (root : String) (dispatch : Dispatch) (previous : Option StoredTree) :
    Except Error (StoredTree × Report) := do
  let prior := match previous with
    | some tree => Counterpart.node tree.root
    | none => .absent
  let owner ← DirStat.decodeOwner (← top.data)
  let walk ← Walk.enter prior {}
  let walk ← Walk.nodes dispatch root.toList (← top.children) walk
  let bytes := StoredTree.seal (.ofNode (walk.tagged owner) walk.pieces)
  let tree ← StoredTree.ofBytes bytes
  pure (tree, { walk.report with bytes := bytes.length })

end BackupAtlas
