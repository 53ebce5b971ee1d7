import BackupAtlas.Catalog
import BackupAtlas.Counterpart
import BackupAtlas.TreePath

namespace BackupAtlas

/-- The figures of a directory. -/
structure Digest where
  uid : Nat := 0
  gid : Nat := 0
  /-- Names of the owner, filled in where a digest is shown. -/
  user : String := ""
  group : String := ""
  claimedBy : String := ""
  shares : List Share := []
  deriving DecidableEq, Repr, Inhabited

namespace Digest

/-- The number of files and their size, for all rules. -/
def totals (digest : Digest) : Nat × Nat :=
  digest.shares.foldl (fun (files, size) share =>
    (Word.add files share.totals.1, Word.add size share.totals.2)) (0, 0)

/-- What belongs to one rule. -/
def share? (digest : Digest) (rule : Nat) : Option Share := Share.find? rule digest.shares

end Digest

structure Summary where
  digest : Digest
  children : Catalog Digest := .empty
  deriving DecidableEq

/-- A directory of a snapshot with its counterpart. -/
structure View where
  lower : Node
  upper : Counterpart
  deriving DecidableEq, Repr

inductive Item where
  | dir (view : View)
  | file (stat : FileStat)
  deriving DecidableEq, Repr

namespace View

def owner (view : View) : Except Error Owner := do DirStat.decodeOwner (← view.lower.data)

/-- All files of the directory for one rule. -/
def relabelled (view : View) (rule : Nat) : Except Error (List Share) := do
  let dir ← DirStat.decode (← view.lower.data)
  pure (Share.addDir rule dir [])

/-- The shares of all files below the directory. -/
def shares (view : View) : Except Error (List Share) :=
  match view.upper with
  | .node node => do
    match (← TaggedDir.decode (← node.data)).tagging with
    | .shares shares => pure shares
    | .uniform rule => view.relabelled rule
  | .uniform rule => view.relabelled rule
  | .absent => view.relabelled 0

/-- The subdirectory called `name`, which ends in a slash. -/
def child? (view : View) (name : String) : Except Error (Option View) :=
  if TreePath.isDir name then do
    match ← view.lower.child? name with
    | none => pure none
    | some lower => pure (some { lower, upper := ← view.upper.child name })
  else .ok none

/-- Looks for `name` among entries in ascending order, and returns what follows the entries that
do not stand behind it. -/
def advance (name : String) : Nodes → Except Error (Option Node × Nodes)
  | .done => .ok (none, .done)
  | .flaw reason _ => .error reason
  | .torn key reason rest =>
    if key < name then advance name rest
    else if key = name then .ok (some (.torn reason), rest)
    else .ok (none, .torn key reason rest)
  | .entry key data block below rest =>
    if key < name then advance name rest
    else if key = name then .ok (some (.sound data block below), rest)
    else .ok (none, .entry key data block below rest)

/-- The counterpart of a subdirectory, given what is left of the entries of the counterpart of
the directory, and what is left then. -/
def pair (name : String) : Counterpart → Nodes → Except Error (Counterpart × Nodes)
  | .node _, rest => do
    let (found, rest) ← advance name rest
    pure (← Counterpart.ofNode? found, rest)
  | .uniform rule, rest => .ok (.uniform rule, rest)
  | .absent, rest => .ok (.absent, rest)

/-- The children among `lower`, subdirectories with their views. The entries of the counterpart
are read in step with them. -/
def pairAll (upper : Counterpart) (lower uppers : Nodes) :
    Except Error (List (String × Option View)) :=
  match lower with
  | .done => .ok []
  | .flaw reason _ => .error reason
  | .torn name reason rest => do
    if TreePath.isDir name then
      let (found, uppers) ← pair name upper uppers
      let others ← pairAll upper rest uppers
      pure ((name, some { lower := .torn reason, upper := found }) :: others)
    else
      let others ← pairAll upper rest uppers
      pure ((name, none) :: others)
  | .entry name data block below rest => do
    if TreePath.isDir name then
      let (found, uppers) ← pair name upper uppers
      let others ← pairAll upper rest uppers
      pure ((name, some { lower := .sound data block below, upper := found }) :: others)
    else
      let others ← pairAll upper rest uppers
      pure ((name, none) :: others)

/-- All children in the order of their names, subdirectories with their views. -/
def entries (view : View) : Except Error (List (String × Option View)) := do
  let uppers ← match view.upper with
    | .node node => node.children
    | _ => pure .done
  pairAll view.upper (← view.lower.children) uppers

def children (view : View) : Except Error (List (String × View)) := do
  pure ((← view.entries).filterMap fun (name, dir) => dir.map (name, ·))

def digest (view : View) : Except Error Digest := do
  let owner ← view.owner
  pure { uid := owner.uid, gid := owner.gid, shares := ← view.shares }

/-- The figures of the directory and of each of its subdirectories. -/
def summary (view : View) : Except Error Summary := do
  let digest ← view.digest
  let children ← (← view.children).mapM fun (name, child) => do pure (name, ← child.digest)
  pure { digest, children := .ofList children }

end View

/-- A mounted snapshot together with its tagged tree. The snapshot says which directories and files
there are and who owns them, the tagged tree how the files belong to rules. Where the tagged tree
says nothing, files belong to no rule; where it says that one rule has all files, the tallies of the
snapshot count for that rule. -/
structure Overlay where
  /-- The absolute path of the directory of which it is a snapshot. -/
  root : String
  lower : StoredTree
  /-- The entry of that directory in the snapshot. -/
  top : Node
  upper : Option StoredTree := none
  deriving DecidableEq, Repr

namespace Overlay

/-- A snapshot must have a single entry at the top, named by an absolute path. -/
def ofTree (lower : StoredTree) (source : String) : Except Error Overlay := do
  let nodes ← lower.root.children
  let wrong : Except Error (String × Node) :=
    .error (.invalidSnapshot source s!"expected exactly one top-level entry, found {nodes.count}")
  let (root, top) ← match nodes with
    | .flaw reason _ => .error reason
    | .torn name reason .done => .ok (name, .torn reason)
    | .entry name data block below .done => .ok (name, .sound data block below)
    | _ => wrong
  if TreePath.isAbsoluteDir root then pure { root, lower, top } else .error (.invalidRoot root)

/-- The directory of which it is a snapshot. -/
def view (overlay : Overlay) : View :=
  { lower := overlay.top
    upper := match overlay.upper with
      | some tree => .node tree.root
      | none => .absent }

/-- Follows segments down from a directory. -/
def find? (view : View) : List String → Except Error (Option Item)
  | [] => .ok (some (.dir view))
  | segment :: rest => do
    match ← view.lower.child? segment with
    | none => pure none
    | some lower =>
      if TreePath.isDir segment then
        find? { lower, upper := ← view.upper.child segment } rest
      else if rest.isEmpty then pure (some (.file (← FileStat.decode (← lower.data))))
      else pure none

/-- What a path relative to the root names; the empty path is the root itself. -/
def lookup (overlay : Overlay) (relative : String) : Except Error (Option Item) :=
  find? overlay.view (TreePath.segments relative)

end Overlay
end BackupAtlas
