import BackupAtlas.Atlas
import BackupAtlas.Glob
import BackupAtlas.Names

namespace BackupAtlas

/-- Why a query has no answer. -/
inductive QueryFault where
  | failed (error : Error)
  /-- The path leads to a snapshot but, written without its first slash, is shorter than the root
  of the snapshot, or that root ends within one of its characters. -/
  | outOfRange
  deriving DecidableEq, Repr

/-- What an atlas answers when it is asked for figures or for the owner or the kind of a path. -/
abbrev Query (α : Type) := Except QueryFault α

instance : MonadLift (Except Error) (Except QueryFault) where
  monadLift
    | .ok a => .ok a
    | .error e => .error (.failed e)

namespace TreePath

/-- What is left of a path behind its first `size` bytes. -/
def behindBytes : (size : Nat) → List Char → Option (List Char)
  | 0, path => some path
  | _ + 1, [] => none
  | size + 1, c :: rest =>
    if c.utf8Size ≤ size + 1 then behindBytes (size + 1 - c.utf8Size) rest else none

end TreePath

namespace Atlas

/-- What a path leads to: a directory above the mounted snapshots, or what a snapshot has. -/
inductive Target where
  | above (below : Sites)
  | item (item : Item)
  | absent
  deriving DecidableEq, Repr

/-- Follows a path. Its first slash may be missing. -/
def target (atlas : Atlas) (path : String) : Query Target :=
  match atlas.sites.locate (TreePath.segments path) with
  | none => .ok .absent
  | some (.above below) => .ok (.above below)
  | some (.inside overlay) =>
    match TreePath.behindBytes overlay.root.utf8ByteSize path.toList with
    | none => .error .outOfRange
    | some relative => do
      match ← overlay.lookup (String.ofList relative) with
      | some item => pure (.item item)
      | none => pure .absent

def missing {α : Type} (path : String) : Query α := .error (.failed (.notFound path))

/-- The one who has claimed exactly this directory, or the empty text. -/
def claimant (atlas : Atlas) (path : String) : String :=
  match atlas.rules.get? path with
  | some claim => claim.directory.claimedBy
  | none => ""

/-- The figures of the directory at `path` and of its subdirectories, before names are put in. -/
def figures (atlas : Atlas) (path : String) : Query Summary := do
  match ← atlas.target path with
  | .above below => if TreePath.isDir path then below.summary else missing path
  | .item (.dir view) => view.summary
  | .item (.file _) | .absent => missing path

/-- The figures of a directory and of its subdirectories, with the names of users and groups and
of claimants. -/
def summary (atlas : Atlas) (naming : Naming) (path : String) : Query Summary := do
  let summary ← atlas.figures path
  let children := summary.children.mapNamed fun name (digest : Digest) =>
    { digest with claimedBy := atlas.claimant (path ++ name) }
  let digest := { summary.digest with claimedBy := atlas.claimant path }
  pure ({ digest, children : Summary }.named naming)

/-- The owner of a file or directory. Directories above the snapshots belong to the superuser. -/
def owner (atlas : Atlas) (path : String) : Query Owner := do
  match ← atlas.target path with
  | .above _ => if TreePath.isDir path then pure ⟨0, 0⟩ else missing path
  | .item (.dir view) => view.owner
  | .item (.file stat) => pure ⟨stat.uid, stat.gid⟩
  | .absent => missing path

def isDirectory (atlas : Atlas) (path : String) : Query Bool := do
  match ← atlas.target path with
  | .above _ => pure (TreePath.isDir path)
  | .item (.dir _) => pure true
  | .item (.file _) => pure false
  | .absent => missing path

section

variable {dialect : Glob.Dialect}

/-- The paths below the snapshot directory at `path` that match the given segments in turn. -/
def expandView (path : String) (view : View) : List (GlobSegment dialect) → Except Error (List String)
  | [] => .ok [path]
  | segment :: rest => do
    let matching := (← view.entries).filter fun (name, _) => segment.matchesName name
    let found ← matching.mapM fun (name, dir) =>
      match dir with
      | some view => expandView (path ++ name) view rest
      | none => pure (if rest.isEmpty then [path ++ name] else [])
    pure found.flatten

def expandSites (path : String) (sites : Sites) : List (GlobSegment dialect) → Except Error (List String)
  | [] => .ok [path]
  | segment :: rest => do
    let matching := sites.entries.filter fun (name, _) => segment.matchesName name
    let found ← matching.mapM fun (name, site) =>
      match site with
      | .dir below => expandSites (path ++ name) below rest
      | .mount overlay => expandView (path ++ name) overlay.view rest
    pure found.flatten

end

/-- The paths that match one of the globs, each once and in ascending order. -/
def globPaths (atlas : Atlas) (patterns : List String) (dialect : Glob.Dialect := Glob.shell) :
    Except Error (List String) := do
  let globs : List (PathGlob dialect) ← patterns.mapM PathGlob.parse
  let found ← globs.mapM fun glob => expandSites "/" atlas.sites glob.segments
  pure (Catalog.ofList (found.flatten.map fun path => (path, ()))).names

/-- The rule for the file at `path`, or 0. -/
def ruleFor (atlas : Atlas) (path : String) : Nat := atlas.dispatch.ruleFor path.toList

def directory? (atlas : Atlas) (path : String) : Option Claim := atlas.rules.get? path

def mounts (atlas : Atlas) : List String := atlas.sites.overlays.map (·.root)

def counts (atlas : Atlas) : Nat × Nat := (atlas.rules.size, atlas.rules.ruleCount)

def describe (atlas : Atlas) : String :=
  let (directories, rules) := atlas.counts
  s!"RuleTree \x7b directories: {directories}, rules: {rules}, .. \x7d"

end Atlas
end BackupAtlas
