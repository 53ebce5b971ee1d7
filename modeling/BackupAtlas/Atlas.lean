import BackupAtlas.Build
import BackupAtlas.Disk
import BackupAtlas.RuleSet
import BackupAtlas.Sites

namespace BackupAtlas

/-- The mounted snapshots and the rules that classify them. Whenever rules change, the snapshots
that have to do with the changed directories are built again, each from its previous build;
snapshots elsewhere are left alone. A change that fails leaves everything as it was. -/
structure Atlas where
  sites : Sites := .nil
  rules : RuleSet := {}
  /-- All rules, ready for looking up files. -/
  dispatch : Dispatch := {}
  deriving DecidableEq

namespace Atlas

abbrev Change (α : Type) := EStateM Error Atlas α

/-- Rules without snapshots. -/
def ofRules (rules : RuleSet) : Except Error Atlas := do
  pure { rules, dispatch := ← Dispatch.all rules }

/-- What has been worked out without a change. -/
def settled {α : Type} (result : Except Error α) : Change α := fun atlas =>
  match result with
  | .ok a => .ok a atlas
  | .error e => .error e atlas

/-- Mounts a snapshot that was read from `source`, in place of one with the same root. -/
def addTree (lower : StoredTree) (source : String) : Change MountBuild := do
  let overlay ← settled (Overlay.ofTree lower source)
  let root := overlay.root
  let segments := TreePath.segments root
  if root = "/" then throw (.invalidRoot root)
  let atlas ← get
  if !atlas.sites.admits segments then throw (.nestedMount root)
  let dispatch ← settled (Dispatch.ofPlan (Plan.compile atlas.rules root none))
  let (upper, report) ← settled (build overlay.top root dispatch none)
  set { atlas with sites := atlas.sites.place { overlay with upper := some upper } segments }
  pure { root, replaced := atlas.sites.holds segments, report }

/-- Mounts the snapshot in the file at `path`. Only files can be mapped into memory. -/
def addTreeFile (disk : Disk) (path : String) : Change MountBuild :=
  match Disk.Call.readFile path disk with
  | .ok bytes _ => do addTree (← settled (StoredTree.ofBytes bytes)) path
  | .error .isDirectory _ => throw (.fileFailure path "No such device (os error 19)")
  | .error fault _ => throw (.fileFailure path fault.message)

/-- A change of the rules that no snapshot has to know of. -/
def onRules {α : Type} (change : RuleSet.Change α) : Change α := fun atlas =>
  match change atlas.rules with
  | .ok a rules => .ok a { atlas with rules }
  | .error e rules => .error e { atlas with rules }

def claim (directory : Directory) : Change Unit := onRules (RuleSet.claim directory)

def updateDirectory (directory : Directory) : Change Unit :=
  onRules (RuleSet.updateDirectory directory)

def revoke (path : String) : Change Directory := onRules (RuleSet.revoke path)

/-- Whether rules in the directory `dir` have to do with a snapshot of `root`: one of them lies at
or below the other. -/
def isAffected (root dir : String) : Bool :=
  TreePath.isWithin root dir || TreePath.isWithin dir root

/-- Builds a mounted snapshot again, for rules that have changed in the given directories. -/
def rebuild (rules : RuleSet) (changed : List String) (overlay : Overlay) :
    Except Error (Overlay × MountBuild) := do
  let plan := Plan.compile rules overlay.root (overlay.upper.map fun _ => changed)
  let dispatch ← Dispatch.ofPlan plan
  let (upper, report) ← build overlay.top overlay.root dispatch overlay.upper
  pure ({ overlay with upper := some upper }, { root := overlay.root, replaced := true, report })

/-- Replaces the rules, which have changed in the given directories, and builds all snapshots
again that have to do with one of these. -/
def commit (rules : RuleSet) (changed : List String) : Change (List MountBuild) := do
  let atlas ← get
  let dispatch ← settled (Dispatch.all rules)
  let affected := atlas.sites.overlays.filter fun overlay => changed.any (isAffected overlay.root)
  let rebuilt ← settled (affected.mapM (rebuild rules changed))
  let sites := rebuilt.foldl (fun sites (overlay, _) =>
    sites.place overlay (TreePath.segments overlay.root)) atlas.sites
  set { atlas with sites, rules, dispatch }
  pure (rebuilt.map (·.2))

/-- What a change of the rules would answer, and the rules it would leave. -/
def proposed {α : Type} (change : RuleSet.Change α) : Change (α × RuleSet) := fun atlas =>
  match change atlas.rules with
  | .ok a rules => .ok (a, rules) atlas
  | .error e _ => .error e atlas

def addRule (dir : String) (rule : Rule) : Change (List MountBuild) := do
  let ((), rules) ← proposed (RuleSet.addRule dir rule)
  commit rules [dir]

/-- The directories of a batch of rules, each once and in ascending order. -/
def directories (batch : List (String × Rule)) : List String :=
  (Catalog.ofList (batch.map fun (dir, _) => (dir, ()))).names

/-- Adds many rules, each to the directory beside it: either all or none. -/
def addRules (batch : List (String × Rule)) : Change (List MountBuild) := do
  if batch.isEmpty then return []
  let ((), rules) ← proposed (batch.forM fun (dir, rule) => RuleSet.addRule dir rule)
  commit rules (directories batch)

def removeRule (dir pattern : String) : Change (Rule × List MountBuild) := do
  let (rule, rules) ← proposed (RuleSet.removeRule dir pattern)
  pure (rule, ← commit rules [dir])

/-- Replaces the rule with the same id. Snapshots are built again only if its pattern changes. -/
def updateRule (dir : String) (rule : Rule) : Change (List MountBuild) := do
  let (previous, rules) ← proposed (RuleSet.updateRule dir rule)
  if previous.pattern = rule.pattern then
    modify fun atlas => { atlas with rules }
    return []
  commit rules [dir]

end Atlas
end BackupAtlas
