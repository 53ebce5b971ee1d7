import BackupAtlas.Overlay

namespace BackupAtlas

/-- Where snapshots are mounted: siblings in ascending order of their names, which end in a slash.
The directories that lead to mounted snapshots form a tree; a directory with a snapshot has nothing
else below it, so the roots of mounted snapshots never nest. A query for a path is routed down this
tree to the snapshot that answers it. -/
inductive Sites where
  | nil
  /-- A directory that only leads to snapshots. -/
  | dir (name : String) (below : Sites) (rest : Sites)
  /-- A directory with a snapshot. -/
  | mount (name : String) (overlay : Overlay) (rest : Sites)
  deriving DecidableEq, Repr

/-- One of the siblings. -/
inductive Site where
  | dir (below : Sites)
  | mount (overlay : Overlay)
  deriving DecidableEq, Repr

inductive Located where
  /-- To a directory above the mounted snapshots. -/
  | above (below : Sites)
  /-- Into a mounted snapshot. -/
  | inside (overlay : Overlay)
  deriving DecidableEq, Repr

namespace Sites

instance : Inhabited Sites := ⟨nil⟩

def entries : Sites → List (String × Site)
  | nil => []
  | dir name below rest => (name, .dir below) :: entries rest
  | mount name overlay rest => (name, .mount overlay) :: entries rest

def find? (name : String) : Sites → Option Site
  | nil => none
  | dir key below rest => if name = key then some (.dir below) else find? name rest
  | mount key overlay rest => if name = key then some (.mount overlay) else find? name rest

/-- The siblings `rest` behind one called `name`. -/
def cons (name : String) (site : Site) (rest : Sites) : Sites :=
  match site with
  | .dir below => dir name below rest
  | .mount overlay => mount name overlay rest

/-- Changes the sibling called `name`, or makes it. -/
def alter (name : String) (change : Option Site → Site) : Sites → Sites
  | nil => cons name (change none) nil
  | dir key below rest =>
    if name < key then cons name (change none) (dir key below rest)
    else if name = key then cons name (change (some (.dir below))) rest
    else dir key below (alter name change rest)
  | mount key overlay rest =>
    if name < key then cons name (change none) (mount key overlay rest)
    else if name = key then cons name (change (some (.mount overlay))) rest
    else mount key overlay (alter name change rest)

/-- Follows segments as far as there are directories without snapshots. -/
def locate (sites : Sites) : List String → Option Located
  | [] => some (.above sites)
  | segment :: rest =>
    match sites.find? segment with
    | none => none
    | some (.dir below) => locate below rest
    | some (.mount overlay) => some (.inside overlay)

/-- Whether a snapshot can be mounted under the given segments: none is mounted above or below. -/
def admits (sites : Sites) : List String → Bool
  | [] => false
  | segment :: rest =>
    match sites.find? segment with
    | none => true
    | some (.mount _) => rest.isEmpty
    | some (.dir below) => !rest.isEmpty && admits below rest

/-- Whether a snapshot is mounted under exactly these segments. -/
def holds (sites : Sites) : List String → Bool
  | [] => false
  | segment :: rest =>
    match sites.find? segment with
    | none => false
    | some (.mount _) => rest.isEmpty
    | some (.dir below) => holds below rest

/-- Mounts a snapshot under the given segments, in place of one that is mounted there. -/
def place (overlay : Overlay) : List String → Sites → Sites
  | [], sites => sites
  | [segment], sites => sites.alter segment fun _ => .mount overlay
  | segment :: rest, sites => sites.alter segment fun
    | none => .dir (place overlay rest nil)
    | some (.dir below) => .dir (place overlay rest below)
    | some (.mount other) => .mount other

/-- The mounted snapshots in ascending order of their roots. -/
def overlays : Sites → List Overlay
  | nil => []
  | dir _ below rest => overlays below ++ overlays rest
  | mount _ overlay rest => overlay :: overlays rest

/-- The figures of several directories together. They belong to the superuser. -/
def total (digests : List (String × Digest)) : Digest :=
  { shares := digests.foldl (fun shares (_, digest) => Share.merge shares digest.shares) [] }

def digests : Sites → Except Error (List (String × Digest))
  | nil => .ok []
  | dir name below rest => do
    let inner ← digests below
    let others ← digests rest
    pure ((name, total inner) :: others)
  | mount name overlay rest => do
    let inner ← overlay.view.digest
    let others ← digests rest
    pure ((name, inner) :: others)

def summary (sites : Sites) : Except Error Summary := do
  let digests ← sites.digests
  pure { digest := total digests, children := .ofList digests }

end Sites
end BackupAtlas
