import BackupAtlas.Forest
import BackupAtlas.RuleSet

namespace BackupAtlas.Terrain

/-- What happens to the directories that have no claims in or below them. -/
inductive Default where
  /-- Their files may go to different rules. -/
  | walk
  /-- All their files go to one rule. -/
  | toRule (rule : Nat)
  deriving DecidableEq, Repr

/-- What is known of a directory in scope: its rules, whether they have changed since the previous
build, and whether it lies on the way to the scope. In scope are the claims at or below it and those
of the directories above it. -/
structure Ground where
  /-- The rules of its claim: patterns and ids, in the order of the patterns. -/
  rules : List (List Char × Nat) := []
  changed : Bool := false
  /-- It lies on the way from the root to the scope. -/
  leadsToScope : Bool := false
  deriving DecidableEq, Repr

namespace Ground

def star? (ground : Ground) : Option Nat := (ground.rules.find? (·.1 == ['*'])).map (·.2)

def hasShape (ground : Ground) (shape : Pattern.Shape) : Bool :=
  ground.rules.any fun (pattern, _) => Pattern.Shape.of pattern == shape

/-- Its own rules have changed, or those of a directory above it and no rule `*` shields it. -/
def isDirty (ground : Ground) (parentDirty : Bool) : Bool :=
  ground.changed || parentDirty && ground.star?.isNone

/-- The default of its subdirectories, given its own. -/
def default (ground : Ground) (inherited : Default) : Default :=
  if ground.hasShape .starFirst then .walk
  else
    match ground.star? with
    | some rule => .toRule rule
    | none => inherited

/-- The texts before the first star of its patterns, in ascending order. Subdirectories that
start with such a text have a default of their own: a single rule when `text*` is the only
pattern with that text. -/
def heads (ground : Ground) : List (String × Default) :=
  ground.rules.foldl (fun heads (pattern, rule) =>
    match Pattern.cut? pattern with
    | none | some ([], _) => heads
    | some (text, rest) =>
      let text := String.ofList text
      let single := rest = [] ∧ (Entries.get? text heads).isNone
      Entries.insert text (if single then .toRule rule else .walk) heads) []

end Ground

/-- The default for a subdirectory: the one for the longest text that its name starts with, or
else the one of the directory that holds it. -/
def inherit (default : Default) (heads : List (String × Default)) (name : String) : Default :=
  match (heads.filter fun (text, _) => text.toList.isPrefixOf name.toList).getLast? with
  | some (_, default) => default
  | none => default

/-- Whether claims at `path` have to do with `scope`: one of them lies at or below the other. -/
def isRelevant (scope path : String) : Bool :=
  TreePath.isWithin path scope || TreePath.isWithin scope path

/-- The claims in scope as a tree. Without a list of changed directories everything counts as
changed. -/
def survey (set : RuleSet) (scope : String) (changed : Option (List String)) : DirTree Ground :=
  let claims := set.claims.entries.filter fun (path, _) => isRelevant scope path
  let start : DirTree Ground := { label := { changed := changed.isNone } }
  let start := start.along (fun _ => {}) (fun _ ground => { ground with leadsToScope := true })
    (TreePath.segments scope)
  let withClaims := claims.foldl (fun tree (path, claim) =>
    let rules := claim.rules.entries.map fun (pattern, rule) => (pattern.toList, rule.id)
    tree.along (fun _ => {}) (fun last ground =>
      if last then { ground with rules, changed := ground.changed || changed.isNone } else ground)
      (TreePath.segments path)) start
  ((changed.getD []).filter (isRelevant scope)).foldl (fun tree path =>
    tree.along (fun _ => {}) (fun last ground => if last then { ground with changed := true } else ground)
      (TreePath.segments path)) withClaims

end BackupAtlas.Terrain
