import BackupAtlas.Matcher
import BackupAtlas.Terrain

namespace BackupAtlas

/-- What a build does with a directory. Directives follow from the claims in scope, arranged as a
tree, and from which directories have changed since the previous build: what lies below a directory
can be kept from the previous build, or all of it goes to one rule, or the directory has to be
walked file by file. -/
inductive Directive where
  /-- Walk it: each file goes to its own rule, each subdirectory has its own directive. -/
  | process
  /-- Everything in it goes to one rule, which was not so before. -/
  | assign (rule : Nat)
  /-- Nothing in it has changed since the previous build. If there is none, everything in it
  goes to the rule. -/
  | reuse (rule : Nat)
  /-- There is no directive for it: as if unchanged and without a rule. -/
  | unmatched
  deriving DecidableEq, Repr

namespace Terrain

def Default.directive (dirty : Bool) : Default → Directive
  | walk => .process
  | toRule rule => if dirty then .assign rule else .reuse rule

/-- The patterns of files, directory by directory. -/
def rulesBelow (path : List Char) : Forest Ground → List (List Char × Nat)
  | .nil => []
  | .cons name ground below rest =>
    let here := path ++ name.toList
    ground.rules.map (fun (pattern, rule) => (here ++ pattern, rule)) ++
      (rulesBelow here below ++ rulesBelow path rest)

/-- The directives for the directory at `path` itself and for its subdirectories without claims,
followed by those further `inside`, if the directory has to be walked. -/
def Ground.directives (ground : Ground) (path : List Char) (inherited : Default) (dirty : Bool)
    (below : Forest Ground) (inside : List (List Char × Directive)) :
    List (List Char × Directive) :=
  let default := ground.default inherited
  let walked :=
    (path, .process) :: (path ++ ['*', '/'], default.directive dirty) ::
      ground.heads.map (fun (text, default) =>
        (path ++ text.toList ++ ['*', '/'], default.directive dirty)) ++ inside
  if ground.leadsToScope then walked
  else if !dirty && !below.any (·.changed) then
    let rule := match default with
      | .toRule rule => rule
      | .walk => 0
    [(path, .reuse rule)]
  else
    match default with
    | .walk => walked
    | .toRule rule =>
      if ground.rules.any (fun (pattern, _) => pattern ≠ ['*']) || below.any (·.rules ≠ []) then
        walked
      else [(path, .assign rule)]

/-- The directives for the directories at and below the siblings in the directory at `path`,
which has the given defaults for its subdirectories. -/
def directivesBelow (path : List Char) (parentDirty : Bool) (default : Default)
    (heads : List (String × Default)) : Forest Ground → List (List Char × Directive)
  | .nil => []
  | .cons name ground below rest =>
    let here := path ++ name.toList
    let dirty := ground.isDirty parentDirty
    let inherited := inherit default heads name
    let inside := directivesBelow here dirty (ground.default inherited) ground.heads below
    ground.directives here inherited dirty below inside ++
      directivesBelow path parentDirty default heads rest

end Terrain

/-- From claimed directories to patterns over whole paths, in the order of the directories. For
files these are `<dir><pattern>` with the id of the rule; for directories they are `<dir>`,
`<dir>*/` and `<dir><text>*/` with a directive that tells how much of such a directory a build has
to look at. -/
structure Plan where
  rules : List (List Char × Nat)
  directives : List (List Char × Directive)
  deriving DecidableEq, Repr

namespace Plan

def ofTree (tree : DirTree Terrain.Ground) : Plan :=
  let ground := tree.label
  let dirty := ground.isDirty false
  let inside :=
    Terrain.directivesBelow ['/'] dirty (ground.default (.toRule 0)) ground.heads tree.below
  { rules := ground.rules.map (fun (pattern, rule) => ('/' :: pattern, rule)) ++
      Terrain.rulesBelow ['/'] tree.below
    directives := ground.directives ['/'] (.toRule 0) dirty tree.below inside }

/-- The plan for the claims at, above and below the directory `scope`. With a list of the
directories whose rules have changed since the previous build, it keeps what it can of that
build; without one it keeps nothing. -/
def compile (set : RuleSet) (scope : String) (changed : Option (List String)) : Plan :=
  ofTree (Terrain.survey set scope changed)

def directiveAt? (plan : Plan) (pattern : String) : Option Directive :=
  (plan.directives.find? fun (key, _) => key == pattern.toList).map (·.2)

end Plan

/-- A plan made ready for looking up paths. -/
structure Dispatch where
  files : Matcher Nat := {}
  dirs : Matcher Directive := {}
  deriving DecidableEq, Repr

namespace Dispatch

def ofPlan (plan : Plan) : Except Error Dispatch := do
  let files ← Matcher.compile plan.rules
  let dirs ← Matcher.compile plan.directives
  pure { files, dirs }

/-- All claims. -/
def all (set : RuleSet) : Except Error Dispatch := ofPlan (Plan.compile set "/" none)

/-- The rule for the file at `path`, or 0. -/
def ruleFor (dispatch : Dispatch) (path : List Char) : Nat := (dispatch.files.lookup path).getD 0

/-- The directive for the directory at `path`, which ends in a slash. -/
def directiveFor (dispatch : Dispatch) (path : List Char) : Directive :=
  (dispatch.dirs.lookup path).getD .unmatched

end Dispatch
end BackupAtlas
