namespace BackupAtlas.FilePath

/-- Cuts at every separator; the separators are dropped. -/
def split (separator : Char) : List Char → List (List Char)
  | [] => [[]]
  | c :: rest =>
    if c = separator then [] :: split separator rest
    else
      match split separator rest with
      | [] => [[c]]
      | part :: others => (c :: part) :: others

def names (path : String) : List String :=
  ((split '/' path.toList).filter (· ≠ [])).map String.ofList

/-- The names in a path, without those that stay in the same directory. -/
def components (path : String) : List String := (names path).filter (· ≠ ".")

/-- Whether a slash ends the path, so that it can only mean a directory. -/
def isSlashed (path : String) : Bool := path.toList.getLast? = some '/'

/-- One step down from the directory reached so far, or up by `..`, which stops at the root. -/
def step (reached : List String) (name : String) : List String :=
  if name = ".." then reached.dropLast else reached ++ [name]

/-- Whether a path starts at the root. -/
def isAbsolute (path : String) : Bool := path.toList.head? = some '/'

/-- The path without `.`, `..` and doubled slashes. What is on the disk has no say in it, so links
are not followed. -/
def tidy (path : String) : String :=
  (if isAbsolute path then "/" else "") ++
    String.intercalate "/" ((components path).foldl step [])

/-- Whether a part of a path stays in the same directory. -/
def isIdle (part : List Char) : Bool := part = [] || part = ['.']

/-- The path before the last component. What stays in the same directory does not count as one,
and nothing of it is left at the end. -/
def parent (path : String) : String :=
  let parts := ((split '/' path.toList).reverse.dropWhile isIdle).drop 1
  let kept := (parts.dropWhile isIdle).reverse
  if kept = [] ∧ path.toList.head? = some '/' then "/"
  else String.intercalate "/" (kept.map String.ofList)

/-- The path of `name` in the directory `dir`; an absolute name stands for itself. -/
def join (dir name : String) : String :=
  if isAbsolute name then name
  else if dir.toList.getLast? = some '/' ∨ dir = "" then dir ++ name
  else dir ++ "/" ++ name

/-- What the host knows about paths. -/
structure Host where
  /-- The current directory, unless it is gone. -/
  workDir : Option String := some "/"
  /-- The path without links to what a path leads to, if it leads anywhere. -/
  real? : String → Option String := fun _ => none

/-- A path as it reads in the current directory. -/
def Host.absolute (host : Host) (path : String) : String :=
  match host.workDir with
  | some dir => join dir path
  | none => path

/-- The path by which files are known: without links if something is there, and tidied if not. -/
def resolve (path : String) (host : Host := {}) : String :=
  (host.real? (host.absolute path)).getD (tidy (host.absolute path))

end BackupAtlas.FilePath
