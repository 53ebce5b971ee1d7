namespace BackupAtlas.TreePath

/-- Cuts behind every slash. -/
def pieces : List Char → List (List Char)
  | [] => []
  | c :: rest =>
    if c = '/' then ['/'] :: pieces rest
    else
      match pieces rest with
      | [] => [[c]]
      | piece :: others => (c :: piece) :: others

/-- Without one slash at the front. -/
def relative : List Char → List Char
  | '/' :: rest => rest
  | path => path

/-- The segments of a path inside a snapshot. Paths are absolute and separated by slashes; that of a
directory ends in a slash and that of a file does not, and segments follow the same rule: `MyDir/`
and `a.txt`. A slash at the front does not count. -/
def segments (path : String) : List String := (pieces (relative path.toList)).map String.ofList

def below (dir : String) (segments : List String) : String := segments.foldl (· ++ ·) dir

/-- Whether a segment or a path denotes a directory. -/
def isDir (name : String) : Bool := name.toList.getLast? == some '/'

/-- Whether `path` is an absolute path of a directory. -/
def isAbsoluteDir (path : String) : Bool := path.toList.head? == some '/' && isDir path

/-- Whether `path` is `dir` or lies below it. -/
def isWithin (path dir : String) : Bool := dir.toList.isPrefixOf path.toList

/-- Everything up to the last slash, when there is one. -/
def upToSlash (path : List Char) : Option (List Char) :=
  match path.reverse.dropWhile (· != '/') with
  | [] => none
  | rest => some rest.reverse

/-- The directory that holds `path`: `/a/` for `/a/b/` and for `/a/b.txt`. The root has none. -/
def parent? (path : String) : Option String :=
  let chars := path.toList
  let trimmed := if isDir path then chars.dropLast else chars
  (upToSlash trimmed).map String.ofList

end BackupAtlas.TreePath
