import BackupAtlas.Error
import BackupAtlas.TreePath

namespace BackupAtlas

namespace Glob

/-- What a segment is made of: `?` stands for one character, `*` for any run of characters,
`[ab0-9]` for one of the characters listed and `[!ab0-9]` for one that is not. -/
inductive Token where
  | literal (c : Char)
  /-- Any one character. -/
  | any
  /-- Any run of characters, also none. -/
  | run
  /-- One character within one of the ranges, ends included; or one outside all of them. -/
  | range (negated : Bool) (ranges : List (Char × Char))
  deriving DecidableEq, Repr

/-- The ranges listed between brackets: `a-z`, or a single character. A hyphen that stands first
or last is itself a character. -/
def ranges : List Char → List (Char × Char)
  | first :: '-' :: last :: rest => (first, last) :: ranges rest
  | c :: rest => (c, c) :: ranges rest
  | [] => []

mutual

/-- The tokens of a segment. A closing bracket that stands first in a list is itself listed. There
are none if a bracket is not closed or two stars stand side by side. -/
def tokens : List Char → Option (List Token)
  | [] => some []
  | '?' :: rest => (tokens rest).map (.any :: ·)
  | '*' :: rest => if rest.head? = some '*' then none else (tokens rest).map (.run :: ·)
  | '[' :: '!' :: c :: rest => members true [c] rest
  | '[' :: c :: rest => members false [c] rest
  | ['['] => none
  | c :: rest => (tokens rest).map (.literal c :: ·)

/-- The tokens of a segment from inside a bracket, in which some characters have been read. -/
def members (negated : Bool) (read : List Char) : List Char → Option (List Token)
  | [] => none
  | ']' :: rest => (tokens rest).map (.range negated (ranges read) :: ·)
  | c :: rest => members negated (read ++ [c]) rest

end

/-- The tokens of a whole segment, which may also be two stars and nothing else. -/
def parse (body : List Char) : Option (List Token) :=
  if body = ['*', '*'] then some [.run] else tokens body

/-- Whether one character fits a token. -/
def Token.admits : Token → Char → Bool
  | literal c, d => c == d
  | any, _ | run, _ => true
  | range negated ranges, c =>
    (ranges.any fun (first, last) => first ≤ c && c ≤ last) != negated

/-- What can be left of a text when a run has been taken from its front, longest first. -/
def rests : List Char → List (List Char)
  | [] => [[]]
  | c :: rest => (c :: rest) :: rests rest

/-- What can be left behind a token, given what can be left before it, longest first. -/
def Token.behind (token : Token) (left : List (List Char)) : List (List Char) :=
  match token with
  | run => (left.head?.map rests).getD []
  | token => left.filterMap fun
    | c :: rest => if token.admits c then some rest else none
    | [] => none

/-- Whether the tokens match the whole of `text`. -/
def matchesText (tokens : List Token) (text : List Char) : Bool :=
  (tokens.foldl (fun left token => token.behind left) [text]).contains []

/-- How segments are written, and which texts they match. -/
structure Dialect where
  Body : Type
  parse : List Char → Option Body
  matchesText : Body → List Char → Bool

/-- Segments with stars, question marks and brackets. -/
def shell : Dialect := ⟨List Token, parse, matchesText⟩

end Glob

structure GlobSegment (dialect : Glob.Dialect := Glob.shell) where
  body : dialect.Body
  /-- It matches directories only, otherwise files only. -/
  directory : Bool

namespace GlobSegment

variable {dialect : Glob.Dialect}

/-- Without the slash at the end, if there is one. -/
def bare (name : String) : List Char :=
  if TreePath.isDir name then name.toList.dropLast else name.toList

/-- The segment written as `text`; an error names the whole `pattern`. -/
def parse (pattern text : String) : Except Error (GlobSegment dialect) :=
  if bare text = [] then .error (.invalidPattern pattern "empty path segment")
  else
    match dialect.parse (bare text) with
    | some body => .ok { body, directory := TreePath.isDir text }
    | none => .error (.invalidPattern pattern "invalid glob syntax")

/-- Whether the name of a directory entry matches. Names of directories end in a slash. -/
def matchesName (segment : GlobSegment dialect) (name : String) : Bool :=
  TreePath.isDir name == segment.directory && dialect.matchesText segment.body (bare name)

end GlobSegment

/-- A glob over absolute paths. It is cut into segments like a path, and each segment is matched
with the name at the same depth: `/a/*/*.tsv` matches files two directories deep. A segment that
ends in a slash matches directories only, any other files only. -/
structure PathGlob (dialect : Glob.Dialect := Glob.shell) where
  text : String
  segments : List (GlobSegment dialect)

namespace PathGlob

variable {dialect : Glob.Dialect}

def parse (text : String) : Except Error (PathGlob dialect) :=
  if text.toList.head? = some '/' then do
    let segments ← (TreePath.segments text).mapM (GlobSegment.parse text)
    pure { text, segments }
  else .error (.invalidPattern text "glob must be an absolute path")

/-- The number of segments. Only paths of the same depth match. -/
def depth (glob : PathGlob dialect) : Nat := glob.segments.length

/-- Whether an entry at the given depth matches the segment there. -/
def matchesAt (glob : PathGlob dialect) (depth : Nat) (name : String) : Bool :=
  (glob.segments[depth]?).any (·.matchesName name)

end PathGlob
end BackupAtlas
