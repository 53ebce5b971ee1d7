import BackupAtlas.Error

namespace BackupAtlas.Pattern

/-- Two stars in a row. -/
def hasDoubleStar : List Char → Bool
  | '*' :: '*' :: _ => true
  | _ :: rest => hasDoubleStar rest
  | [] => false

/-- Why a pattern is refused, if it is. -/
def objection? (pattern : String) : Option String :=
  if pattern = "" then some "must not be empty"
  else if '/' ∈ pattern.toList then some "must not contain '/'"
  else if hasDoubleStar pattern.toList then some "must not contain consecutive '*'"
  else none

def validate (pattern : String) : Except Error Unit :=
  match objection? pattern with
  | none => .ok ()
  | some reason => .error (.invalidPattern pattern reason)

/-- What a pattern looks like, by where its first star stands. -/
inductive Shape where
  | star
  | literal
  /-- Text before the first star: `abc*`, `a*c`. -/
  | textFirst
  /-- A star before some text: `*abc`, `*a*`. -/
  | starFirst
  deriving DecidableEq, Repr

def Shape.of : List Char → Shape
  | ['*'] => .star
  | '*' :: _ => .starFirst
  | pattern => if '*' ∈ pattern then .textFirst else .literal

/-- The text before the first star, and what follows that star. -/
def cut? (pattern : List Char) : Option (List Char × List Char) :=
  match pattern.dropWhile (· != '*') with
  | [] => none
  | _ :: rest => some (pattern.takeWhile (· != '*'), rest)

end BackupAtlas.Pattern
