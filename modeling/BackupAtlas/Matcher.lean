import Std.Data.HashMap
import Std.Data.HashSet
import BackupAtlas.Error

namespace BackupAtlas

/-- What a pattern is made of: literal characters, and stars that stand for any run of characters,
slashes and the empty run included. -/
inductive Symbol where
  | literal (c : Char)
  | star
  deriving DecidableEq, Repr

instance : Hashable Symbol where
  hash
    | .literal c => mixHash 0 (hash c.val)
    | .star => 1

namespace Symbol

def ofChar (c : Char) : Symbol := if c = '*' then star else literal c

/-- Literals by character, then the star. -/
def before : Symbol → Symbol → Bool
  | literal a, literal b => a < b
  | literal _, star => true
  | star, _ => false

end Symbol

/-- The edges that leave a place in the tree of patterns, in the order of their symbols. Each
leads to a place with the value of the pattern that ends there, if one does, and further
edges. -/
inductive Edges (α : Type) where
  | none
  | edge (symbol : Symbol) (value : Option α) (below : Edges α) (others : Edges α)
  deriving DecidableEq, Repr

structure Place (α : Type) where
  value : Option α
  edges : Edges α
  deriving DecidableEq, Repr

namespace Edges

variable {α : Type}

/-- The place for a single pattern. -/
def single : List Symbol → α → Place α
  | [], value => ⟨some value, none⟩
  | symbol :: rest, value =>
    let place := single rest value
    ⟨.none, edge symbol place.value place.edges none⟩

/-- Adds a pattern that starts with `symbol`. There is no result if it is there already. -/
def insert (symbol : Symbol) (pattern : List Symbol) (value : α) : Edges α → Option (Edges α)
  | none =>
    let place := single pattern value
    some (edge symbol place.value place.edges none)
  | edge head headValue below others =>
    if symbol = head then
      match pattern with
      | [] => if headValue.isSome then .none else some (edge head (some value) below others)
      | next :: rest => (insert next rest value below).map (edge head headValue · others)
    else if symbol.before head then
      let place := single pattern value
      some (edge symbol place.value place.edges (edge head headValue below others))
    else (insert symbol pattern value others).map (edge head headValue below ·)

/-- What can be left of a path when a star has taken a run from its front, longest first. -/
def rests : List Char → List (List Char)
  | [] => [[]]
  | c :: rest => (c :: rest) :: rests rest

mutual

/-- Follows the literal edge for the first character of the path. -/
def searchLiteral : Edges α → List Char → Option α
  | none, _ => .none
  | edge _ _ _ _, [] => .none
  | edge symbol value below others, c :: rest =>
    if symbol = .literal c then
      (searchLiteral below rest).or ((if rest = [] then value else .none).or
        (searchStar below rest))
    else searchLiteral others (c :: rest)

/-- Follows the star and lets it take ever longer runs from the front of the path. -/
def searchStar : Edges α → List Char → Option α
  | none, _ => .none
  | edge symbol value below others, path =>
    if symbol = .star then
      (rests path).findSome? fun rest =>
        (searchLiteral below rest).or ((if rest = [] then value else .none).or
          (searchStar below rest))
    else searchStar others path

end

end Edges

namespace Place

variable {α : Type}

def empty : Place α := ⟨none, .none⟩

/-- Adds a pattern, unless it is there already. -/
def insert (place : Place α) : List Symbol → α → Option (Place α)
  | [], value => if place.value.isSome then none else some { place with value := some value }
  | symbol :: rest, value =>
    (place.edges.insert symbol rest value).map fun edges => { place with edges }

/-- The value of the pattern that decides for `path` among those below this place. -/
def search (place : Place α) (path : List Char) : Option α :=
  (place.edges.searchLiteral path).or ((if path = [] then place.value else none).or
    (place.edges.searchStar path))

end Place

/-- The symbols that lead from the top of the tree to a place, the last one first. -/
abbrev Address := List Symbol

/-- What a search has found not to match. -/
structure Failures where
  /-- Places from which a rest of the path of that length does not match. -/
  dead : Std.HashSet (Address × Nat) := {}
  /-- For a place behind a star, a length that all rests from there which match exceed. -/
  spent : Std.HashMap Address Nat := {}

namespace Edges

variable {α : Type}

/-- Runs `search` unless it is known to fail, and remembers when it does. -/
def remembering (address : Address) (size : Nat) (search : StateM Failures (Option α)) :
    StateM Failures (Option α) := do
  if (← get).dead.contains (address, size) then return .none
  let found ← search
  if found.isNone then
    modify fun failures => { failures with dead := failures.dead.insert (address, size) }
  return found

/-- Tries the rests of a path from the longest down to those of length `least`. -/
def firstRest (attempt : List Char → StateM Failures (Option α)) (least : Nat) :
    List Char → StateM Failures (Option α)
  | [] => if least = 0 then attempt [] else pure .none
  | c :: rest => do
    if rest.length + 1 < least then return .none
    match ← attempt (c :: rest) with
    | some value => return some value
    | .none => firstRest attempt least rest

/-- Tries the rests of `path` behind a star, without those known to fail. -/
def scanning (address : Address) (path : List Char)
    (attempt : List Char → StateM Failures (Option α)) : StateM Failures (Option α) := do
  let least := ((← get).spent.get? address).getD 0
  let found ← firstRest attempt least path
  if found.isNone then
    modify fun failures =>
      let floor := max ((failures.spent.get? address).getD 0) (path.length + 1)
      { failures with spent := failures.spent.insert address floor }
  return found

mutual

/-- Follows the literal edge for the first character of the path, remembering failures. -/
def findLiteral (address : Address) : Edges α → List Char → StateM Failures (Option α)
  | none, _ => pure .none
  | edge _ _ _ _, [] => pure .none
  | edge symbol value below others, c :: rest =>
    if symbol = .literal c then
      remembering (symbol :: address) rest.length do
        match ← findLiteral (symbol :: address) below rest with
        | some value => return some value
        | .none =>
          if rest = [] ∧ value.isSome then return value
          findStar (symbol :: address) below rest
    else findLiteral address others (c :: rest)

/-- Follows the star, remembering failures. -/
def findStar (address : Address) : Edges α → List Char → StateM Failures (Option α)
  | none, _ => pure .none
  | edge symbol value below others, path =>
    if symbol = .star then
      scanning (symbol :: address) path fun rest =>
        remembering (symbol :: address) rest.length do
          match ← findLiteral (symbol :: address) below rest with
          | some value => return some value
          | .none =>
            if rest = [] ∧ value.isSome then return value
            findStar (symbol :: address) below rest
    else findStar address others path

end

end Edges

/-- Many patterns at once, with a value for each. Of the patterns that match a whole path the one
with the longest literal start decides. They are kept as a tree, so common starts are stored once.
`Place.search` is the search itself; `Matcher.lookup` runs it with a memory of what has failed
before, which bounds the work by the number of places in the tree times the length of the path. -/
structure Matcher (α : Type) where
  top : Place α := .empty
  size : Nat := 0
  deriving DecidableEq, Repr

namespace Matcher

variable {α : Type}

def insert (matcher : Matcher α) (pattern : List Char) (value : α) : Except Error (Matcher α) :=
  match matcher.top.insert (pattern.map Symbol.ofChar) value with
  | some top => .ok { top, size := matcher.size + 1 }
  | none => .error (.patternConflict (String.ofList pattern))

/-- The matcher for the given patterns, among which none may occur twice. -/
def compile (patterns : List (List Char × α)) : Except Error (Matcher α) :=
  patterns.foldlM (fun matcher (pattern, value) => matcher.insert pattern value) {}

/-- The value of the pattern that decides for the whole of `path`. -/
def lookup (matcher : Matcher α) (path : List Char) : Option α :=
  let search : StateM Failures (Option α) := do
    match ← matcher.top.edges.findLiteral [] path with
    | some value => return some value
    | none =>
      if path = [] ∧ matcher.top.value.isSome then return matcher.top.value
      matcher.top.edges.findStar [] path
  (search.run {}).1

end Matcher
end BackupAtlas
