namespace BackupAtlas

/-- Siblings in ascending order, each with a label and what is below it. -/
inductive Forest (α : Type) where
  | nil
  | cons (name : String) (label : α) (below : Forest α) (rest : Forest α)
  deriving DecidableEq, Repr

namespace Forest

variable {α : Type}

instance : Inhabited (Forest α) := ⟨nil⟩

/-- The label of a sibling, and what is below it. -/
def find? (name : String) : Forest α → Option (α × Forest α)
  | nil => none
  | cons key label below rest => if name = key then some (label, below) else find? name rest

/-- Changes the sibling called `name`, which is made with the label `blank` if it is missing. -/
def alter (blank : α) (name : String) (change : α × Forest α → α × Forest α) :
    Forest α → Forest α
  | nil =>
    let (label, below) := change (blank, nil)
    cons name label below nil
  | cons key label below rest =>
    if name < key then
      let (fresh, inside) := change (blank, nil)
      cons name fresh inside (cons key label below rest)
    else if name = key then
      let (label, below) := change (label, below)
      cons name label below rest
    else cons key label below (alter blank name change rest)

/-- Whether some label, at any depth, has the property. -/
def any (holds : α → Bool) : Forest α → Bool
  | nil => false
  | cons _ label below rest => holds label || any holds below || any holds rest

def names : Forest α → List String
  | nil => []
  | cons name _ _ rest => name :: names rest

end Forest

/-- A tree of directories, from the topmost on. -/
structure DirTree (α : Type) where
  label : α
  below : Forest α := .nil
  deriving DecidableEq, Repr

namespace DirTree

variable {α : Type}

/-- Changes the labels along the path of the given segments, the topmost included. What is
missing is made with the label `blank` gives for the one above it; `last` tells whether the path
ends at the label. -/
def along (blank : α → α) (change : (last : Bool) → α → α) : List String → DirTree α → DirTree α
  | [], tree => { tree with label := change true tree.label }
  | name :: path, tree =>
    { label := change false tree.label
      below := tree.below.alter (blank tree.label) name fun (label, below) =>
        let inner := along blank change path { label, below }
        (inner.label, inner.below) }

end DirTree
end BackupAtlas
