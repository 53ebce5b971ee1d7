namespace BackupAtlas

/-- Numbered rows in ascending order. A table remembers the greatest number it ever held. -/
structure Table (α : Type) where
  rows : List (Int × α) := []
  /-- The greatest number of a row so far, or zero. -/
  last : Int := 0
  deriving DecidableEq, Repr

namespace Table

variable {α : Type}

def values (table : Table α) : List α := table.rows.map (·.2)

def get? (table : Table α) (id : Int) : Option α := table.rows.lookup id

def contains (table : Table α) (id : Int) : Bool := (table.get? id).isSome

def next (table : Table α) : Int := table.last + 1

/-- Puts a row in its place, instead of one with the same number. -/
def insertRow (id : Int) (row : α) : List (Int × α) → List (Int × α)
  | [] => [(id, row)]
  | (first, a) :: rest =>
    if id < first then (id, row) :: (first, a) :: rest
    else if id = first then (id, row) :: rest
    else (first, a) :: insertRow id row rest

def put (table : Table α) (id : Int) (row : α) : Table α :=
  { rows := insertRow id row table.rows, last := max table.last id }

def erase (table : Table α) (id : Int) : Table α :=
  { table with rows := table.rows.filter fun (number, _) => number ≠ id }

/-- Takes away all rows that `p` does not hold of. -/
def filter (p : α → Bool) (table : Table α) : Table α :=
  { table with rows := table.rows.filter fun (_, row) => p row }

/-- Uses up a number without a row. -/
def skip (table : Table α) : Table α := { table with last := table.next }

end Table
end BackupAtlas
