namespace BackupAtlas

/-- A scan takes characters from the front of what is left of a text, or fails as a whole. -/
abbrev Scan := StateT (List Char) Option

namespace Scan

def fail {α : Type} : Scan α := fun _ => none

def ensure (holds : Bool) : Scan Unit := if holds then pure () else fail

def peek : Scan (Option Char) := do return (← get).head?

def next : Scan Char := fun
  | c :: rest => some (c, rest)
  | [] => none

/-- Takes `text` from the front, if it stands there. -/
def accept (text : String) : Scan Bool := do
  let rest ← get
  if text.toList.isPrefixOf rest then
    set (rest.drop text.toList.length)
    return true
  else return false

/-- Takes `text`, which must stand at the front. -/
def expect (text : String) : Scan Unit := do ensure (← accept text)

/-- Takes characters as long as they have the property. -/
def takeWhile (holds : Char → Bool) : Scan (List Char) := do
  let rest ← get
  set (rest.dropWhile holds)
  return rest.takeWhile holds

def skipWhile (holds : Char → Bool) : Scan Unit := modify (·.dropWhile holds)

def atEnd : Scan Bool := do return (← get).isEmpty

/-- What `scan` makes of a whole text. -/
def all {α : Type} (scan : Scan α) (text : List Char) : Option α :=
  match scan text with
  | some (a, []) => some a
  | _ => none

end Scan

/-- The value of a digit in a base of at most 16. -/
def digitValue? (base : Nat) (c : Char) : Option Nat :=
  let value :=
    if '0' ≤ c ∧ c ≤ '9' then some (c.toNat - '0'.toNat)
    else if 'a' ≤ c ∧ c ≤ 'f' then some (c.toNat - 'a'.toNat + 10)
    else if 'A' ≤ c ∧ c ≤ 'F' then some (c.toNat - 'A'.toNat + 10)
    else none
  value.filter (· < base)

/-- The number with these digits, the highest first; there must be at least one. -/
def ofDigits? (base : Nat) (digits : List Char) : Option Nat :=
  if digits = [] then none
  else digits.foldlM (fun n c => (digitValue? base c).map (base * n + ·)) 0

end BackupAtlas
