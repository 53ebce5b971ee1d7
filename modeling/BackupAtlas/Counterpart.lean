import BackupAtlas.Payload
import BackupAtlas.StoredTree

namespace BackupAtlas

/-- The part of a tagged tree that stands for a directory of the snapshot. -/
inductive Counterpart where
  /-- The directory has a node of its own. -/
  | node (node : Node)
  /-- It lies at or below a directory whose files all belong to one rule. -/
  | uniform (rule : Nat)
  /-- The tagged tree knows nothing of it. -/
  | absent
  deriving DecidableEq, Repr

namespace Counterpart

def ofNode (found : Node) : Except Error Counterpart := do
  match ← TaggedDir.decodeUniform? (← found.data) with
  | some rule => pure (uniform rule)
  | none => pure (node found)

def ofNode? : Option Node → Except Error Counterpart
  | none => .ok absent
  | some found => ofNode found

/-- The counterpart of a subdirectory, by name. -/
def child (name : String) : Counterpart → Except Error Counterpart
  | node found => do ofNode? (← found.child? name)
  | uniform rule => .ok (uniform rule)
  | absent => .ok absent

end Counterpart
end BackupAtlas
