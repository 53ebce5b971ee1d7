import BackupAtlas.Error
import BackupAtlas.Varint

namespace BackupAtlas

/-- A place in a payload that is read from front to back: what is left to read, out of `size` bytes.
Every read is checked against the bytes that are left, and an error says which kind of payload was
being read and where. -/
structure Cursor where
  rest : Bytes
  size : Nat
  context : String
  deriving DecidableEq, Repr

/-- A read moves the cursor, also when it fails after taking some bytes. -/
abbrev Read (α : Type) := EStateM Error Cursor α

namespace Cursor

/-- At the front of `bytes`, a payload of the kind `context`. -/
def start (bytes : Bytes) (context : String) : Cursor := ⟨bytes, bytes.length, context⟩

def position (c : Cursor) : Nat := c.size - c.rest.length

def isEmpty (c : Cursor) : Bool := c.rest.isEmpty

def fail {α : Type} (details : String) : Read α := fun c => .error (.corrupt c.context details) c

/-- Reads a number of at most 64 bits. The cursor does not move when that fails. -/
def varint : Read Nat := fun c =>
  match Varint.decode c.rest with
  | .ok (n, rest) => .ok n { c with rest }
  | .error .truncated => fail s!"truncated varint at offset {c.position}" c
  | .error .overflow => fail s!"varint overflow at offset {c.position}" c

/-- Reads a number that must fit in 32 bits, as the ids of users and groups do. -/
def word : Read Nat := do
  let n ← varint
  if n < UInt32.size then pure n else fail s!"value {n} does not fit in 32 bits"

/-- Reads a length or a count. None can exceed the size of the whole payload. -/
def length : Read Nat := do
  let n ← varint
  let c ← get
  if c.size < n then fail s!"length {n} exceeds buffer of {c.size} bytes" else pure n

def byte : Read UInt8 := fun c =>
  match c.rest with
  | b :: rest => .ok b { c with rest }
  | [] => fail s!"truncated byte at offset {c.position}" c

def take (n : Nat) : Read Bytes := fun c =>
  if c.rest.length < n then
    fail s!"{n} bytes requested at offset {c.position}, buffer ends at {c.size}" c
  else .ok (c.rest.take n) { c with rest := c.rest.drop n }

end Cursor

/-- What `read` returns at the front of `bytes`; bytes after it are ignored. -/
def Read.run {α : Type} (read : Read α) (bytes : Bytes) (context : String) : Except Error α :=
  match read (Cursor.start bytes context) with
  | .ok a _ => .ok a
  | .error e _ => .error e

end BackupAtlas
