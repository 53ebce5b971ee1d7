import BackupAtlas.Cursor
import BackupAtlas.Utf8
import Std.Data.HashMap

namespace BackupAtlas

/-- The block of a node: the bytes of its record and of all records below it. -/
structure Block where
  bytes : Bytes
  /-- Where in the block the record of the node starts. -/
  start : Nat
  deriving DecidableEq, Repr

/-- The children of a node, in the order of the record. -/
inductive Nodes where
  | done
  /-- The entry for a child makes no sense. -/
  | flaw (reason : Error) (rest : Nodes)
  /-- The child has a name, but its record makes no sense. -/
  | torn (name : String) (reason : Error) (rest : Nodes)
  | entry (name : String) (data : Bytes) (block : Block) (below : Nodes) (rest : Nodes)
  deriving DecidableEq, Repr

/-- A node, as far as it can be read. -/
inductive Node where
  | torn (reason : Error)
  | sound (data : Bytes) (block : Block) (below : Nodes)
  deriving DecidableEq, Repr

namespace Nodes

/-- A node with its name before others. -/
def ofNode (name : String) (node : Node) (rest : Nodes) : Nodes :=
  match node with
  | .torn reason => torn name reason rest
  | .sound data block below => entry name data block below rest

def count : Nodes → Nat
  | done => 0
  | flaw _ rest | torn _ _ rest | entry _ _ _ _ rest => rest.count + 1

/-- The search ends at the first name after `name`. -/
def find? (name : String) : Nodes → Except Error (Option Node)
  | done => .ok none
  | flaw reason _ => .error reason
  | torn key reason rest =>
    if key < name then find? name rest
    else if key = name then .ok (some (.torn reason))
    else .ok none
  | entry key data block below rest =>
    if key < name then find? name rest
    else if key = name then .ok (some (.sound data block below))
    else .ok none

/-- Every node with its depth, name and payload, each before those below it. -/
def listing (depth : Nat) : Nodes → Except Error (List (Nat × String × Bytes))
  | done => .ok []
  | flaw reason _ | torn _ reason _ => .error reason
  | entry name data _ below rest => do
    let inner ← listing (depth + 1) below
    let others ← listing depth rest
    pure ((depth, name, data) :: inner ++ others)

def flaw? : Nodes → Option Error
  | done => none
  | flaw reason _ => some reason
  | torn _ _ rest | entry _ _ _ _ rest => rest.flaw?

end Nodes

namespace Node

def data : Node → Except Error Bytes
  | torn reason => .error reason
  | sound data _ _ => .ok data

def children : Node → Except Error Nodes
  | torn reason => .error reason
  | sound _ _ below => .ok below

def child? (node : Node) (name : String) : Except Error (Option Node) := do
  (← node.children).find? name

/-- The node, which has no name here, and every node below it, with depths and payloads. -/
def listing (node : Node) : Except Error (List (Nat × String × Bytes)) := do
  let data ← node.data
  pure ((0, "", data) :: (← (← node.children).listing 1))

/-- Follows names down from a node. -/
def descend? (node : Node) : List String → Except Error (Option Node)
  | [] => .ok (some node)
  | name :: rest => do
    match ← node.child? name with
    | none => pure none
    | some child => descend? child rest

/-- The block of a node whose entries all make sense. -/
def block : Node → Except Error Block
  | torn reason => .error reason
  | sound _ block below =>
    match below.flaw? with
    | some reason => .error reason
    | none => .ok block

end Node

/-- What the record at `start` says of a child. -/
structure RecordEntry (start : Nat) where
  name : String
  /-- Where the record of the child stands. -/
  position : Nat
  position_lt : position < start
  deriving DecidableEq, Repr

/-- A record is stored as

    length of the records below, which end where it starts
    length of the payload, payload
    number of children, and for each: length of the name, name, distance back to its record

The children are in ascending order of their names. As distances are relative, the records of a node
and of all nodes below it form a block that keeps its meaning anywhere. -/
structure Record (start : Nat) where
  data : Bytes
  block : Block
  /-- The children, or why an entry makes no sense. -/
  entries : List (Except Error (RecordEntry start))

namespace StoredTree

def magic : Bytes := [66, 82, 84, 82, 69, 69, 0, 1]

/-- The start of the record at the position `start`: the length of the records below it, its
payload and the number of its children. -/
def readHead (start : Nat) : Read (Nat × Bytes × Nat) := do
  let belowLength ← Cursor.varint
  if start - magic.length < belowLength then
    Cursor.fail s!"bad subtree length at {start}"
  let dataLength ← Cursor.length
  let data ← Cursor.take dataLength
  let count ← Cursor.length
  pure (belowLength, data, count)

theorem before_of_back {start back : Nat} (inside : 0 < back ∧ back + magic.length ≤ start) : start - back < start := by
  omega

/-- The name of a child and where its record stands, which is before that of its parent. -/
def readEntry (start : Nat) : Read (RecordEntry start) := do
  let nameLength ← Cursor.length
  let raw ← Cursor.take nameLength
  match Utf8.decode raw with
  | .error fault => Cursor.fail s!"child name is not UTF-8: {fault.message}"
  | .ok name =>
    let back ← Cursor.varint
    if inside : 0 < back ∧ back + magic.length ≤ start then
      pure { name, position := start - back, position_lt := before_of_back inside }
    else Cursor.fail s!"child {quoted name} offset out of range"

/-- The next `count` entries, each from where the one before it ends or fails, and where the last
of them ends. -/
def readEntries (start : Nat) :
    (count : Nat) → Cursor → List (Except Error (RecordEntry start)) × Cursor
  | 0, cursor => ([], cursor)
  | count + 1, cursor =>
    let (first, cursor) := match readEntry start cursor with
      | .ok entry cursor => (.ok entry, cursor)
      | .error reason cursor => (.error reason, cursor)
    let (others, cursor) := readEntries start count cursor
    (first :: others, cursor)

def readRecord (body : Bytes) (start : Nat) : Except Error (Record start) :=
  match readHead start ⟨body.drop start, body.length, "tree node"⟩ with
  | .error reason _ => .error reason
  | .ok (belowLength, data, count) cursor =>
    let (entries, after) := readEntries start count { cursor with context := "tree children" }
    let first := start - belowLength
    .ok { data, entries, block := ⟨(body.drop first).take (after.position - first), belowLength⟩ }

mutual

def nodeAt (body : Bytes) (start : Nat) : Node :=
  match readRecord body start with
  | .error reason => .torn reason
  | .ok record => .sound record.data record.block (nodesOf body record.entries)
termination_by (start, 1, 0)

/-- The children that the entries of a record stand for. -/
def nodesOf (body : Bytes) {start : Nat} (entries : List (Except Error (RecordEntry start))) :
    Nodes :=
  match entries with
  | [] => .done
  | .error reason :: rest => .flaw reason (nodesOf body rest)
  | .ok entry :: rest => .ofNode entry.name (nodeAt body entry.position) (nodesOf body rest)
termination_by (start, 0, entries.length)
decreasing_by
  all_goals first
    | exact Prod.Lex.left _ _ entry.position_lt
    | exact Prod.Lex.right _ (Prod.Lex.right _ (Nat.lt_succ_self _))

end

/-- Nodes that have been read, by the positions of their records. -/
structure KnownNodes (body : Bytes) where
  nodes : Std.HashMap Nat Node := {}
  eq_nodeAt : ∀ start node, nodes[start]? = some node → node = nodeAt body start := by simp

namespace KnownNodes

def insert {body : Bytes} (known : KnownNodes body) (start : Nat) (node : Node)
    (same : node = nodeAt body start) : KnownNodes body where
  nodes := known.nodes.insert start node
  eq_nodeAt := by
    intro other found atOther
    rw [Std.HashMap.getElem?_insert] at atOther
    split at atOther
    · rename_i equal
      rw [← Option.some.inj atOther, same, eq_of_beq equal]
    · exact known.eq_nodeAt other found atOther

end KnownNodes

/-- What reading `value` gives, and the nodes that are known then. -/
abbrev Reading (body : Bytes) {α : Type} (value : α) :=
  { result : α × KnownNodes body // result.1 = value }

mutual

/-- Reads a node, unless it is known. -/
def readNode (body : Bytes) (start : Nat) (known : KnownNodes body) :
    Reading body (nodeAt body start) :=
  match found : known.nodes[start]? with
  | some node => ⟨(node, known), known.eq_nodeAt start node found⟩
  | none =>
    match read : readRecord body start with
    | .error reason => ⟨(.torn reason, known), by rw [nodeAt, read]⟩
    | .ok record =>
      let ⟨(below, known), same⟩ := readNodes body record.entries known
      let node := Node.sound record.data record.block below
      have equal : node = nodeAt body start := by rw [nodeAt, read]; simp only [node, ← same]
      ⟨(node, known.insert start node equal), equal⟩
termination_by (start, 1, 0)

/-- Reads the children that the entries of a record stand for. -/
def readNodes (body : Bytes) {start : Nat} (entries : List (Except Error (RecordEntry start)))
    (known : KnownNodes body) : Reading body (nodesOf body entries) :=
  match entries with
  | [] => ⟨(.done, known), by rw [nodesOf]⟩
  | .error reason :: rest =>
    let ⟨(others, known), same⟩ := readNodes body rest known
    ⟨(.flaw reason others, known), by rw [nodesOf, ← same]⟩
  | .ok entry :: rest =>
    let ⟨(node, known), first⟩ := readNode body entry.position known
    let ⟨(others, known), same⟩ := readNodes body rest known
    ⟨(.ofNode entry.name node others, known), by rw [nodesOf, ← first, ← same]⟩
termination_by (start, 0, entries.length)
decreasing_by
  all_goals first
    | exact Prod.Lex.left _ _ entry.position_lt
    | exact Prod.Lex.right _ (Prod.Lex.right _ (Nat.lt_succ_self _))

end

/-- What is known makes no difference to what is read. -/
@[simp] theorem val_readNode (body : Bytes) (start : Nat) (known : KnownNodes body) :
    (readNode body start known).val.1 = nodeAt body start := (readNode body start known).property

/-- A number in eight bytes, lowest first. -/
def ofLittleEndian (bytes : Bytes) : Nat := bytes.foldr (fun b n => b.toNat + 256 * n) 0

def littleEndian : (digits : Nat) → Nat → Bytes
  | 0, _ => []
  | digits + 1, n => (n % 256).toUInt8 :: littleEndian digits (n / 256)

end StoredTree

/-- An opened tree of named nodes with payloads. It is stored as

    "BRTREE" 0 1                            eight bytes
    records, each after those of the nodes below it
    position of the topmost record          eight bytes, lowest first

Bytes may come from anywhere. A tree is read as far as it makes sense, and what does not make sense
stays in it as a reason, which is reported when that part of the tree is asked for. Nodes may have
children in common, so every record is read once, however many ways lead to it. -/
structure StoredTree where
  bytes : Bytes
  root : Node
  deriving DecidableEq, Repr

namespace StoredTree

def ofBytes (bytes : Bytes) : Except Error StoredTree :=
  let size := bytes.length
  if size < magic.length + 8 ∨ bytes.take magic.length ≠ magic then
    .error (.corrupt "tree header" "missing segment tree magic")
  else
    let root := ofLittleEndian (bytes.drop (size - 8))
    if magic.length ≤ root ∧ root < size - 8 then
      .ok { bytes, root := (readNode (bytes.take (size - 8)) root {}).val.1 }
    else .error (.corrupt "tree footer" "root offset out of range")

end StoredTree
end BackupAtlas
