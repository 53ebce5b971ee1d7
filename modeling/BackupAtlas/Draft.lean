import BackupAtlas.StoredTree

namespace BackupAtlas

/-- A node that is finished but for its parent. -/
structure Piece where
  name : String
  block : Block
  deriving DecidableEq, Repr

namespace Piece

/-- Puts a named value before the first one whose name is not smaller. -/
def insert {α : Type} (name : String) (value : α) : List (String × α) → List (String × α)
  | [] => [(name, value)]
  | (key, other) :: rest =>
    if key < name then (key, other) :: insert name value rest
    else (name, value) :: (key, other) :: rest

/-- In ascending order of the names; values under the same name keep their order. -/
def sort {α : Type} (entries : List (String × α)) : List (String × α) :=
  entries.foldr (fun (name, value) sorted => insert name value sorted) []

/-- Where the records of the pieces start when their blocks follow each other from `offset`. -/
def starts (offset : Nat) : List Piece → List (String × Nat)
  | [] => []
  | piece :: rest =>
    (piece.name, offset + piece.block.start) :: starts (offset + piece.block.bytes.length) rest

end Piece

/-- The block of a node with the given payload and children. -/
def Block.ofNode (data : Bytes) (children : List Piece) : Block :=
  let below := children.flatMap (·.block.bytes)
  let entries := Piece.sort (Piece.starts 0 children)
  let record :=
    Varint.encode below.length ++ Varint.encode data.length ++ data ++
      Varint.encode entries.length ++
      entries.flatMap fun (name, start) =>
        let name := Utf8.encode name
        Varint.encode name.length ++ name ++ Varint.encode (below.length - start)
  ⟨below ++ record, below.length⟩

/-- The bytes of a tree whose topmost node has the given block. -/
def StoredTree.seal (root : Block) : Bytes :=
  magic ++ root.bytes ++ littleEndian 8 (magic.length + root.start)

/-- A tree being written: the pieces of the directories that are open, the innermost first, and
those of the topmost node. A directory is opened before what is below it and closed with its name
and payload after that; nodes of other trees can be grafted with everything below them. -/
structure Draft where
  inner : List (List Piece) := []
  top : List Piece := []
  deriving DecidableEq, Repr

namespace Draft

abbrev Step := EStateM Error Draft Unit

def attach (piece : Piece) (draft : Draft) : Draft :=
  match draft.inner with
  | [] => { draft with top := draft.top ++ [piece] }
  | pieces :: outer => { draft with inner := (pieces ++ [piece]) :: outer }

/-- Starts a directory. What follows is below it. -/
def openDir : Step := modify fun draft => { draft with inner := [] :: draft.inner }

/-- Ends the directory that was opened last. -/
def closeDir (name : String) (data : Bytes) : Step := do
  match (← get).inner with
  | [] =>
    throw (.unwritable "tree writer" s!"close_dir({quoted name}) without matching open_dir")
  | pieces :: outer =>
    modify fun draft =>
      attach { name, block := .ofNode data pieces } { draft with inner := outer }

def leaf (name : String) (data : Bytes) : Step := do
  openDir
  closeDir name data

/-- Copies a node of another tree, with everything below it, under a name of its own. -/
def graft (name : String) (node : Node) : Step := fun draft =>
  match node.block with
  | .error reason => .error reason draft
  | .ok block => .ok () (attach ⟨name, block⟩ draft)

/-- The bytes of the tree, whose topmost node gets the payload `data`. -/
def finish (draft : Draft) (data : Bytes) : Except Error Bytes :=
  match draft.inner with
  | [] => .ok (StoredTree.seal (.ofNode data draft.top))
  | inner => .error (.unwritable "tree writer" s!"{inner.length} directories left open")

end Draft
end BackupAtlas
