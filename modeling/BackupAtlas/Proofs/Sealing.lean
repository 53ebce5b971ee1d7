import BackupAtlas.Draft
import BackupAtlas.Proofs.DirTrees
import BackupAtlas.Proofs.Payloads

namespace BackupAtlas

namespace Piece

variable {α β : Type}

theorem insert_map (f : α → β) (name : String) (value : α) (entries : List (String × α)) :
    insert name (f value) (entries.map (Prod.map id f)) = (insert name value entries).map (Prod.map id f) := by
  induction entries with
  | nil => rfl
  | cons head rest ih =>
    obtain ⟨key, other⟩ := head
    simp only [insert, List.map_cons, Prod.map_apply, id_eq]
    split
    · rw [ih]
      rfl
    · rfl

/-- Entries are sorted by their names, whatever they stand for. -/
theorem sort_map (f : α → β) (entries : List (String × α)) :
    sort (entries.map (Prod.map id f)) = (sort entries).map (Prod.map id f) := by
  induction entries with
  | nil => rfl
  | cons head rest ih =>
    obtain ⟨name, value⟩ := head
    have step := insert_map f name value (sort rest)
    rw [← ih] at step
    exact step

theorem insert_perm (name : String) (value : α) (entries : List (String × α)) :
    (insert name value entries).Perm ((name, value) :: entries) := by
  induction entries with
  | nil => exact .refl _
  | cons head rest ih =>
    obtain ⟨key, other⟩ := head
    rw [insert]
    split
    · exact (ih.cons _).trans (.swap _ _ _)
    · exact .refl _

theorem sort_perm (entries : List (String × α)) : (sort entries).Perm entries := by
  induction entries with
  | nil => exact .refl _
  | cons head rest ih => exact (insert_perm head.1 head.2 (sort rest)).trans (ih.cons head)

theorem mem_insert {name : String} {value : α} {entries : List (String × α)} {entry : String × α} :
    entry ∈ insert name value entries ↔ entry = (name, value) ∨ entry ∈ entries := by
  rw [(insert_perm name value entries).mem_iff, List.mem_cons]

theorem insert_ascending {name : String} {value : α} {entries : List (String × α)}
    (ascending : entries.Pairwise (·.1 < ·.1)) (fresh : ∀ entry ∈ entries, entry.1 ≠ name) :
    (insert name value entries).Pairwise (·.1 < ·.1) := by
  induction entries with
  | nil => exact List.pairwise_singleton _ _
  | cons head rest ih =>
    obtain ⟨first, tail⟩ := List.pairwise_cons.mp ascending
    have differs := fresh head List.mem_cons_self
    rw [insert]
    split
    · rename_i less
      refine List.pairwise_cons.mpr ⟨?_, ih tail fun entry member => fresh entry (List.mem_cons_of_mem _ member)⟩
      intro entry member
      rcases mem_insert.mp member with rfl | old
      · exact less
      · exact first entry old
    · rename_i notLess
      have above := lt_of_not_lt_of_ne notLess differs
      refine List.pairwise_cons.mpr ⟨?_, ascending⟩
      intro entry member
      rcases List.mem_cons.mp member with rfl | later
      · exact above
      · exact String.lt_trans above (first entry later)

/-- Sorting entries with different names puts them in ascending order. -/
theorem sort_pairwise {entries : List (String × α)} (distinct : (entries.map (·.1)).Nodup) :
    (sort entries).Pairwise (·.1 < ·.1) := by
  induction entries with
  | nil => exact .nil
  | cons head rest ih =>
    obtain ⟨fresh, tail⟩ := List.nodup_cons.mp distinct
    refine insert_ascending (ih tail) fun entry member same => fresh ?_
    change head.1 ∈ _
    rw [← same]
    exact List.mem_map_of_mem ((sort_perm rest).mem_iff.mp member)

end Piece

namespace StoredTree

/-- The bytes of the entry for a child. -/
def encodeEntry (name : String) (back : Nat) : Bytes :=
  Varint.encode (Utf8.encode name).length ++ Utf8.encode name ++ Varint.encode back

/-- The head of a block is read back, whatever follows. -/
theorem takes_readHead {start below count : Nat} {data : Bytes} (inside : below + magic.length ≤ start)
    (few : below < 2 ^ 64) (short : data.length < 2 ^ 64) (countable : count < 2 ^ 64) :
    (readHead start).Takes (Varint.encode below ++ (Varint.encode data.length ++ (data ++ Varint.encode count))) count
      (below, data, count) := by
  have rest : (do
      let dataLength ← Cursor.length
      let data ← Cursor.take dataLength
      let count ← Cursor.length
      pure (below, data, count) : Read (Nat × Bytes × Nat)).Takes
        (Varint.encode data.length ++ (data ++ Varint.encode count)) count (below, data, count) := by
    refine (Cursor.takes_length short).bind ?_ (by rw [List.length_append]; omega)
    refine (Cursor.takes_take data).bind ?_ (Nat.zero_le _)
    exact (Cursor.takes_length countable).map fun count => (below, data, count)
  refine (Cursor.takes_varint few).bind ?_ (Nat.zero_le _)
  have fine : ¬ start - magic.length < below := by omega
  simp only [if_neg fine]
  exact rest

theorem takes_readEntry {start : Nat} (entry : RecordEntry start) (inside : magic.length ≤ entry.position)
    (short : (Utf8.encode entry.name).length < 2 ^ 64) (near : start < 2 ^ 64) :
    (readEntry start).Takes (encodeEntry entry.name (start - entry.position)) 0 entry := by
  obtain ⟨name, position, position_lt⟩ := entry
  rw [encodeEntry, List.append_assoc]
  refine (Cursor.takes_length short).bind ?_ (by rw [List.length_append]; omega)
  refine (Cursor.takes_take (Utf8.encode name)).bind ?_ (Nat.zero_le _)
  simp only [Utf8.decode_encode]
  have place : 0 < start - position ∧ start - position + magic.length ≤ start := by
    simp only at inside
    omega
  have checked : (if inside : 0 < start - position ∧ start - position + magic.length ≤ start then
      pure { name, position := start - (start - position), position_lt := by omega }
    else Cursor.fail s!"child {quoted name} offset out of range" : Read (RecordEntry start)).Takes [] 0
      { name, position, position_lt } := by
    have same : start - (start - position) = position := by omega
    rw [dif_pos place]
    simp only [same]
    exact .pure _
  rw [← List.append_nil (Varint.encode (start - position))]
  exact (Cursor.takes_varint (by omega)).bind checked (Nat.zero_le _)

theorem readEntries_eq {start : Nat} {encode : RecordEntry start → Bytes} {entries : List (RecordEntry start)}
    (each : ∀ entry ∈ entries, (readEntry start).Takes (encode entry) 0 entry) (rest : Bytes) (size : Nat)
    (context : String)
    (within : (entries.flatMap encode).length + rest.length ≤ size) :
    readEntries start entries.length ⟨entries.flatMap encode ++ rest, size, context⟩ =
      (entries.map .ok, ⟨rest, size, context⟩) := by
  induction entries with
  | nil => rfl
  | cons entry entries ih =>
    rw [List.flatMap_cons, List.length_append] at within
    have first := each entry List.mem_cons_self (entries.flatMap encode ++ rest) size context (Nat.zero_le _)
      (by rw [List.length_append]; omega)
    have others := ih (fun next member => each next (List.mem_cons_of_mem _ member)) (by omega)
    rw [List.length_cons, readEntries, List.flatMap_cons, List.append_assoc, first]
    simp only [others, List.map_cons]

theorem length_le_flatMap_of_mem {α : Type} (encode : α → Bytes) {values : List α} {value : α}
    (member : value ∈ values) :
    (encode value).length ≤ (values.flatMap encode).length := by
  rw [List.flatMap_def]
  exact (List.sublist_flatten_of_mem (List.mem_map_of_mem member)).length_le

def encodeEntries {start : Nat} (entries : List (RecordEntry start)) : Bytes :=
  entries.flatMap fun entry => encodeEntry entry.name (start - entry.position)

/-- The bytes of a record behind the records `below`. -/
def encodeRecord {start : Nat} (below data : Bytes) (entries : List (RecordEntry start)) : Bytes :=
  Varint.encode below.length ++ Varint.encode data.length ++ data ++ Varint.encode entries.length ++
    encodeEntries entries

theorem length_encodeEntry (name : String) (back : Nat) :
    (Utf8.encode name).length < (encodeEntry name back).length := by
  have some := Varint.length_encode_pos back
  simp only [encodeEntry, List.length_append]
  omega

theorem length_le_encodeEntries {start : Nat} (entries : List (RecordEntry start)) :
    entries.length ≤ (encodeEntries entries).length :=
  Read.Takes.length_le_flatMap _ fun _ _ => Nat.lt_of_le_of_lt (Nat.zero_le _) (length_encodeEntry _ _)

theorem length_name_le {start : Nat} {entries : List (RecordEntry start)} {entry : RecordEntry start}
    (member : entry ∈ entries) : (Utf8.encode entry.name).length ≤ (encodeEntries entries).length :=
  Nat.le_trans (Nat.le_of_lt (length_encodeEntry entry.name (start - entry.position)))
    (length_le_flatMap_of_mem (fun other : RecordEntry start => encodeEntry other.name (start - other.position)) member)

/-- A record is read where it stands. -/
theorem readRecord_eq {start : Nat} {before below data after : Bytes} {entries : List (RecordEntry start)}
    (place : start = before.length + below.length) (behind : magic.length ≤ before.length)
    (inside : ∀ entry ∈ entries, magic.length ≤ entry.position)
    (fits : (before ++ (below ++ encodeRecord below data entries) ++ after).length < 2 ^ 64) :
    readRecord (before ++ (below ++ encodeRecord below data entries) ++ after) start =
      .ok { data, block := ⟨below ++ encodeRecord below data entries, below.length⟩, entries := entries.map .ok } := by
  have sizes := fits
  have countable := length_le_encodeEntries entries
  simp only [encodeRecord, List.length_append] at sizes
  have head : (readHead start).Takes (Varint.encode below.length ++ (Varint.encode data.length ++ (data ++
      Varint.encode entries.length))) entries.length (below.length, data, entries.length) :=
    takes_readHead (by omega) (by omega) (by omega) (by omega)
  have each : ∀ entry ∈ entries, (readEntry start).Takes (encodeEntry entry.name (start - entry.position)) 0 entry := by
    intro entry member
    have short := length_name_le member
    exact takes_readEntry entry (inside entry member) (by omega) (by omega)
  have split : before ++ (below ++ encodeRecord below data entries) ++ after =
      (before ++ below) ++ (Varint.encode below.length ++ (Varint.encode data.length ++ (data ++
        Varint.encode entries.length)) ++ (encodeEntries entries ++ after)) := by
    simp only [encodeRecord, List.append_assoc]
  have whole : (before ++ (below ++ encodeRecord below data entries) ++ after).length =
      before.length + (below ++ encodeRecord below data entries).length + after.length := by
    simp only [List.length_append]
  have front : before ++ (below ++ encodeRecord below data entries) ++ after =
      before ++ ((below ++ encodeRecord below data entries) ++ after) := List.append_assoc _ _ _
  generalize before ++ (below ++ encodeRecord below data entries) ++ after = body at fits split whole front
  have dropped : body.drop start = Varint.encode below.length ++ (Varint.encode data.length ++ (data ++
      Varint.encode entries.length)) ++ (encodeEntries entries ++ after) := by
    rw [split]
    exact List.drop_left' (by rw [List.length_append, place])
  have block : (body.drop (start - below.length)).take (body.length - after.length - (start - below.length)) =
      below ++ encodeRecord below data entries := by
    have origin : start - below.length = before.length := by omega
    rw [origin, front, List.drop_left]
    exact List.take_left' (by rw [← front]; omega)
  have lengths := congrArg List.length split
  simp only [List.length_append] at lengths
  have room : (encodeEntries entries).length + after.length ≤ body.length := by omega
  rw [readRecord, dropped, head (encodeEntries entries ++ after) _ _ (by rw [List.length_append]; omega)
    (by simp only [List.length_append]; omega)]
  have read := readEntries_eq each after body.length "tree children" room
  rw [← encodeEntries] at read
  simp only [read, Cursor.position, block]

end StoredTree

namespace Nodes

def ofList (children : List (String × Node)) : Nodes :=
  children.foldr (fun (name, node) rest => ofNode name node rest) done

theorem nodesOf_map {body : Bytes} {start : Nat} (entries : List (RecordEntry start)) :
    StoredTree.nodesOf body (entries.map .ok) =
      ofList (entries.map fun entry => (entry.name, StoredTree.nodeAt body entry.position)) := by
  induction entries with
  | nil => rw [List.map_nil, StoredTree.nodesOf]; rfl
  | cons entry entries ih =>
    rw [List.map_cons, StoredTree.nodesOf, ih]
    rfl

end Nodes

namespace Block

open StoredTree

/-- Where the block stands in a body that is not too long, the node is read from it. -/
def Reads (block : Block) (node : Node) : Prop :=
  block.start < block.bytes.length ∧ ∀ before after, magic.length ≤ before.length →
    (before ++ block.bytes ++ after).length < 2 ^ 64 →
      nodeAt (before ++ block.bytes ++ after) (before.length + block.start) = node

/-- Pieces with the nodes that they stand for, and where their records start. -/
def placed (offset : Nat) : List (Piece × Node) → List (String × Nat × Node)
  | [] => []
  | (piece, node) :: rest =>
    (piece.name, offset + piece.block.start, node) :: placed (offset + piece.block.bytes.length) rest

theorem placed_starts (offset : Nat) (children : List (Piece × Node)) :
    (placed offset children).map (Prod.map id Prod.fst) = Piece.starts offset (children.map (·.1)) := by
  induction children generalizing offset with
  | nil => rfl
  | cons child children ih =>
    rw [placed, List.map_cons, List.map_cons, Piece.starts, ih]
    rfl

theorem placed_nodes (offset : Nat) (children : List (Piece × Node)) :
    (placed offset children).map (Prod.map id Prod.snd) = children.map fun child => (child.1.name, child.2) := by
  induction children generalizing offset with
  | nil => rfl
  | cons child children ih =>
    rw [placed, List.map_cons, List.map_cons, ih]
    rfl

/-- Children that stand one after the other are each read back where they stand. -/
theorem placed_reads {children : List (Piece × Node)} (each : ∀ child ∈ children, child.1.block.Reads child.2)
    {origin offset : Nat} {before after : Bytes} (start : origin + offset = before.length)
    (behind : magic.length ≤ before.length)
    (fits : (before ++ (children.map (·.1)).flatMap (·.block.bytes) ++ after).length < 2 ^ 64) :
    ∀ entry ∈ placed offset children, entry.2.1 < offset + ((children.map (·.1)).flatMap (·.block.bytes)).length ∧
      nodeAt (before ++ (children.map (·.1)).flatMap (·.block.bytes) ++ after) (origin + entry.2.1) = entry.2.2 := by
  induction children generalizing offset before with
  | nil => intro entry member; exact absurd member List.not_mem_nil
  | cons child children ih =>
    obtain ⟨short, read⟩ := each child List.mem_cons_self
    have whole : before ++ ((child :: children).map (·.1)).flatMap (·.block.bytes) ++ after =
        before ++ child.1.block.bytes ++ ((children.map (·.1)).flatMap (·.block.bytes) ++ after) := by
      simp only [List.map_cons, List.flatMap_cons, List.append_assoc]
    have size : (((child :: children).map (·.1)).flatMap (·.block.bytes)).length =
        child.1.block.bytes.length + ((children.map (·.1)).flatMap (·.block.bytes)).length := by
      rw [List.map_cons, List.flatMap_cons, List.length_append]
    rw [whole] at fits ⊢
    rw [size]
    intro entry member
    rcases List.mem_cons.mp member with rfl | later
    · refine ⟨by simp only; omega, ?_⟩
      have here := read before _ behind fits
      rwa [← start, Nat.add_assoc] at here
    · rw [← List.append_assoc] at fits ⊢
      have others := ih (fun next listed => each next (List.mem_cons_of_mem _ listed))
        (by rw [List.length_append]; omega) (by rw [List.length_append]; omega) fits entry later
      exact ⟨by omega, others.2⟩

theorem exists_entries {start : Nat} {places : List (String × Nat)} (inside : ∀ place ∈ places, place.2 < start) :
    ∃ entries : List (RecordEntry start), entries.map (fun entry => (entry.name, entry.position)) = places := by
  induction places with
  | nil => exact ⟨[], rfl⟩
  | cons place places ih =>
    obtain ⟨entries, same⟩ := ih fun next member => inside next (List.mem_cons_of_mem _ member)
    exact ⟨⟨place.1, place.2, inside place List.mem_cons_self⟩ :: entries, by rw [List.map_cons, same]⟩

def bytesBelow (children : List (Piece × Node)) : Bytes := (children.map (·.1)).flatMap (·.block.bytes)

theorem ofNode_eq (data : Bytes)
    (children : List (Piece × Node)) {start origin : Nat} {entries : List (RecordEntry start)}
    (place : start = origin + (bytesBelow children).length)
    (same : entries.map (fun entry => (entry.name, entry.position)) =
      (Piece.sort (placed 0 children)).map (fun entry => (entry.1, origin + entry.2.1))) :
    ofNode data (children.map (·.1)) =
      ⟨bytesBelow children ++ encodeRecord (bytesBelow children) data entries, (bytesBelow children).length⟩ := by
  have sorted : Piece.sort (Piece.starts 0 (children.map (·.1))) =
      (Piece.sort (placed 0 children)).map (Prod.map id Prod.fst) := by rw [← placed_starts, Piece.sort_map]
  have count := congrArg List.length same
  rw [List.length_map, List.length_map] at count
  have listed : encodeEntries entries = ((Piece.sort (placed 0 children)).map (Prod.map id Prod.fst)).flatMap
      fun entry => encodeEntry entry.1 ((bytesBelow children).length - entry.2) := by
    have spread := congrArg (List.flatMap fun place : String × Nat => encodeEntry place.1 (start - place.2)) same
    have back : ∀ s, start - (origin + s) = (bytesBelow children).length - s := fun s => by omega
    rw [List.flatMap_map, List.flatMap_map] at spread
    rw [List.flatMap_map]
    simp only [back] at spread
    exact spread
  rw [encodeRecord, listed, count, ofNode, sorted, List.length_map]
  rfl

theorem start_lt_ofNode (data : Bytes) (pieces : List Piece) :
    (ofNode data pieces).start < (ofNode data pieces).bytes.length := by
  have some := Varint.length_encode_pos (pieces.flatMap (·.block.bytes)).length
  simp only [ofNode, List.length_append]
  omega

/-- A block is read back as what it was made from, with its children in the order of their names. -/
theorem ofNode_reads (data : Bytes)
    {children : List (Piece × Node)} (each : ∀ child ∈ children, child.1.block.Reads child.2) :
    (ofNode data (children.map (·.1))).Reads (.sound data (ofNode data (children.map (·.1)))
      (.ofList (Piece.sort (children.map fun child => (child.1.name, child.2))))) := by
  refine ⟨start_lt_ofNode data _, fun before after behind fits => ?_⟩
  have members : ∀ entry ∈ Piece.sort (placed 0 children), entry ∈ placed 0 children :=
    fun entry member => (Piece.sort_perm _).mem_iff.mp member
  have short : (before ++ bytesBelow children).length < 2 ^ 64 := by
    simp only [ofNode, List.length_append, bytesBelow] at fits ⊢
    omega
  have inside : ∀ place ∈ (Piece.sort (placed 0 children)).map (fun entry => (entry.1, before.length + entry.2.1)),
      place.2 < before.length + (bytesBelow children).length := by
    intro place member
    obtain ⟨entry, listed, rfl⟩ := List.mem_map.mp member
    have placed := (placed_reads each (Nat.add_zero _) behind (by rwa [List.append_nil]) entry (members entry listed)).1
    simp only [bytesBelow] at placed ⊢
    omega
  obtain ⟨entries, same⟩ := exists_entries inside
  have block := ofNode_eq data children rfl same
  rw [block] at fits ⊢
  have behindAll : ∀ entry ∈ entries, magic.length ≤ entry.position := by
    intro entry member
    have listed := List.mem_map_of_mem (f := fun entry : RecordEntry _ => (entry.name, entry.position)) member
    rw [same] at listed
    obtain ⟨found, _, equal⟩ := List.mem_map.mp listed
    have position := congrArg Prod.snd equal
    simp only at position
    omega
  have whole : before ++ (bytesBelow children ++ encodeRecord (bytesBelow children) data entries) ++ after =
      before ++ bytesBelow children ++ (encodeRecord (bytesBelow children) data entries ++ after) := by
    simp only [List.append_assoc]
  rw [nodeAt, readRecord_eq rfl behind behindAll fits]
  simp only [Nodes.nodesOf_map]
  congr 2
  rw [whole] at fits ⊢
  have reads := placed_reads each (Nat.add_zero _) behind fits
  calc entries.map (fun entry => (entry.name, nodeAt _ entry.position))
      = (entries.map fun entry => (entry.name, entry.position)).map fun place => (place.1, nodeAt _ place.2) := by
        rw [List.map_map]
        rfl
    _ = (Piece.sort (placed 0 children)).map (Prod.map id Prod.snd) := by
        rw [same, List.map_map]
        exact List.map_congr_left fun entry member => Prod.ext rfl (reads entry (members entry member)).2
    _ = Piece.sort (children.map fun child => (child.1.name, child.2)) := by rw [← Piece.sort_map, placed_nodes]

end Block

namespace StoredTree

theorem ofLittleEndian_littleEndian (digits : Nat) {n : Nat} (fits : n < 256 ^ digits) :
    ofLittleEndian (littleEndian digits n) = n := by
  induction digits generalizing n with
  | zero =>
    have zero : n = 0 := by simpa using fits
    rw [zero]
    rfl
  | succ digits ih =>
    have high : n / 256 < 256 ^ digits := by
      rw [Nat.div_lt_iff_lt_mul (by decide)]
      exact fits
    rw [littleEndian, ofLittleEndian, List.foldr_cons, ← ofLittleEndian, ih high, toNat_toUInt8 (by omega)]
    omega

theorem length_littleEndian (digits n : Nat) : (littleEndian digits n).length = digits := by
  induction digits generalizing n with
  | zero => rfl
  | succ digits ih => rw [littleEndian, List.length_cons, ih]

/-- A tree that has been sealed can be opened. -/
theorem ofBytes_seal {root : Block} {node : Node} (reads : root.Reads node)
    (fits : (StoredTree.seal root).length < 2 ^ 64) :
    ofBytes (StoredTree.seal root) = .ok { bytes := StoredTree.seal root, root := node } := by
  obtain ⟨short, read⟩ := reads
  have footer := length_littleEndian 8 (magic.length + root.start)
  have size : (StoredTree.seal root).length = magic.length + root.bytes.length + 8 := by
    simp only [StoredTree.seal, List.length_append, footer]
  have value : ofLittleEndian ((StoredTree.seal root).drop ((StoredTree.seal root).length - 8)) =
    magic.length + root.start := by
    rw [StoredTree.seal, List.drop_left' (by simp only [List.length_append, footer]; omega),
      ofLittleEndian_littleEndian]
    have : magic.length = 8 := rfl
    omega
  have body : (StoredTree.seal root).take ((StoredTree.seal root).length - 8) = magic ++ root.bytes := by
    rw [StoredTree.seal, List.take_left' (by simp only [List.length_append, footer]; omega)]
  have header : (StoredTree.seal root).take magic.length = magic := by
    rw [StoredTree.seal, List.append_assoc, List.take_left]
  have here := read magic [] (Nat.le_refl _) (by simp only [List.length_append, List.append_nil]; omega)
  rw [List.append_nil] at here
  have sizes : ¬ ((StoredTree.seal root).length < magic.length + 8 ∨
      (StoredTree.seal root).take magic.length ≠ magic) := by
    rintro (small | other)
    · omega
    · exact other header
  rw [ofBytes]
  simp only [if_neg sizes, value, body, val_readNode, here]
  rw [if_pos (by omega)]

end StoredTree
end BackupAtlas
