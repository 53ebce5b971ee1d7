import BackupAtlas.Draft
import BackupAtlas.Proofs.GuardedReads

namespace BackupAtlas

namespace Nodes

/-- The children that have a name, those without a sensible record among them. -/
def members : Nodes → List (String × Node)
  | done => []
  | flaw _ rest => rest.members
  | torn name reason rest => (name, .torn reason) :: rest.members
  | entry name data block below rest => (name, .sound data block below) :: rest.members

/-- Why entries make no sense. -/
def flaws : Nodes → List Error
  | done => []
  | flaw reason rest => reason :: rest.flaws
  | torn _ _ rest | entry _ _ _ _ rest => rest.flaws

variable {nodes rest : Nodes} {name : String} {node : Node}

@[simp] theorem members_ofNode (name : String) (node : Node) (rest : Nodes) :
    (ofNode name node rest).members = (name, node) :: rest.members := by
  cases node <;> rfl

@[simp] theorem flaws_ofNode (name : String) (node : Node) (rest : Nodes) :
    (ofNode name node rest).flaws = rest.flaws := by
  cases node <;> rfl

/-- What is found under a name is a member of that name. -/
theorem mem_members_of_find? (found : nodes.find? name = .ok (some node)) : (name, node) ∈ nodes.members := by
  induction nodes with
  | done => exact absurd found (by simp [find?])
  | flaw reason rest ih => exact absurd found (by simp [find?])
  | torn key reason rest ih =>
    rw [find?] at found
    split at found
    · exact List.mem_cons_of_mem _ (ih found)
    · split at found
      · rename_i same
        rw [← same, ← Option.some.inj (Except.ok.inj found)]
        exact List.mem_cons_self
      · exact absurd found (by simp)
  | entry key data block below rest _ ih =>
    rw [find?] at found
    split at found
    · exact List.mem_cons_of_mem _ (ih found)
    · split at found
      · rename_i same
        rw [← same, ← Option.some.inj (Except.ok.inj found)]
        exact List.mem_cons_self
      · exact absurd found (by simp)

theorem mem_flaws_of_find? {reason : Error} (failed : nodes.find? name = .error reason) : reason ∈ nodes.flaws := by
  induction nodes with
  | done => exact absurd failed (by simp [find?])
  | flaw other rest ih =>
    rw [find?] at failed
    rw [Except.error.inj failed]
    exact List.mem_cons_self
  | torn key other rest ih =>
    rw [find?] at failed
    split at failed
    · exact ih failed
    · split at failed <;> exact absurd failed (by simp)
  | entry key data block below rest _ ih =>
    rw [find?] at failed
    split at failed
    · exact ih failed
    · split at failed <;> exact absurd failed (by simp)

theorem mem_flaws_of_flaw? {reason : Error} (flawed : nodes.flaw? = some reason) : reason ∈ nodes.flaws := by
  induction nodes with
  | done => exact absurd flawed (by simp [flaw?])
  | flaw other rest ih =>
    rw [← Option.some.inj flawed]
    exact List.mem_cons_self
  | torn key other rest ih => exact ih flawed
  | entry key data block below rest _ ih => exact ih flawed

end Nodes

namespace StoredTree

variable {body : Bytes} {start : Nat}

/-- Members are read from the positions that the entries name. -/
theorem mem_members_nodesOf {entries : List (Except Error (RecordEntry start))} {name : String} {child : Node}
    (member : (name, child) ∈ (nodesOf body entries).members) :
    ∃ entry, .ok entry ∈ entries ∧ child = nodeAt body entry.position := by
  induction entries with
  | nil => exact absurd member (by simp [nodesOf, Nodes.members])
  | cons first rest ih =>
    rw [nodesOf.eq_def] at member
    cases first with
    | error reason =>
      obtain ⟨entry, listed, same⟩ := ih member
      exact ⟨entry, List.mem_cons_of_mem _ listed, same⟩
    | ok entry =>
      simp only [Nodes.members_ofNode] at member
      rcases List.mem_cons.mp member with here | later
      · exact ⟨entry, List.mem_cons_self, (Prod.mk.inj here).2⟩
      · obtain ⟨entry, listed, same⟩ := ih later
        exact ⟨entry, List.mem_cons_of_mem _ listed, same⟩

theorem mem_flaws_nodesOf {entries : List (Except Error (RecordEntry start))} {reason : Error}
    (member : reason ∈ (nodesOf body entries).flaws) : .error reason ∈ entries := by
  induction entries with
  | nil => exact absurd member (by simp [nodesOf, Nodes.flaws])
  | cons first rest ih =>
    rw [nodesOf.eq_def] at member
    cases first with
    | error other =>
      rcases List.mem_cons.mp member with rfl | later
      · exact List.mem_cons_self
      · exact List.mem_cons_of_mem _ (ih later)
    | ok entry =>
      simp only [Nodes.flaws_ofNode] at member
      exact List.mem_cons_of_mem _ (ih member)

/-- A result, or a reason that blames the bytes. -/
def Decodes {α : Type} (result : Except Error α) : Prop := ∀ reason, result = .error reason → Blames reason

theorem Decodes.ok {α : Type} (value : α) : Decodes (.ok value) := fun _ failed => absurd failed (by simp)

/-- Reads that decode can be joined. -/
theorem Decodes.bind {α β : Type} {first : Except Error α} {next : α → Except Error β} (decodes : Decodes first)
    (later : ∀ a, first = .ok a → Decodes (next a)) : Decodes (first >>= next) := by
  cases first with
  | error reason => exact fun other failed => decodes other (by rw [Except.error.inj failed])
  | ok a => exact later a rfl

/-- A node whose children, if there are any to read, stand between the bytes in front and itself. -/
structure Stands (body : Bytes) (start : Nat) (node : Node) : Prop where
  low : magic.length ≤ start
  high : start < body.length
  node_eq : node = nodeAt body start

variable {node : Node}

/-- A node is torn for a reason that blames the bytes, or it is read with sensible entries from its own bytes. -/
theorem Stands.cases (stands : Stands body start node) :
    (∃ reason, Blames reason ∧ node = .torn reason) ∨
      ∃ record : Record start, readRecord body start = .ok record ∧ (∀ entry ∈ record.entries, Sensible entry) ∧
        node = .sound record.data record.block (nodesOf body record.entries) := by
  obtain ⟨low, high, rfl⟩ := stands
  obtain ⟨_, blames, sensible⟩ := record_eq low (Nat.le_of_lt high)
  rw [nodeAt]
  cases read : readRecord body start with
  | error reason => exact Or.inl ⟨reason, blames reason read, rfl⟩
  | ok record => exact Or.inr ⟨record, rfl, (sensible record read).1, rfl⟩

namespace Stands

variable {nodes : Nodes} {name : String} {child : Node} (stands : Stands body start node)

include stands

theorem data : Decodes node.data := by
  rcases stands.cases with ⟨reason, blames, rfl⟩ | ⟨record, _, _, rfl⟩
  · intro other failed
    rw [← Except.error.inj failed]
    exact blames
  · exact .ok _

theorem children : Decodes node.children := by
  rcases stands.cases with ⟨reason, blames, rfl⟩ | ⟨record, _, _, rfl⟩
  · intro other failed
    rw [← Except.error.inj failed]
    exact blames
  · exact .ok _

theorem flaws (known : node.children = .ok nodes) : ∀ reason ∈ nodes.flaws, Blames reason := by
  rcases stands.cases with ⟨reason, _, rfl⟩ | ⟨record, _, sensible, rfl⟩
  · exact absurd known (by simp [Node.children])
  · intro reason member
    rw [← Except.ok.inj known] at member
    exact sensible _ (mem_flaws_nodesOf member)

/-- A child stands in front of the node that leads to it. -/
theorem member (known : node.children = .ok nodes) (member : (name, child) ∈ nodes.members) :
    ∃ position < start, Stands body position child := by
  have high := stands.high
  rcases stands.cases with ⟨reason, _, rfl⟩ | ⟨record, _, sensible, rfl⟩
  · exact absurd known (by simp [Node.children])
  · rw [← Except.ok.inj known] at member
    obtain ⟨entry, listed, same⟩ := mem_members_nodesOf member
    have before := entry.position_lt
    exact ⟨entry.position, before, sensible _ listed, by omega, same⟩

theorem child? (name : String) : Decodes (node.child? name) :=
  stands.children.bind fun _ known reason failed => stands.flaws known reason (Nodes.mem_flaws_of_find? failed)

/-- What is found among the children stands in front of the node. -/
theorem found (found : node.child? name = .ok (some child)) : ∃ position < start, Stands body position child := by
  rw [Node.child?] at found
  cases known : node.children with
  | error reason => exact absurd found (by simp [known, bind, Except.bind])
  | ok nodes =>
    rw [known] at found
    exact stands.member known (Nodes.mem_members_of_find? found)

theorem block : Decodes node.block := by
  rcases stands.cases with ⟨reason, blames, rfl⟩ | ⟨record, _, sensible, rfl⟩
  · intro other failed
    rw [← Except.error.inj failed]
    exact blames
  · rw [Node.block]
    split
    · rename_i reason flawed
      intro other failed
      rw [← Except.error.inj failed]
      exact sensible _ (mem_flaws_nodesOf (Nodes.mem_flaws_of_flaw? flawed))
    · exact .ok _

/-- The block of a node is among the bytes. -/
theorem block_infix {block : Block} (known : node.block = .ok block) : block.bytes <:+: body := by
  rcases stands.cases with ⟨reason, _, rfl⟩ | ⟨record, read, _, rfl⟩
  · exact absurd known (by simp [Node.block])
  · rw [Node.block] at known
    split at known
    · exact absurd known (by simp)
    · rw [← Except.ok.inj known]
      exact ((record_eq stands.low (Nat.le_of_lt stands.high)).2.2 record read).2

/-- Grafting a node succeeds, or leaves the draft as it was and blames the bytes. -/
theorem graft (name : String) (draft : Draft) : (∃ next, Draft.graft name node draft = .ok () next) ∨
    ∃ reason, Blames reason ∧ Draft.graft name node draft = .error reason draft := by
  rw [Draft.graft]
  cases known : node.block with
  | error reason => exact Or.inr ⟨reason, stands.block reason known, rfl⟩
  | ok block => exact Or.inl ⟨_, rfl⟩

end Stands

end StoredTree

namespace GuardedRead

/-- The children that entries stand for, one after the other, each with what a visit to it gives. -/
def visitAll {start : Nat} (visit : Nat → Option (Except Error (Bytes × List (Nat × String × Bytes)))) (depth : Nat) :
    List (Except Error (RecordEntry start)) → Option (Except Error (List (Nat × String × Bytes)))
  | [] => some (.ok [])
  | .error reason :: _ => some (.error reason)
  | .ok entry :: rest =>
    match visit entry.position with
    | none => none
    | some (.error reason) => some (.error reason)
    | some (.ok (data, inner)) =>
      (visitAll visit depth rest).map (·.map ((depth, entry.name, data) :: inner ++ ·))

/-- The payload of a node and what is below it, depth first, where every record is read when the walk comes to it.
Nothing, if the walk would go down more than `limit` levels. -/
def descend (body : Bytes) : (limit depth start : Nat) → Option (Except Error (Bytes × List (Nat × String × Bytes)))
  | 0, _, _ => none
  | limit + 1, depth, start =>
    match record body start with
    | none => none
    | some (.error reason) => some (.error reason)
    | some (.ok record) => (visitAll (descend body limit (depth + 1)) depth record.entries).map (·.map (record.data, ·))

/-- Every node from the one at `start` on, with depths and payloads. -/
def dump (body : Bytes) (limit start : Nat) : Option (Except Error (List (Nat × String × Bytes))) :=
  (descend body limit 1 start).map (·.map fun (data, below) => (0, "", data) :: below)

end GuardedRead

/-- The payload of a node and what is below it. -/
def Node.inside (node : Node) (depth : Nat) : Except Error (Bytes × List (Nat × String × Bytes)) := do
  let data ← node.data
  pure (data, ← (← node.children).listing depth)

theorem Nodes.listing_ofNode (depth : Nat) (name : String) (node : Node) (rest : Nodes) :
    (ofNode name node rest).listing depth = match node.inside (depth + 1) with
      | .error reason => .error reason
      | .ok (data, inner) => (rest.listing depth).map ((depth, name, data) :: inner ++ ·) := by
  cases node with
  | torn reason => rfl
  | sound data block below =>
    simp only [ofNode, listing, Node.inside, Node.data, Node.children, bind, Except.bind, pure, Except.pure]
    cases below.listing (depth + 1) with
    | error reason => rfl
    | ok inner => cases rest.listing depth <;> rfl

theorem Node.listing_eq (node : Node) :
    node.listing = (node.inside 1).map fun (data, below) => (0, "", data) :: below := by
  cases node with
  | torn reason => rfl
  | sound payload block below =>
    simp only [listing, inside, data, children, bind, Except.bind, pure, Except.pure]
    cases below.listing 1 <;> rfl

namespace StoredTree

variable {body : Bytes} {start : Nat} {node : Node}

/-- The children are visited at ever lower positions. -/
theorem visitAll_eq {visit : Nat → Option (Except Error (Bytes × List (Nat × String × Bytes)))} {depth : Nat}
    {entries : List (Except Error (RecordEntry start))}
    (each : ∀ entry, .ok entry ∈ entries → visit entry.position = some ((nodeAt body entry.position).inside (depth + 1))) :
    GuardedRead.visitAll visit depth entries = some ((nodesOf body entries).listing depth) := by
  induction entries with
  | nil => rw [nodesOf]; rfl
  | cons first rest ih =>
    have others := ih fun entry listed => each entry (List.mem_cons_of_mem _ listed)
    rw [nodesOf.eq_def]
    cases first with
    | error reason => rfl
    | ok entry =>
      simp only [GuardedRead.visitAll, each entry List.mem_cons_self, Nodes.listing_ofNode, others]
      cases (nodeAt body entry.position).inside (depth + 1) <;> rfl

/-- A walk down ends, as every child stands in front of its parent. -/
theorem Stands.descend (stands : Stands body start node) (depth : Nat) {limit : Nat} (enough : start < limit) :
    GuardedRead.descend body limit depth start = some (node.inside depth) := by
  induction limit generalizing start node depth with
  | zero => omega
  | succ limit ih =>
    obtain ⟨guarded, _, sensible⟩ := record_eq stands.low (Nat.le_of_lt stands.high)
    have high := stands.high
    rw [stands.node_eq, GuardedRead.descend, guarded, nodeAt]
    cases read : readRecord body start with
    | error reason => rfl
    | ok record =>
      have each : ∀ entry, .ok entry ∈ record.entries → GuardedRead.descend body limit (depth + 1) entry.position =
          some ((nodeAt body entry.position).inside (depth + 1)) := by
        intro entry listed
        have before := entry.position_lt
        exact ih ⟨(sensible record read).1 _ listed, by omega, rfl⟩ (depth + 1) (by omega)
      simp only [visitAll_eq each, Node.inside, Node.data, Node.children, bind, Except.bind, pure, Except.pure]
      cases (nodesOf body record.entries).listing depth <;> rfl

/-- A whole tree can be read with guards, and reads as it is listed. -/
theorem Stands.dump (stands : Stands body start node) {limit : Nat} (enough : start < limit) :
    GuardedRead.dump body limit start = some node.listing := by
  rw [GuardedRead.dump, stands.descend 1 enough, Node.listing_eq]
  rfl

end StoredTree

/-- The nodes that are come to from `top` by listing children or asking for them by name. -/
inductive Node.Reaches (top : Node) : Node → Prop
  | top : Reaches top top
  | listed {node child : Node} {nodes : Nodes} {name : String} (reaches : Reaches top node)
    (known : node.children = .ok nodes) (member : (name, child) ∈ nodes.members) : Reaches top child
  | found {node child : Node} {name : String} (reaches : Reaches top node)
    (found : node.child? name = .ok (some child)) : Reaches top child

theorem Node.Reaches.descend {top node found : Node} {path : List String} (reaches : top.Reaches node)
    (leads : node.descend? path = .ok (some found)) : top.Reaches found := by
  induction path generalizing node with
  | nil => exact Option.some.inj (Except.ok.inj leads) ▸ reaches
  | cons name rest ih =>
    rw [Node.descend?] at leads
    cases known : node.child? name with
    | error reason => exact absurd leads (by simp [known, bind, Except.bind])
    | ok child? =>
      rw [known] at leads
      cases child? with
      | none => exact absurd leads (by simp [bind, Except.bind, pure, Except.pure])
      | some child => exact ih (.found reaches known) leads

namespace StoredTree

/-- Nothing that can be asked of a node does harm. Reading its record, the bytes of its block included, passes all
guards; each answer is a value or a reason that blames the bytes; the children stand before the node, and a walk down
from it goes down no more levels than its position says. -/
structure Harmless (body : Bytes) (start : Nat) (node : Node) : Prop extends Stands body start node where
  guarded : GuardedRead.record body start = some (readRecord body start)
  data : Decodes node.data
  children : Decodes node.children
  count : Decodes (node.children.map Nodes.count)
  flaws : ∀ nodes, node.children = .ok nodes → ∀ reason ∈ nodes.flaws, Blames reason
  members : ∀ nodes name child, node.children = .ok nodes → (name, child) ∈ nodes.members →
    ∃ position < start, Stands body position child
  child? : ∀ name, Decodes (node.child? name)
  found : ∀ name child, node.child? name = .ok (some child) → ∃ position < start, Stands body position child
  graft : ∀ name draft, (∃ next, Draft.graft name node draft = .ok () next) ∨
    ∃ reason, Blames reason ∧ Draft.graft name node draft = .error reason draft
  dump : ∀ limit, start < limit → GuardedRead.dump body limit start = some node.listing

variable {body bytes : Bytes} {start : Nat} {node : Node} {tree : StoredTree}

/-- A node that stands somewhere within the bytes does no harm. -/
theorem Stands.harmless (stands : Stands body start node) : Harmless body start node where
  toStands := stands
  guarded := (record_eq stands.low (Nat.le_of_lt stands.high)).1
  data := stands.data
  children := stands.children
  count := stands.children.bind fun nodes _ => .ok nodes.count
  flaws _ := stands.flaws
  members _ _ _ := stands.member
  child? := stands.child?
  found _ _ := stands.found
  graft := stands.graft
  dump _ := stands.dump

/-- Bytes are opened if they are framed as a tree and its topmost record starts within them. -/
theorem ofBytes_eq (bytes : Bytes) : ofBytes bytes =
    if bytes.length < magic.length + 8 ∨ bytes.take magic.length ≠ magic then
      .error (.corrupt "tree header" "missing segment tree magic")
    else if magic.length ≤ ofLittleEndian (bytes.drop (bytes.length - 8)) ∧
        ofLittleEndian (bytes.drop (bytes.length - 8)) < bytes.length - 8 then
      .ok { bytes, root := nodeAt (bytes.take (bytes.length - 8)) (ofLittleEndian (bytes.drop (bytes.length - 8))) }
    else .error (.corrupt "tree footer" "root offset out of range") := by
  simp only [ofBytes, val_readNode]

/-- Bytes that are accepted have room for what stands in front and behind, and the topmost node stands in between. -/
theorem root_stands (opened : ofBytes bytes = .ok tree) : tree.bytes = bytes ∧ magic.length + 8 ≤ bytes.length ∧
    ∃ start, Stands (bytes.take (bytes.length - 8)) start tree.root := by
  rw [ofBytes_eq] at opened
  split at opened
  · exact absurd opened (by simp)
  · rename_i fine
    rw [not_or, Nat.not_lt] at fine
    split at opened
    · rename_i place
      obtain rfl := Except.ok.inj opened
      have length : (bytes.take (bytes.length - 8)).length = bytes.length - 8 := by
        rw [List.length_take]
        omega
      exact ⟨rfl, fine.1, _, place.1, by rw [length]; exact place.2, rfl⟩
    · exact absurd opened (by simp)

/-- What a node leads to stands where it does. -/
theorem Stands.reaches {top : Node} (stands : Stands body start top) (reaches : top.Reaches node) :
    ∃ position, Stands body position node := by
  induction reaches with
  | top => exact ⟨start, stands⟩
  | listed _ known member ih =>
    obtain ⟨above, here⟩ := ih
    obtain ⟨position, _, there⟩ := here.member known member
    exact ⟨position, there⟩
  | found _ found ih =>
    obtain ⟨above, here⟩ := ih
    obtain ⟨position, _, there⟩ := here.found found
    exact ⟨position, there⟩

/-- No node of a tree that has been opened does harm, whatever the bytes of the tree are. -/
theorem opened_harmless (opened : ofBytes bytes = .ok tree) (reaches : tree.root.Reaches node) :
    magic.length + 8 ≤ bytes.length ∧ ∃ start, Harmless (bytes.take (bytes.length - 8)) start node := by
  obtain ⟨_, room, start, stands⟩ := root_stands opened
  obtain ⟨position, there⟩ := stands.reaches reaches
  exact ⟨room, position, there.harmless⟩

/-- A record that lies across others, and an entry that leads nowhere. -/
theorem opened_harmless_overlapping_records : ∃ bytes tree,
    bytes = magic ++ [0, 1, 65, 0] ++ [4, 0, 3, 1, 97, 4, 1, 98, 0, 1, 99, 1] ++ [12, 0, 0, 0, 0, 0, 0, 0] ∧
    ofBytes bytes = .ok tree ∧ tree.root.Reaches tree.root ∧
    ∃ start, Harmless (bytes.take (bytes.length - 8)) start tree.root := by
  have opened := ofBytes_eq (magic ++ [0, 1, 65, 0] ++ [4, 0, 3, 1, 97, 4, 1, 98, 0, 1, 99, 1] ++
    [12, 0, 0, 0, 0, 0, 0, 0])
  rw [if_neg (by decide), if_pos (by decide)] at opened
  exact ⟨_, _, rfl, opened, .top, (opened_harmless opened .top).2⟩

end StoredTree
end BackupAtlas
