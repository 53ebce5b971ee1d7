import BackupAtlas.Proofs.OpenedTrees
import BackupAtlas.Proofs.Sealing

namespace BackupAtlas

namespace Draft

/-- The draft after a call, which may have failed. -/
def after (step : Step) (draft : Draft) : Draft :=
  match step draft with
  | .ok _ next | .error _ next => next

/-- The tree that a draft ends as. -/
def tree (draft : Draft) (data : Bytes) : Except Error StoredTree := do StoredTree.ofBytes (← draft.finish data)

end Draft

/-- Calls on a draft, one after the other. What is copied is the node to which `path` leads in the tree that the calls
of `source` write, whose topmost node has the payload `data`. -/
inductive Script where
  | done
  | openDir (rest : Script)
  | closeDir (name : String) (data : Bytes) (rest : Script)
  | leaf (name : String) (data : Bytes) (rest : Script)
  | copy (name : String) (source : Script) (data : Bytes) (path : List String) (rest : Script)

namespace Script

/-- What becomes of a draft. A call that fails leaves it to the next one. -/
def run : Script → Draft → Draft
  | done, draft => draft
  | openDir rest, draft => rest.run (draft.after Draft.openDir)
  | closeDir name data rest, draft => rest.run (draft.after (Draft.closeDir name data))
  | leaf name data rest, draft => rest.run (draft.after (Draft.leaf name data))
  | copy name source data path rest, draft =>
    rest.run <| match (do (← (source.run {}).tree data).root.descend? path) with
      | .ok (some node) => draft.after (Draft.graft name node)
      | _ => draft

end Script

/-- Where a copied node comes from. -/
structure Origin where
  source : Script
  data : Bytes
  path : List String

/-- The node that was copied. -/
def Origin.node? (origin : Origin) : Except Error (Option Node) := do
  (← (origin.source.run {}).tree origin.data).root.descend? origin.path

/-- The nodes in a directory in the order in which they were written. -/
inductive Outline where
  | done
  | entry (name : String) (data : Bytes) (origin : Option Origin) (below rest : Outline)

/-- A node as it was described: its payload, where it was copied from, if so, and what is below it. -/
structure Part where
  data : Bytes
  origin : Option Origin := none
  below : Outline

namespace Outline

def names : Outline → List String
  | done => []
  | entry name _ _ _ rest => name :: rest.names

/-- No two siblings have the same name. -/
def Distinct : Outline → Prop
  | done => True
  | entry name _ _ below rest => name ∉ rest.names ∧ below.Distinct ∧ rest.Distinct

instance decidableDistinct : (outline : Outline) → Decidable outline.Distinct
  | done => inferInstanceAs (Decidable True)
  | entry name _ _ below rest =>
    have := below.decidableDistinct
    have := rest.decidableDistinct
    inferInstanceAs (Decidable (name ∉ rest.names ∧ below.Distinct ∧ rest.Distinct))

def find? (name : String) : Outline → Option Part
  | done => none
  | entry key data origin below rest => if name = key then some ⟨data, origin, below⟩ else rest.find? name

def snoc (name : String) (part : Part) : Outline → Outline
  | done => entry name part.data part.origin part.below done
  | entry key data origin below rest => entry key data origin below (rest.snoc name part)

/-- The nodes of a directory, with the pieces that they are written as. -/
def children : Outline → List (Piece × Node)
  | done => []
  | entry name data _ below rest =>
    let block := Block.ofNode data (below.children.map (·.1))
    (⟨name, block⟩, .sound data block (.ofList (Piece.sort (below.children.map fun child => (child.1.name, child.2))))) ::
      rest.children

def pieces (outline : Outline) : List Piece := outline.children.map (·.1)

/-- The nodes by their names. -/
def named (outline : Outline) : List (String × Node) := outline.children.map fun child => (child.1.name, child.2)

end Outline

namespace Part

def block (part : Part) : Block := .ofNode part.data part.below.pieces

/-- The node that is written for a part. -/
def node (part : Part) : Node := .sound part.data part.block (.ofList (Piece.sort part.below.named))

/-- The part to which names lead. -/
def descend? (part : Part) : List String → Option Part
  | [] => some part
  | name :: rest => (part.below.find? name).bind (·.descend? rest)

end Part

/-- Where a node of the outline is said to be a copy, it is the node that it was copied from. -/
def Outline.Faithful : Outline → Prop
  | done => True
  | entry _ data origin below rest =>
    (∀ from', origin = some from' → from'.node? = .ok (some (Part.node ⟨data, origin, below⟩))) ∧
      below.Faithful ∧ rest.Faithful

structure Part.Faithful (part : Part) : Prop where
  node : ∀ origin, part.origin = some origin → origin.node? = .ok (some part.node)
  below : part.below.Faithful

namespace Outline

variable {outline : Outline} {name : String} {part : Part}

theorem names_eq (outline : Outline) : outline.named.map (·.1) = outline.names := by
  induction outline with
  | done => rfl
  | entry name data origin below rest _ ih =>
    rw [names, ← ih]
    rfl

theorem pieces_snoc (name : String) (part : Part) (outline : Outline) :
    (outline.snoc name part).pieces = outline.pieces ++ [⟨name, part.block⟩] := by
  induction outline with
  | done => rfl
  | entry key data origin below rest _ ih =>
    have step : (entry key data origin below (rest.snoc name part)).pieces =
        ⟨key, Part.block ⟨data, origin, below⟩⟩ :: (rest.snoc name part).pieces := rfl
    rw [snoc, step, ih]
    rfl

theorem Faithful.snoc (faithful : outline.Faithful) (name : String) (here : part.Faithful) :
    (outline.snoc name part).Faithful := by
  induction outline with
  | done => exact ⟨here.node, here.below, trivial⟩
  | entry key data origin below rest _ ih => exact ⟨faithful.1, faithful.2.1, ih faithful.2.2⟩

theorem Faithful.topmost (faithful : outline.Faithful) (data : Bytes) : Part.Faithful { data, below := outline } :=
  ⟨fun _ copied => absurd copied (by simp), faithful⟩

/-- What an outline says of its first entry and of the others, it says of each. -/
theorem find?_of_entries {P : Outline → Prop} {Q : Part → Prop}
    (step : ∀ key data origin below rest, P (entry key data origin below rest) → Q ⟨data, origin, below⟩ ∧ P rest)
    (holds : P outline) (found : outline.find? name = some part) : Q part := by
  induction outline with
  | done => exact absurd found (by simp [Outline.find?])
  | entry key data origin below rest _ ih =>
    obtain ⟨here, later⟩ := step key data origin below rest holds
    rw [Outline.find?] at found
    split at found
    · exact Option.some.inj found ▸ here
    · exact ih later found

/-- What is found in a faithful outline is faithful. -/
theorem Faithful.find? (faithful : outline.Faithful) (found : outline.find? name = some part) : part.Faithful :=
  find?_of_entries (fun _ _ _ _ _ holds => ⟨⟨holds.1, holds.2.1⟩, holds.2.2⟩) faithful found

theorem Distinct.nodup (distinct : outline.Distinct) : outline.names.Nodup := by
  induction outline with
  | done => exact List.nodup_nil
  | entry key data origin below rest _ ih => exact List.nodup_cons.mpr ⟨distinct.1, ih distinct.2.2⟩

theorem Distinct.find? (distinct : outline.Distinct) (found : outline.find? name = some part) :
    part.below.Distinct :=
  find?_of_entries (Q := fun part => part.below.Distinct) (fun _ _ _ _ _ holds => ⟨holds.2.1, holds.2.2⟩) distinct found

/-- Every piece is read back as the node it stands for. -/
theorem reads (outline : Outline) : ∀ child ∈ outline.children, child.1.block.Reads child.2 := by
  induction outline with
  | done => exact fun child member => absurd member List.not_mem_nil
  | entry name data origin below rest ihBelow ih =>
    refine List.forall_mem_cons.mpr ⟨?_, ih⟩
    exact Block.ofNode_reads data ihBelow

theorem lookup_named (outline : Outline) (name : String) :
    outline.named.lookup name = (outline.find? name).map Part.node := by
  induction outline with
  | done => rfl
  | entry key data origin below rest _ ih =>
    have step : (entry key data origin below rest).named = (key, Part.node ⟨data, origin, below⟩) :: rest.named := rfl
    rw [step, List.lookup_cons, Outline.find?, ih]
    by_cases same : name = key
    · rw [if_pos same, beq_iff_eq.mpr same]
      rfl
    · rw [if_neg same, beq_eq_false_iff_ne.mpr same]

end Outline

theorem lookup_eq_some {α : Type} {entries : List (String × α)} (distinct : (entries.map (·.1)).Nodup) {name : String}
    {value : α} : entries.lookup name = some value ↔ (name, value) ∈ entries := by
  induction entries with
  | nil => simp
  | cons head rest ih =>
    obtain ⟨key, other⟩ := head
    obtain ⟨fresh, distinct⟩ := List.nodup_cons.mp distinct
    rw [List.lookup_cons, List.mem_cons, Prod.mk.injEq]
    by_cases same : name = key
    · subst same
      have apart : (name, value) ∉ rest := fun member => fresh (List.mem_map.mpr ⟨_, member, rfl⟩)
      simp only [beq_self_eq_true, Option.some.injEq, true_and, apart, or_false, eq_comm]
    · simp only [beq_eq_false_iff_ne.mpr same, same, false_and, false_or, ih distinct]

/-- The order of pieces does not matter to a search, as their names are distinct. -/
theorem Piece.lookup_sort {α : Type} {entries : List (String × α)} (distinct : (entries.map (·.1)).Nodup)
    (name : String) : (sort entries).lookup name = entries.lookup name := by
  have sorted : ((sort entries).map (·.1)).Nodup := ((sort_perm entries).map _).nodup_iff.mpr distinct
  refine Option.ext fun value => ?_
  rw [lookup_eq_some sorted, lookup_eq_some distinct, (sort_perm entries).mem_iff]

namespace Nodes

/-- Nodes in order are found under their names. -/
theorem find?_ofList {children : List (String × Node)} (ascending : children.Pairwise (·.1 < ·.1)) (name : String) :
    (ofList children).find? name = .ok (children.lookup name) := by
  induction children with
  | nil => rfl
  | cons child rest ih =>
    obtain ⟨key, node⟩ := child
    obtain ⟨first, tail⟩ := List.pairwise_cons.mp ascending
    have step : (ofList ((key, node) :: rest)).find? name =
        if key < name then (ofList rest).find? name else if key = name then .ok (some node) else .ok none := by
      cases node <;> rfl
    rw [step, ih tail, List.lookup_cons]
    by_cases less : key < name
    · have differs : name ≠ key := fun same => String.lt_irrefl key (same ▸ less)
      rw [if_pos less, beq_eq_false_iff_ne.mpr differs]
    · rw [if_neg less]
      by_cases same : key = name
      · rw [if_pos same, beq_iff_eq.mpr same.symm]
      · -- all other names stand behind `key`, and so behind `name`
        have absent : rest.lookup name = none := by
          refine List.lookup_eq_none_iff.mpr fun other member => bne_iff_ne.mpr ?_
          rintro rfl
          exact less (first other member)
        rw [if_neg same, beq_eq_false_iff_ne.mpr (Ne.symm same), absent]

theorem flaw?_ofList (children : List (String × Node)) : (ofList children).flaw? = none := by
  induction children with
  | nil => rfl
  | cons child rest ih =>
    obtain ⟨key, node⟩ := child
    cases node <;> exact ih

end Nodes

namespace Part

variable {part : Part}

theorem named_ascending (distinct : part.below.Distinct) : (Piece.sort part.below.named).Pairwise (·.1 < ·.1) :=
  Piece.sort_pairwise (by rw [Outline.names_eq]; exact distinct.nodup)

theorem block_node (part : Part) : part.node.block = .ok part.block := by
  rw [node, Node.block, Nodes.flaw?_ofList]

/-- A reader finds the children of a node as they are in its outline. -/
theorem child?_node (distinct : part.below.Distinct) (name : String) :
    part.node.child? name = .ok ((Piece.sort part.below.named).lookup name) :=
  Nodes.find?_ofList (named_ascending distinct) name

theorem lookup_children (distinct : part.below.Distinct) (name : String) :
    (Piece.sort part.below.named).lookup name = (part.below.find? name).map node := by
  rw [Piece.lookup_sort (by rw [Outline.names_eq]; exact distinct.nodup), Outline.lookup_named]

/-- Names lead on from where earlier ones lead to. -/
theorem descend?_append (first second : List String) (part : Part) :
    part.descend? (first ++ second) = (part.descend? first).bind (·.descend? second) := by
  induction first generalizing part with
  | nil => rfl
  | cons name first ih =>
    rw [List.cons_append, descend?, descend?, Option.bind_assoc]
    exact Option.bind_congr fun inner _ => ih inner

theorem descend?_single (name : String) (part : Part) : part.descend? [name] = part.below.find? name := by
  rw [descend?]
  cases part.below.find? name <;> rfl

/-- Names lead to the node of the part to which they lead in the outline. -/
theorem descend?_node (distinct : part.below.Distinct) (path : List String) :
    part.node.descend? path = .ok ((part.descend? path).map node) := by
  induction path generalizing part with
  | nil => rfl
  | cons name rest ih =>
    rw [Node.descend?, child?_node distinct, lookup_children distinct, descend?]
    cases found : part.below.find? name with
    | none => rfl
    | some child => exact ih (distinct.find? found)

theorem distinct_descend? (distinct : part.below.Distinct) {path : List String} {inner : Part}
    (found : part.descend? path = some inner) : inner.below.Distinct := by
  induction path generalizing part with
  | nil => exact Option.some.inj found ▸ distinct
  | cons name rest ih =>
    obtain ⟨child, here, later⟩ := Option.bind_eq_some_iff.mp found
    exact ih (distinct.find? here) later

/-- What names lead to in a faithful part is faithful. -/
theorem Faithful.descend? (faithful : part.Faithful) {path : List String} {inner : Part}
    (found : part.descend? path = some inner) : inner.Faithful := by
  induction path generalizing part with
  | nil => exact Option.some.inj found ▸ faithful
  | cons name rest ih =>
    obtain ⟨child, here, later⟩ := Option.bind_eq_some_iff.mp found
    exact ih (faithful.below.find? here) later

/-- A block for a part is read back as the node of the part. -/
theorem reads (part : Part) : part.block.Reads part.node := Block.ofNode_reads part.data part.below.reads

end Part

/-- What a reader sees of a node: its payload, its children by name in ascending order, each of which is found under
its name, and nothing under other names. Its block is among the bytes of its tree, and if it is a copy, it is the node
that was copied. -/
structure Node.Looks (node : Node) (part : Part) (bytes : Bytes) : Prop where
  data : node.data = .ok part.data
  children : ∃ children : List (String × Node), node.children = .ok (.ofList children) ∧
    children.Pairwise (·.1 < ·.1) ∧ (children.map (·.1)).Perm part.below.names ∧
    ∀ name, node.child? name = .ok (children.lookup name)
  block : ∃ block, node.block = .ok block ∧ block.bytes <:+: bytes
  origin : ∀ origin, part.origin = some origin → origin.node? = .ok (some node)

/-- All ways down a tree lead to nodes that look as described, or nowhere if nothing was described there. -/
def StoredTree.Depicts (tree : StoredTree) (part : Part) : Prop :=
  ∀ path, match part.descend? path with
    | none => tree.root.descend? path = .ok none
    | some inner => ∃ node, tree.root.descend? path = .ok (some node) ∧ node.Looks inner tree.bytes

/-- A tree with the node of a part at its top depicts the part. -/
theorem Part.depicts {part : Part} (distinct : part.below.Distinct) (faithful : part.Faithful) {bytes : Bytes}
    (opened : StoredTree.ofBytes bytes = .ok { bytes, root := part.node }) :
    StoredTree.Depicts { bytes, root := part.node } part := by
  obtain ⟨_, _, start, stands⟩ := StoredTree.root_stands opened
  intro path
  have leads := part.descend?_node distinct path
  cases found : part.descend? path with
  | none => rw [leads, found]; rfl
  | some inner =>
    rw [found] at leads
    have below := part.distinct_descend? distinct found
    obtain ⟨position, there⟩ := stands.reaches (Node.Reaches.top.descend leads)
    have within := (there.block_infix inner.block_node).trans (List.take_prefix _ _).isInfix
    have names : ((Piece.sort inner.below.named).map (·.1)).Perm inner.below.names := by
      rw [← Outline.names_eq]
      exact (Piece.sort_perm _).map _
    refine ⟨inner.node, leads, rfl, ?_, ⟨_, inner.block_node, within⟩, (faithful.descend? found).node⟩
    exact ⟨_, rfl, named_ascending below, names, child?_node below⟩

end BackupAtlas
