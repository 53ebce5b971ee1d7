import BackupAtlas.Build
import BackupAtlas.Overlay
import BackupAtlas.Proofs.Delimiting
import BackupAtlas.Proofs.Patches
import BackupAtlas.Proofs.Rebuilds
import BackupAtlas.Proofs.WrittenTrees

namespace BackupAtlas

open TreePath

/-- Each child of a node can be read, and they stand in the order of their names. -/
structure Node.Lists (node : Node) (entries : List (String × Node)) : Prop where
  children : node.children = .ok (.ofList entries)
  sorted : (entries.map (·.1)).Pairwise (· ≤ ·)

variable {node : Node} {entries rest : List (String × Node)} {name key later : String} {coming : List String}

theorem Node.Lists.ascending (lists : node.Lists entries) (distinct : (entries.map (·.1)).Nodup) :
    entries.Pairwise (·.1 < ·.1) := by
  have both := List.Pairwise.and lists.sorted distinct
  refine List.pairwise_map.mp (both.imp fun {key other} order => ?_)
  exact lt_of_not_lt_of_ne (String.not_lt.mpr order.1) order.2.symm

/-- A child is what is listed under the name. -/
theorem Node.Lists.child? (lists : node.Lists entries) (ascending : entries.Pairwise (·.1 < ·.1)) (name : String) :
    node.child? name = .ok (entries.lookup name) := by
  rw [Node.child?, lists.children]
  exact Nodes.find?_ofList ascending name

/-- Children as they are described in a part that has been written. -/
theorem Part.lists {part : Part} (distinct : part.below.Distinct) :
    part.node.Lists (Piece.sort part.below.named) ∧ ((Piece.sort part.below.named).map (·.1)).Nodup := by
  have ascending := List.pairwise_map.mpr (Part.named_ascending distinct)
  refine ⟨⟨rfl, ascending.imp fun less => ?_⟩, ascending.imp fun {key other} less same => ?_⟩
  · exact String.not_lt.mp fun greater => String.lt_irrefl _ (String.lt_trans less greater)
  · exact String.lt_irrefl key (same ▸ less)

/-- The entries behind `name`, where they ascend. -/
def beyond (name : String) (entries : List (String × Node)) : List (String × Node) :=
  entries.dropWhile fun entry => !decide (name < entry.1)

theorem beyond_cons_of_not_lt (notLess : ¬ name < key) : beyond name ((key, node) :: rest) = beyond name rest := by
  rw [beyond, List.dropWhile_cons_of_pos (by simpa using notLess), ← beyond]

theorem beyond_of_lt (behind : ∀ entry ∈ entries, name < entry.1) : beyond name entries = entries := by
  cases entries with
  | nil => rfl
  | cons entry rest =>
    have first := behind entry List.mem_cons_self
    rw [beyond, List.dropWhile_cons_of_neg (by simpa using first)]

/-- Entries that have been passed over do not matter for later names. -/
theorem lookup_beyond (less : name < later) (entries : List (String × Node)) :
    (beyond name entries).lookup later = entries.lookup later := by
  induction entries with
  | nil => rfl
  | cons entry rest ih =>
    obtain ⟨key, node⟩ := entry
    by_cases behind : name < key
    · rw [beyond, List.dropWhile_cons_of_neg (by simpa using behind)]
    · have differs : later ≠ key := fun same => behind (same ▸ less)
      rw [beyond_cons_of_not_lt behind, ih, List.lookup_cons, beq_eq_false_iff_ne.mpr differs]

theorem lookup_eq_none_of_lt (behind : ∀ entry ∈ entries, name < entry.1) : entries.lookup name = none := by
  refine List.lookup_eq_none_iff.mpr fun entry member => bne_iff_ne.mpr fun same => ?_
  exact String.lt_irrefl name (by rw [same]; exact same ▸ behind entry member)

/-- The first of some ascending entries stands before a name, or it is what is looked for, or nothing is. -/
theorem first_cases (ascending : ((key, node) :: rest).Pairwise (·.1 < ·.1)) (name : String) :
    (key < name ∧ ((key, node) :: rest).lookup name = rest.lookup name ∧
      beyond name ((key, node) :: rest) = beyond name rest) ∨
    (key = name ∧ ((key, node) :: rest).lookup name = some node ∧ beyond name ((key, node) :: rest) = rest) ∨
    (¬ key < name ∧ key ≠ name ∧ ((key, node) :: rest).lookup name = none ∧
      beyond name ((key, node) :: rest) = (key, node) :: rest) := by
  obtain ⟨first, _⟩ := List.pairwise_cons.mp ascending
  by_cases less : key < name
  · have differs : name ≠ key := fun same => String.lt_irrefl key (same ▸ less)
    refine Or.inl ⟨less, ?_, beyond_cons_of_not_lt fun greater => String.lt_irrefl _ (String.lt_trans less greater)⟩
    rw [List.lookup_cons, beq_eq_false_iff_ne.mpr differs]
  · by_cases same : key = name
    · subst same
      refine Or.inr (Or.inl ⟨rfl, List.lookup_cons_self, ?_⟩)
      rw [beyond_cons_of_not_lt (String.lt_irrefl key), beyond_of_lt first]
    · have above := lt_of_not_lt_of_ne less same
      have all : ∀ entry ∈ (key, node) :: rest, name < entry.1 :=
        List.forall_mem_cons.mpr ⟨above, fun entry member => String.lt_trans above (first entry member)⟩
      exact Or.inr (Or.inr ⟨less, same, lookup_eq_none_of_lt all, beyond_of_lt all⟩)

/-- Entries that ascend, among which the names that are still to come are found as among all children of a node. -/
structure Node.Remains (coming : List String) (node : Node) (entries : List (String × Node)) : Prop where
  ascending : entries.Pairwise (·.1 < ·.1)
  looks : ∀ name ∈ coming, node.child? name = .ok (entries.lookup name)

theorem Node.Lists.remains (lists : node.Lists entries) (distinct : (entries.map (·.1)).Nodup)
    (coming : List String) : node.Remains coming entries :=
  ⟨lists.ascending distinct, fun name _ => lists.child? (lists.ascending distinct) name⟩

/-- Entries that remain hold the counterpart of the next name. -/
theorem Node.Remains.child (remains : node.Remains (name :: coming) entries) :
    (Counterpart.node node).child name = Counterpart.ofNode? (entries.lookup name) := by
  rw [Counterpart.child, remains.looks name List.mem_cons_self]
  rfl

theorem Node.Remains.tail (remains : node.Remains (name :: coming) entries) : node.Remains coming entries :=
  ⟨remains.ascending, fun later member => remains.looks later (List.mem_cons_of_mem _ member)⟩

/-- After a name has been asked for, what is beyond it remains for the others. -/
theorem Node.Remains.beyond (remains : node.Remains (name :: coming) entries) (first : ∀ later ∈ coming, name < later) :
    node.Remains coming (beyond name entries) := by
  refine ⟨remains.ascending.sublist (List.dropWhile_sublist _), fun later member => ?_⟩
  rw [lookup_beyond (first later member)]
  exact remains.tail.looks later member

/-- A counterpart of which the children, if it has any of its own, can be told apart by their names. -/
inductive Counterpart.Lists : Counterpart → Prop
  | node {node : Node} {entries : List (String × Node)} (lists : node.Lists entries)
      (distinct : (entries.map (·.1)).Nodup) : Lists (.node node)
  | uniform (rule : Nat) : Lists (.uniform rule)
  | absent : Lists .absent

namespace PriorChildren

variable {prior : PriorChildren} {visited : Nat}

/-- These are the entries that are still to be looked at, whether the first of them has been read or not. -/
inductive Lists : List (String × Node) → PriorChildren → Prop
  | unread (entries : List (String × Node)) : Lists entries (.listed none (.ofList entries))
  | pending (key : String) (node : Node) (rest : List (String × Node)) :
      Lists ((key, node) :: rest) (.listed (some (key, node)) (.ofList rest))

/-- A search for `name` ends with what is found under that name, and the entries behind it are left. -/
def Finds (name : String) (entries : List (String × Node)) (result : Except Error Found) : Prop :=
  ∃ next count, Lists (beyond name entries) next ∧
    result = (Counterpart.ofNode? (entries.lookup name)).map fun found => (found, next, count)

theorem settle_finds (ascending : ((key, node) :: rest).Pairwise (·.1 < ·.1))
    (others : Finds name rest (advance name visited (.ofList rest))) : Finds name ((key, node) :: rest)
      ((settle name key node (.ofList rest) visited).getD (advance name visited (.ofList rest))) := by
  rw [settle]
  rcases first_cases ascending name with ⟨less, looked, left⟩ | ⟨same, looked, left⟩ | ⟨notLess, differs, looked, left⟩
  · rw [if_pos less, Finds, looked, left]
    exact others
  · rw [if_neg (same ▸ String.lt_irrefl key), if_pos same, Finds, looked, left]
    exact ⟨_, visited, .unread rest, rfl⟩
  · rw [if_neg notLess, if_neg differs, Finds, looked, left]
    exact ⟨_, visited, .pending key node rest, rfl⟩

/-- A search that goes on from where it stands finds what is listed. -/
theorem advance_finds (ascending : entries.Pairwise (·.1 < ·.1)) (visited : Nat) :
    Finds name entries (advance name visited (.ofList entries)) := by
  induction entries generalizing visited with
  | nil => exact ⟨_, visited, .unread [], rfl⟩
  | cons entry rest ih =>
    obtain ⟨key, node⟩ := entry
    have step : advance name visited (.ofList ((key, node) :: rest)) =
        (settle name key node (.ofList rest) (visited + 1)).getD (advance name (visited + 1) (.ofList rest)) := by
      cases node <;> rfl
    rw [step]
    exact settle_finds ascending (ih (List.pairwise_cons.mp ascending).2 _)

theorem Lists.seek_finds (lists : Lists entries prior) (ascending : entries.Pairwise (·.1 < ·.1)) (name : String) :
    Finds name entries (seek name prior) := by
  cases lists with
  | unread entries => exact advance_finds ascending 0
  | pending key node rest => exact settle_finds ascending (advance_finds (List.pairwise_cons.mp ascending).2 0)

/-- What is left of a counterpart for the names that are still to come. -/
inductive Follows (coming : List String) : Counterpart → PriorChildren → Prop
  | listed {node : Node} {entries : List (String × Node)} {prior : PriorChildren}
      (remains : node.Remains coming entries) (lists : Lists entries prior) : Follows coming (.node node) prior
  | uniform (rule : Nat) : Follows coming (.uniform rule) (.uniform rule)
  | absent : Follows coming .absent .absent

/-- A search that goes on finds what a search by name does. -/
theorem Follows.seek {upper : Counterpart} (follows : Follows (name :: coming) upper prior)
    (first : ∀ later ∈ coming, name < later) : ∃ next count, Follows coming upper next ∧
      prior.seek name = (upper.child name).map fun found => (found, next, count) := by
  cases follows with
  | listed remains lists =>
    obtain ⟨next, count, left, sought⟩ := lists.seek_finds remains.ascending name
    exact ⟨next, count, .listed (remains.beyond first) left, by rw [sought, remains.child]⟩
  | uniform rule => exact ⟨_, 0, .uniform rule, rfl⟩
  | absent => exact ⟨_, 0, .absent, rfl⟩

/-- The counterparts of several subdirectories, one after the other. -/
def seekAll : List String → PriorChildren → Except Error (List Counterpart)
  | [], _ => .ok []
  | name :: names, prior => do
    let (found, next, _) ← prior.seek name
    return found :: (← seekAll names next)

/-- Names that ascend find their counterparts in step. -/
theorem Follows.seekAll {names : List String} {upper : Counterpart} (follows : Follows names upper prior)
    (order : names.Pairwise (· < ·)) : prior.seekAll names = names.mapM fun name => upper.child name := by
  induction names generalizing prior with
  | nil => rfl
  | cons name names ih =>
    obtain ⟨first, order⟩ := List.pairwise_cons.mp order
    obtain ⟨next, count, left, sought⟩ := follows.seek first
    rw [PriorChildren.seekAll, sought, List.mapM_cons, ← ih left order]
    cases upper.child name <;> rfl

end PriorChildren

/-- The counterparts of several subdirectories, each search going on where the last one ended. -/
def Counterpart.seekAll (names : List String) (counterpart : Counterpart) : Except Error (List Counterpart) := do
  PriorChildren.seekAll names (← PriorChildren.ofCounterpart counterpart)

theorem Counterpart.Lists.seekAll {upper : Counterpart} (lists : upper.Lists) {names : List String}
    (order : names.Pairwise (· < ·)) : upper.seekAll names = names.mapM fun name => upper.child name := by
  cases lists with
  | node lists distinct =>
    have follows : PriorChildren.Follows names _ _ := .listed (lists.remains distinct names) (.unread _)
    rw [← follows.seekAll order, Counterpart.seekAll, PriorChildren.ofCounterpart, lists.children]
    rfl
  | uniform rule => exact (PriorChildren.Follows.uniform rule).seekAll order
  | absent => exact PriorChildren.Follows.absent.seekAll order

namespace View

theorem advance_ofList (ascending : entries.Pairwise (·.1 < ·.1)) (name : String) :
    advance name (.ofList entries) = .ok (entries.lookup name, .ofList (beyond name entries)) := by
  induction entries with
  | nil => rfl
  | cons entry rest ih =>
    obtain ⟨key, node⟩ := entry
    have step : advance name (.ofList ((key, node) :: rest)) =
        if key < name then advance name (.ofList rest)
        else if key = name then .ok (some node, .ofList rest) else .ok (none, .ofList ((key, node) :: rest)) := by
      cases node <;> rfl
    rw [step]
    rcases first_cases ascending name with
      ⟨less, looked, left⟩ | ⟨same, looked, left⟩ | ⟨notLess, differs, looked, left⟩
    · rw [if_pos less, looked, left, ih (List.pairwise_cons.mp ascending).2]
    · rw [if_neg (same ▸ String.lt_irrefl key), if_pos same, looked, left]
    · rw [if_neg notLess, if_neg differs, looked, left]

/-- What is left of the children of a counterpart for the names that are still to come. -/
inductive Follows (coming : List String) : Counterpart → Nodes → Prop
  | listed {node : Node} {entries : List (String × Node)} (remains : node.Remains coming entries) :
      Follows coming (.node node) (.ofList entries)
  | uniform (rule : Nat) (nodes : Nodes) : Follows coming (.uniform rule) nodes
  | absent (nodes : Nodes) : Follows coming .absent nodes

variable {upper : Counterpart} {nodes : Nodes}

theorem Follows.tail (follows : Follows (name :: coming) upper nodes) : Follows coming upper nodes := by
  cases follows with
  | listed remains => exact .listed remains.tail
  | uniform rule nodes => exact .uniform rule nodes
  | absent nodes => exact .absent nodes

/-- A child is paired with its counterpart, and the search can go on from there. -/
theorem Follows.pair (follows : Follows (name :: coming) upper nodes) (first : ∀ later ∈ coming, name < later) :
    ∃ next, Follows coming upper next ∧
      View.pair name upper nodes = (upper.child name).map fun found => (found, next) := by
  cases follows with
  | listed remains =>
    refine ⟨_, .listed (remains.beyond first), ?_⟩
    rw [View.pair, advance_ofList remains.ascending, remains.child]
    rfl
  | uniform rule nodes => exact ⟨nodes, .uniform rule nodes, rfl⟩
  | absent nodes => exact ⟨nodes, .absent nodes, rfl⟩

/-- The view of a child, if it is a directory. -/
def ofChild (upper : Counterpart) (child : String × Node) : Except Error (String × Option View) :=
  if isDir child.1 then do return (child.1, some { lower := child.2, upper := ← upper.child child.1 })
  else .ok (child.1, none)

/-- Every child gets the counterpart that is found by its name. -/
theorem Follows.pairAll {lower : List (String × Node)} (follows : Follows (lower.map (·.1)) upper nodes)
    (ascending : lower.Pairwise (·.1 < ·.1)) :
    View.pairAll upper (.ofList lower) nodes = lower.mapM (ofChild upper) := by
  induction lower generalizing nodes with
  | nil => rfl
  | cons child rest ih =>
    obtain ⟨name, node⟩ := child
    obtain ⟨first, ascending⟩ := List.pairwise_cons.mp ascending
    have dir : isDir name = true → View.pairAll upper (.ofList ((name, node) :: rest)) nodes = (do
        let paired ← View.pair name upper nodes
        let others ← View.pairAll upper (.ofList rest) paired.2
        pure ((name, some { lower := node, upper := paired.1 }) :: others)) := by
      intro isDir
      cases node <;> exact if_pos isDir
    have file : ¬ isDir name = true → View.pairAll upper (.ofList ((name, node) :: rest)) nodes = (do
        let others ← View.pairAll upper (.ofList rest) nodes
        pure ((name, none) :: others)) := by
      intro isFile
      cases node <;> exact if_neg isFile
    rw [List.mapM_cons, ofChild]
    by_cases isDir : isDir name = true
    · obtain ⟨next, left, paired⟩ := follows.pair fun later member => by
        obtain ⟨other, listed, rfl⟩ := List.mem_map.mp member
        exact first other listed
      rw [dir isDir, if_pos isDir, paired, ← ih left ascending]
      cases upper.child name <;> rfl
    · rw [file isDir, if_neg isDir, ih follows.tail ascending]
      rfl

/-- All children of a directory, each with the view that is found by its name. -/
structure Enumerates (view : View) (children : List (String × Node)) (items : List (String × Option View)) : Prop where
  names : items.map (·.1) = children.map (·.1)
  views : ∀ item ∈ items, view.child? item.1 = .ok item.2 ∧ item.2.isSome = isDir item.1
  nodes : ∀ name inner, (name, some inner) ∈ items →
    (name, inner.lower) ∈ children ∧ view.upper.child name = .ok inner.upper

theorem ofChild_ok {child : String × Node} {item : String × Option View} (ran : ofChild upper child = .ok item) :
    item.1 = child.1 ∧ item.2.isSome = isDir child.1 ∧
      ∀ inner, item.2 = some inner → inner.lower = child.2 ∧ upper.child child.1 = .ok inner.upper := by
  rw [ofChild] at ran
  split at ran
  · rename_i dir
    obtain ⟨found, known, made⟩ := exists_of_bind_eq_ok ran
    obtain rfl := Except.ok.inj made
    refine ⟨rfl, dir.symm, fun inner same => ?_⟩
    obtain rfl := Option.some.inj same
    exact ⟨rfl, known⟩
  · rename_i file
    obtain rfl := Except.ok.inj ran
    exact ⟨rfl, (Bool.eq_false_iff.mpr file).symm, fun inner same => absurd same (by simp)⟩

/-- A child is found by its name. -/
theorem child?_eq {view : View} {child : String × Node} {item : String × Option View}
    (found : view.lower.child? child.1 = .ok (some child.2)) (ran : ofChild view.upper child = .ok item) :
    view.child? child.1 = .ok item.2 := by
  rw [ofChild] at ran
  rw [child?]
  split at ran
  · rename_i dir
    obtain ⟨here, known, made⟩ := exists_of_bind_eq_ok ran
    obtain rfl := Except.ok.inj made
    rw [if_pos dir, found]
    change (view.upper.child child.1 >>= _) = _
    rw [known]
    rfl
  · rename_i file
    obtain rfl := Except.ok.inj ran
    rw [if_neg file]

/-- The entries of a view are its children, each with its counterpart. -/
theorem entries_eq {view : View} (uppers : view.upper.Lists) (lists : view.lower.Lists entries)
    (distinct : (entries.map (·.1)).Nodup) : view.entries = entries.mapM (ofChild view.upper) := by
  obtain ⟨lower, upper⟩ := view
  have ascending := lists.ascending distinct
  cases uppers with
  | node below apart =>
    have follows : Follows (entries.map (·.1)) _ _ := .listed (below.remains apart _)
    rw [← follows.pairAll ascending]
    change (_ >>= _) = _
    rw [below.children]
    change (lower.children >>= _) = _
    rw [lists.children]
    rfl
  | uniform rule =>
    rw [← (Follows.uniform rule .done).pairAll ascending]
    change (lower.children >>= _) = _
    rw [lists.children]
    rfl
  | absent =>
    rw [← (Follows.absent .done).pairAll ascending]
    change (lower.children >>= _) = _
    rw [lists.children]
    rfl

theorem entries_enumerates {view : View} (uppers : view.upper.Lists) (lists : view.lower.Lists entries)
    (distinct : (entries.map (·.1)).Nodup) (classified : ∀ name, ∃ found, view.upper.child name = .ok found) :
    ∃ items, view.entries = .ok items ∧ view.Enumerates entries items := by
  have ascending := lists.ascending distinct
  have each : ∀ child ∈ entries, ∃ item, ofChild view.upper child = .ok item ∧ True := by
    intro child _
    obtain ⟨found, known⟩ := classified child.1
    rw [ofChild]
    split
    · exact ⟨_, by rw [known]; rfl, trivial⟩
    · exact ⟨_, rfl, trivial⟩
  obtain ⟨items, ran, _⟩ := mapM_ok each
  have paired := forall₂_of_mapM_ok ran
  have back := (exists_of_forall₂ paired).2
  refine ⟨items, (entries_eq uppers lists distinct).trans ran, ?_, fun item member => ?_, fun name inner member => ?_⟩
  · refine (List.forall₂_eq_eq_eq ▸ List.forall₂_map_left_iff.mpr (List.forall₂_map_right_iff.mpr ?_) :)
    exact paired.flip.imp fun _ _ ran => (ofChild_ok ran).1
  · obtain ⟨child, listed, ran⟩ := back item member
    have looked := (lists.child? ascending child.1).trans
      (congrArg Except.ok ((lookup_eq_some distinct).mpr listed))
    rw [(ofChild_ok ran).1]
    exact ⟨child?_eq looked ran, (ofChild_ok ran).2.1⟩
  · obtain ⟨child, listed, ran⟩ := back _ member
    obtain ⟨same, _, views⟩ := ofChild_ok ran
    obtain ⟨lower, upper⟩ := views inner rfl
    rw [show name = child.1 from same, lower]
    exact ⟨listed, upper⟩

end View

/-- All payloads, at any depth, can be decoded. -/
def Outline.Decodable : Outline → Prop
  | done => True
  | entry _ data _ below rest => (∃ dir, TaggedDir.decode data = .ok dir) ∧ below.Decodable ∧ rest.Decodable

theorem Outline.Decodable.find? {outline : Outline} {part : Part} (decodable : outline.Decodable)
    (found : outline.find? name = some part) :
    (∃ dir, TaggedDir.decode part.data = .ok dir) ∧ part.below.Decodable :=
  find?_of_entries (Q := fun part => (∃ dir, TaggedDir.decode part.data = .ok dir) ∧ part.below.Decodable)
    (fun _ _ _ _ _ holds => ⟨⟨holds.1, holds.2.1⟩, holds.2.2⟩) decodable found

namespace Part

variable {part : Part}

theorem decodable_descend? (decodable : part.below.Decodable) {path : List String} {inner : Part}
    (found : part.descend? path = some inner) : inner.below.Decodable := by
  induction path generalizing part with
  | nil => exact Option.some.inj found ▸ decodable
  | cons name rest ih =>
    obtain ⟨child, here, later⟩ := Option.bind_eq_some_iff.mp found
    exact ih (decodable.find? here).2 later

theorem exists_ofNode (readable : ∃ dir, TaggedDir.decode part.data = .ok dir) :
    ∃ found, Counterpart.ofNode part.node = .ok found := by
  obtain ⟨dir, decoded⟩ := readable
  change ∃ found, (TaggedDir.decodeUniform? part.data >>= _) = _
  rw [TaggedDir.decodeUniform?_of_decode decoded]
  cases dir.uniform? with
  | none => exact ⟨_, rfl⟩
  | some rule => exact ⟨_, rfl⟩

/-- A part that can be decoded has a counterpart for every name, or none. -/
theorem exists_child (distinct : part.below.Distinct) (decodable : part.below.Decodable) (name : String) :
    ∃ found, (Counterpart.node part.node).child name = .ok found := by
  rw [Counterpart.child, child?_node distinct, lookup_children distinct]
  cases there : part.below.find? name with
  | none => exact ⟨_, rfl⟩
  | some inner => exact exists_ofNode (decodable.find? there).1

end Part

/-- A part of a tree, or what is said of a directory for which the tree has none. -/
def Counterpart.Within (tree : StoredTree) (counterpart : Counterpart) : Prop :=
  ∀ node, counterpart = .node node → ∃ path, tree.root.descend? path = .ok (some node)

namespace Script

variable {script : Script} {data : Bytes}

/-- Every node of a written tree lists its children. -/
theorem Complete.lists (complete : script.Complete data) {path : List String}
    (leads : (script.part data).node.descend? path = .ok (some node)) :
    ∃ part, (script.part data).descend? path = some part ∧ node = part.node ∧ part.below.Distinct := by
  rw [Part.descend?_node complete.distinct] at leads
  obtain ⟨part, found, rfl⟩ := Option.map_eq_some_iff.mp (Except.ok.inj leads)
  exact ⟨part, found, rfl, Part.distinct_descend? complete.distinct found⟩

/-- Reading in step finds what is found by name, in every tree that calls have written. A build that asks for
counterparts under ascending names gets for each of them the one that has this name. The entries of a directory are its
children in the order of their names, subdirectories with the views that have these names, files without. -/
theorem read_in_step (proper : script.Proper) (complete : script.Complete data) :
    ∃ tree, (script.run {}).tree data = .ok tree ∧
      (∀ path node, tree.root.descend? path = .ok (some node) →
        ∃ entries, node.Lists entries ∧ (entries.map (·.1)).Nodup) ∧
      ((script.part data).below.Decodable → ∀ upper : Counterpart, upper.Within tree →
        (∀ names : List String, names.Pairwise (· < ·) → ∃ found,
          upper.seekAll names = .ok found ∧ names.mapM (fun name => upper.child name) = .ok found) ∧
        ∀ lower entries, lower.Lists entries → (entries.map (·.1)).Nodup →
          ∃ items, View.entries { lower, upper } = .ok items ∧ View.Enumerates { lower, upper } entries items) := by
  obtain ⟨bytes, written⟩ := proper.tree complete
  refine ⟨_, written, fun path node leads => ?_, fun decodable upper within => ?_⟩
  · obtain ⟨part, _, rfl, distinct⟩ := complete.lists leads
    exact ⟨_, part.lists distinct⟩
  · have known : upper.Lists ∧ ∀ name, ∃ found, upper.child name = .ok found := by
      cases upper with
      | node node =>
        obtain ⟨path, leads⟩ := within node rfl
        obtain ⟨part, found, rfl, distinct⟩ := complete.lists leads
        have ⟨lists, apart⟩ := part.lists distinct
        exact ⟨.node lists apart, Part.exists_child distinct (Part.decodable_descend? decodable found)⟩
      | uniform rule => exact ⟨.uniform rule, fun name => ⟨_, rfl⟩⟩
      | absent => exact ⟨.absent, fun name => ⟨_, rfl⟩⟩
    refine ⟨fun names order => ?_, fun lower entries lists distinct => ?_⟩
    · have each : ∀ name ∈ names, ∃ found, upper.child name = .ok found ∧ True := fun name _ =>
        (known.2 name).imp fun _ found => ⟨found, trivial⟩
      obtain ⟨found, ran, _⟩ := mapM_ok each
      exact ⟨found, (known.1.seekAll order).trans ran, ran⟩
    · exact View.entries_enumerates known.1 lists distinct known.2

/-- Entries that the other side does not have, on both sides. -/
theorem read_in_step_extra_and_missing :
    let uniform := TaggedDir.encode { uid := 0, gid := 0, tagging := .uniform 5 }
    let shares := TaggedDir.encode { uid := 0, gid := 0, tagging := .shares [] }
    let script := leaf "a/" uniform (openDir (closeDir "c/" shares (leaf "d/" uniform done)))
    let child := Node.sound [] ⟨[], 0⟩ .done
    let entries := [("b/", child), ("c", child), ("d/", child)]
    let lower := Node.sound [] ⟨[], 0⟩ (.ofList entries)
    script.Proper ∧ script.Complete [] ∧ (script.part []).below.Decodable ∧ ∃ tree,
      (script.run {}).tree [] = .ok tree ∧ (Counterpart.node tree.root).Within tree ∧
      (Counterpart.node tree.root).seekAll ["b/", "d/", "e/"] = .ok [.absent, .uniform 5, .absent] ∧
      lower.Lists entries ∧ ∃ items, View.entries { lower, upper := .node tree.root } = .ok items ∧
        View.Enumerates { lower, upper := .node tree.root } entries items := by
  intro uniform shares script child entries lower
  have proper : script.Proper := trivial
  have complete : script.Complete [] := proper.complete (by decide +kernel) (by decide +kernel) (by decide +kernel)
  have five : TaggedDir.Fits { uid := 0, gid := 0, tagging := .uniform 5 } :=
    ⟨by decide, by decide, (by decide : 5 < 2 ^ 64)⟩
  have none : TaggedDir.Fits { uid := 0, gid := 0, tagging := .shares [] } :=
    ⟨by decide, by decide, by decide, fun share member => absurd member List.not_mem_nil⟩
  have decodable : (script.part []).below.Decodable :=
    ⟨⟨_, TaggedDir.decode_encode five⟩, trivial, ⟨_, TaggedDir.decode_encode none⟩, trivial,
      ⟨_, TaggedDir.decode_encode five⟩, trivial, trivial⟩
  obtain ⟨tree, written, _, within⟩ := read_in_step proper complete
  have top : (Counterpart.node tree.root).Within tree := fun node same => ⟨[], by rw [Counterpart.node.inj same]; rfl⟩
  have lists : lower.Lists entries := ⟨rfl, by decide +kernel⟩
  obtain ⟨sought, listed⟩ := within decodable _ top
  obtain ⟨found, together, apart⟩ := sought ["b/", "d/", "e/"] (by decide +kernel)
  have root : tree.root = (script.part []).node := by
    obtain ⟨bytes, also⟩ := proper.tree complete
    rw [Except.ok.inj (written.symm.trans also)]
  have values : found = [.absent, .uniform 5, .absent] := by
    rw [root] at apart
    have computed : ["b/", "d/", "e/"].mapM (fun name => (Counterpart.node (script.part []).node).child name) =
      .ok [.absent, .uniform 5, .absent] := by decide +kernel
    exact Except.ok.inj (apart.symm.trans computed)
  exact ⟨proper, complete, decodable, tree, written, top, values ▸ together, lists,
    listed lower entries lists (by decide +kernel)⟩

end Script

end BackupAtlas
