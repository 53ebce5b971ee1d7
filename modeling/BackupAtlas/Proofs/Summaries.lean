import BackupAtlas.Proofs.Snapshots
import BackupAtlas.Proofs.Views

namespace BackupAtlas

open TreePath

namespace Inventory

/-- The files and subdirectories of a directory. -/
def items : Inventory → List (String × Content)
  | done => []
  | file name stat rest => (name, .file stat) :: rest.items
  | dir name uid gid below rest => (name, .dir uid gid below) :: rest.items

def subs : Inventory → List (String × Nat × Nat × Inventory)
  | done => []
  | file _ _ rest => rest.subs
  | dir name uid gid below rest => (name, uid, gid, below) :: rest.subs

def digest (rule : List String → List Char → Nat) (names : List String) (uid gid : Nat) (inventory : Inventory) :
    Digest :=
  { uid, gid, shares := Share.tabulate (inventory.charges rule names) }

def summary (rule : List String → List Char → Nat) (names : List String) (uid gid : Nat) (inventory : Inventory) :
    Summary where
  digest := inventory.digest rule names uid gid
  children := .ofList (inventory.subs.map fun sub =>
    (sub.1, sub.2.2.2.digest rule (names ++ [sub.1]) sub.2.1 sub.2.2.1))

end Inventory

namespace View

variable {rule : List String → List Char → Nat} {names : List String} {name : String} {inventory below rest : Inventory}
variable {uid gid : Nat} {stat : FileStat} {view : View}

theorem Shows.owner (shows' : view.Shows rule names uid gid inventory) : view.owner = .ok ⟨uid, gid⟩ := by
  obtain ⟨lower, upper⟩ := view
  obtain ⟨_, ⟨_, owned, _⟩, _⟩ := shows'
  simp only [View.owner, Node.data, bind, Except.bind, owned]

/-- A digest follows from the contents and the rules, not from how the tree was tagged. -/
theorem Shows.digest (shows' : view.Shows rule names uid gid inventory) :
    view.digest = .ok (inventory.digest rule names uid gid) := by
  simp only [View.digest, shows'.owner, shows'.shares, bind, Except.bind]
  rfl

/-- What is left of the entries of a counterpart is right about the contents that are still to come. -/
inductive InStep (rule : List String → List Char → Nat) (names : List String) (inventory : Inventory) :
    Counterpart → Nodes → Prop
  | uniform {r : Nat} {uppers : Nodes} (word : r < 2 ^ 64)
      (all : ∀ file ∈ inventory.files, rule (names ++ file.dirs) file.name.toList = r) :
      InStep rule names inventory (.uniform r) uppers
  | node {node : Node} {uppers : Nodes} (inside : inventory.Classified rule names uppers) :
      InStep rule names inventory (.node node) uppers

theorem InStep.of_file {upper : Counterpart} {uppers : Nodes}
    (inStep : InStep rule names (.file name stat rest) upper uppers) :
    InStep rule names rest upper uppers := by
  cases inStep with
  | uniform word all => exact .uniform word fun file member => all file (List.mem_cons_of_mem _ member)
  | node inside =>
    cases inside with
    | file behind => exact .node behind

/-- The counterpart of the next subdirectory is found at the front. -/
theorem InStep.of_dir {upper : Counterpart} {uppers : Nodes}
    (inStep : InStep rule names (.dir name uid gid below rest) upper uppers) :
    ∃ found others, pair name upper uppers = .ok (found, others) ∧ found.Right rule False (names ++ [name]) below ∧
      InStep rule names rest upper others := by
  cases inStep with
  | uniform word all =>
    obtain ⟨inside, behind⟩ := PriorChildren.uniform_dir all
    exact ⟨_, _, rfl, .uniform word inside, .uniform word behind⟩
  | node inside =>
    obtain ⟨data, block, inner, others, found, rfl, opened, right, behind⟩ := inside.ofNode False
    refine ⟨found, others, ?_, right, .node behind⟩
    simp only [pair, advance, if_neg (String.lt_irrefl name), if_pos, bind, Except.bind, Counterpart.ofNode?, opened]
    rfl

/-- What is read for a file, or for a subdirectory. -/
inductive Seen (rule : List String → List Char → Nat) (names : List String) : Option View → Inventory.Content → Prop
  | file {stat : FileStat} : Seen rule names none (.file stat)
  | dir {view : View} {uid gid : Nat} {below : Inventory} (shows' : view.Shows rule names uid gid below) :
      Seen rule names (some view) (.dir uid gid below)

/-- What is read for each file and subdirectory, in the order of the contents. -/
def Enlisted (rule : List String → List Char → Nat) (names : List String) (inventory : Inventory)
    (entries : List (String × Option View)) : Prop :=
  List.Forall₂ (fun (entry : String × Option View) (item : String × Inventory.Content) =>
    entry.1 = item.1 ∧ Seen rule (names ++ [item.1]) entry.2 item.2) entries inventory.items

def Listed (rule : List String → List Char → Nat) (names : List String) (inventory : Inventory)
    (entries : List (String × Option View)) :
    Prop :=
  List.Forall₂ (fun (sub : String × Nat × Nat × Inventory) (child : String × View) =>
    child.1 = sub.1 ∧ child.2.Shows rule (names ++ [sub.1]) sub.2.1 sub.2.2.1 sub.2.2.2)
    inventory.subs (entries.filterMap fun entry => entry.2.map (entry.1, ·))

theorem Enlisted.listed {entries : List (String × Option View)} (enlisted : Enlisted rule names inventory entries) :
    Listed rule names inventory entries := by
  induction inventory generalizing entries with
  | done =>
    cases enlisted
    exact .nil
  | file name stat rest ih =>
    obtain ⟨⟨key, found⟩, others, ⟨_, seen⟩, behind, rfl⟩ := List.forall₂_cons_right_iff.mp enlisted
    cases seen
    have listed := ih behind
    exact listed
  | dir name uid gid below rest _ ih =>
    obtain ⟨⟨key, found⟩, others, ⟨same, seen⟩, behind, rfl⟩ := List.forall₂_cons_right_iff.mp enlisted
    cases seen with
    | dir shows' => exact .cons ⟨same, shows'⟩ (ih behind)

/-- The children of a directory are read together with the entries of its counterpart. -/
theorem pairAll_enlisted {upper : Counterpart} {lower uppers : Nodes} (stored : inventory.Stored lower)
    (proper : inventory.Proper)
    (inStep : InStep rule names inventory upper uppers) : ∃ entries,
      pairAll upper lower uppers = .ok entries ∧ Enlisted rule names inventory entries := by
  induction stored generalizing uppers with
  | done => exact ⟨[], rfl, .nil⟩
  | @file name stat rest data block below others decoded behind ih =>
    obtain ⟨entries, paired, enlisted⟩ := ih proper.2.2 inStep.of_file
    refine ⟨(name, none) :: entries, ?_, .cons ⟨rfl, .file⟩ enlisted⟩
    simp only [pairAll, Inventory.Proper.mem_file proper, paired, bind, Except.bind]
    rfl
  | @dir name uid gid below rest data block inner others decoded owned inside behind _ ih =>
    obtain ⟨found, left, paired, right, inStepRest⟩ := inStep.of_dir
    obtain ⟨entries, more, enlisted⟩ := ih proper.2.2.2 inStepRest
    refine ⟨(name, some ⟨.sound data block inner, found⟩) :: entries, ?_, ?_⟩
    · simp only [pairAll, proper.1.isDir, if_pos, paired, more, bind, Except.bind]
      rfl
    · exact .cons ⟨rfl, .dir ⟨proper.2.2.1, .sound decoded owned inside, right⟩⟩ enlisted

theorem Shows.entries (shows' : view.Shows rule names uid gid inventory) : ∃ entries,
    view.entries = .ok entries ∧ Enlisted rule names inventory entries := by
  obtain ⟨lower, upper⟩ := view
  obtain ⟨proper, ⟨_, _, stored⟩, right⟩ := shows'
  cases right with
  | absent allowed => exact absurd allowed id
  | uniform word all => exact pairAll_enlisted stored proper (.uniform word all)
  | node fits tagging reads short inside => exact pairAll_enlisted stored proper (.node inside)

theorem mapM_digest {subs : List (String × Nat × Nat × Inventory)} {children : List (String × View)}
    (listed : List.Forall₂ (fun (sub : String × Nat × Nat × Inventory) (child : String × View) =>
      child.1 = sub.1 ∧ child.2.Shows rule (names ++ [sub.1]) sub.2.1 sub.2.2.1 sub.2.2.2) subs children) :
    children.mapM (fun (name, child) => do pure (name, ← child.digest)) =
      (.ok (subs.map fun sub => (sub.1, sub.2.2.2.digest rule (names ++ [sub.1]) sub.2.1 sub.2.2.1)) :
        Except Error (List (String × Digest))) := by
  induction listed with
  | nil => rfl
  | @cons sub child subs children here _ ih =>
    obtain ⟨name, view⟩ := child
    obtain ⟨rfl, shown⟩ := here
    rw [List.mapM_cons, ih]
    simp only [shown.digest, bind, Except.bind]
    rfl

/-- The figures that a view shows follow from the contents of its directory and the rules. -/
theorem Shows.summary (shows' : view.Shows rule names uid gid inventory) :
    view.summary = .ok (inventory.summary rule names uid gid) := by
  obtain ⟨entries, read, enlisted⟩ := shows'.entries
  have digests := mapM_digest enlisted.listed
  simp only [View.summary, View.children, shows'.digest, read, bind, Except.bind, pure, Except.pure] at digests ⊢
  rw [digests]
  rfl

/-- Views of one directory for one set of rules, with the same node of the snapshot. -/
def Alike (rule : List String → List Char → Nat) (names : List String) (view other : View) : Prop :=
  view.lower = other.lower ∧ ∃ uid gid inventory,
    view.Shows rule names uid gid inventory ∧ other.Shows rule names uid gid inventory

theorem Alike.digest {other : View} (alike : Alike rule names view other) : view.digest = other.digest := by
  obtain ⟨_, _, _, _, first, second⟩ := alike
  rw [first.digest, second.digest]

theorem Alike.summary {other : View} (alike : Alike rule names view other) : view.summary = other.summary := by
  obtain ⟨_, _, _, _, first, second⟩ := alike
  rw [first.summary, second.summary]

/-- The subdirectory of either view, if there is one. -/
theorem Alike.child? {other : View} (alike : Alike rule names view other) (dirName : isDir name) :
    view.lower.child? name = .ok none ∨ ∃ lower upper upper', view.lower.child? name = .ok (some lower) ∧
      view.upper.child name = .ok upper ∧ other.upper.child name = .ok upper' ∧
      Alike rule (names ++ [name]) ⟨lower, upper⟩ ⟨lower, upper'⟩ := by
  obtain ⟨_, uid, gid, inventory, first, second⟩ := alike
  obtain ⟨lower, upper⟩ := view
  obtain ⟨proper, isTop, right⟩ := first
  cases isTop with
  | sound decoded owned stored =>
    rcases stored.find?_dir proper dirName with ⟨uid', gid', below, node, found, sought, isTop⟩ | ⟨_, sought⟩
    · obtain ⟨inner, opened, right⟩ := right.child proper found
      obtain ⟨inner', opened', right'⟩ := second.upper.child proper found
      have properBelow := (proper.of_dir? found).2
      exact Or.inr ⟨node, inner, inner', sought, opened, opened', rfl, uid', gid', below, ⟨properBelow, isTop, right⟩,
        ⟨properBelow, isTop, right'⟩⟩
    · exact Or.inl sought

end View

namespace Overlay

variable {rule : List String → List Char → Nat} {names : List String} {view other : View}

/-- The same path leads to the same file in two views, or to directories that cannot be told apart. -/
inductive FoundAlike (rule : List String → List Char → Nat) : Except Error (Option Item) → Except Error (Option Item) →
    Prop
  | same (found : Except Error (Option Item)) : FoundAlike rule found found
  | dir {names : List String} {view other : View} (alike : View.Alike rule names view other) :
      FoundAlike rule (.ok (some (.dir view))) (.ok (some (.dir other)))

theorem find?_alike (segments : List String) (alike : View.Alike rule names view other) :
    FoundAlike rule (find? view segments) (find? other segments) := by
  induction segments generalizing names view other with
  | nil => exact .dir alike
  | cons segment rest ih =>
    by_cases dirName : isDir segment
    · have same := alike.1
      rcases alike.child? dirName with missing | ⟨lower, upper, upper', found, opened, opened', below⟩
      · have missing' := same ▸ missing
        simp only [find?, missing, missing', bind, Except.bind]
        exact .same _
      · have found' := same ▸ found
        simp only [find?, found, found', opened, opened', if_pos dirName, bind, Except.bind]
        exact ih below
    · obtain ⟨lower, upper⟩ := view
      obtain ⟨lower', upper'⟩ := other
      obtain rfl : lower = lower' := alike.1
      simp only [find?, if_neg dirName]
      exact .same _

end Overlay
end BackupAtlas
