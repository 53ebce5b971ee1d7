import BackupAtlas.Proofs.Summaries

namespace BackupAtlas

open TreePath

namespace Inventory

/-- The file or subdirectory with the given name. -/
def item? (name : String) : Inventory → Option Content
  | done => none
  | file key stat rest => if name = key then some (.file stat) else rest.item? name
  | dir key uid gid below rest => if name = key then some (.dir uid gid below) else rest.item? name

/-- What names lead to. Nothing lies below a file. -/
def Content.find? : List String → Content → Option Content
  | [], content => some content
  | _ :: _, .file _ => none
  | name :: names, .dir _ _ below => (below.item? name).bind (find? names)

variable {inventory other : Inventory} {nodes : Nodes} {name : String} {content : Content}

theorem item?_eq_none (missing : name ∉ inventory.names) : inventory.item? name = none := by
  induction inventory with
  | done => rfl
  | file key stat rest ih | dir key uid gid below rest _ ih =>
    obtain ⟨differ, behind⟩ := not_or.mp (List.mem_cons.not.mp missing)
    rw [item?, if_neg differ]
    exact ih behind

/-- Items are kept under names of the inventory. -/
theorem mem_names_of_mem (member : (name, content) ∈ inventory.items) : name ∈ inventory.names := by
  induction inventory with
  | done => exact absurd member List.not_mem_nil
  | file key stat rest ih | dir key uid gid below rest _ ih =>
    rcases List.mem_cons.mp member with here | later
    · exact List.mem_cons.mpr (Or.inl (Prod.mk.inj here).1)
    · exact List.mem_cons_of_mem _ (ih later)

/-- Each name stands for one thing. -/
theorem Proper.mem_items (proper : inventory.Proper) :
    (name, content) ∈ inventory.items ↔ inventory.item? name = some content := by
  have step : ∀ {key : String} {first : Content} {rest : Inventory}, (∀ other ∈ rest.names, key < other) →
      ((name, content) ∈ rest.items ↔ rest.item? name = some content) →
      ((name, content) ∈ (key, first) :: rest.items ↔
        (if name = key then some first else rest.item? name) = some content) := by
    intro key first rest above ih
    rw [List.mem_cons, Prod.mk.injEq]
    split
    · rename_i same
      subst same
      have apart : (name, content) ∉ rest.items := fun member =>
        String.lt_irrefl _ (above name (mem_names_of_mem member))
      simp [apart, eq_comm]
    · rename_i differ
      simp [differ, ih]
  induction inventory with
  | done => simp [items, item?]
  | file key stat rest ih => exact step proper.2.1 (ih proper.2.2)
  | dir key uid gid below rest _ ih => exact step proper.2.1 (ih proper.2.2.2)

/-- A file has no name of a directory, and a subdirectory has one. -/
theorem Proper.item?_kind (proper : inventory.Proper) (found : inventory.item? name = some content) :
    (∃ stat, content = .file stat ∧ ¬ isDir name) ∨ ∃ uid gid below, content = .dir uid gid below ∧
      inventory.dir? name = some (uid, gid, below) ∧ isDir name ∧ below.Proper := by
  induction inventory with
  | done => exact absurd found (by simp [item?])
  | file key stat rest ih =>
    rw [item?] at found
    split at found
    · rename_i same
      refine Or.inl ⟨stat, (Option.some.inj found).symm, ?_⟩
      rw [same, proper.mem_file]
      exact Bool.false_ne_true
    · exact ih proper.2.2 found
  | dir key uid gid below rest _ ih =>
    rw [item?] at found
    rw [dir?]
    split at found
    · rename_i same
      exact Or.inr ⟨uid, gid, below, (Option.some.inj found).symm, if_pos same, same ▸ proper.1.isDir, proper.2.2.1⟩
    · rename_i differ
      rw [if_neg differ]
      exact ih proper.2.2.2 found

/-- A name is looked up in the nodes of a directory. -/
theorem Stored.find?_item (stored : inventory.Stored nodes) (proper : inventory.Proper) (name : String) :
    ∃ found, nodes.find? name = .ok found ∧
      Option.Rel (fun node (content : Content) => content.IsNode node) found (inventory.item? name) := by
  have step : ∀ {key : String} {first : Content} {node : Node} {rest : Inventory} {others : Nodes}, first.IsNode node →
      (∀ other ∈ rest.names, key < other) → (∃ found, others.find? name = .ok found ∧
        Option.Rel (fun node (content : Content) => content.IsNode node) found (rest.item? name)) →
      ∃ found, (if key < name then others.find? name else if key = name then .ok (some node) else .ok none) =
          Except.ok found ∧
        Option.Rel (fun node (content : Content) => content.IsNode node) found
          (if name = key then some first else rest.item? name) := by
    intro key first node rest others isNode above ih
    by_cases less : key < name
    · have differ : ¬ name = key := fun same => String.lt_irrefl _ (same ▸ less)
      rw [if_pos less, if_neg differ]
      exact ih
    · by_cases same : key = name
      · rw [if_neg less, if_pos same, if_pos same.symm]
        exact ⟨_, rfl, .some isNode⟩
      · have missing := not_mem_of_lt above (lt_of_not_lt_of_ne less same)
        rw [if_neg less, if_neg same, if_neg (Ne.symm same),
          item?_eq_none fun member => missing (List.mem_cons_of_mem _ member)]
        exact ⟨_, rfl, .none⟩
  induction stored with
  | done => exact ⟨_, rfl, .none⟩
  | file decoded behind ih => exact step ⟨_, _, _, rfl, decoded⟩ proper.2.1 (ih proper.2.2)
  | @dir key uid gid below rest data block inner others decoded owned inside behind _ ih =>
    have isNode : (Content.dir uid gid below).IsNode (.sound data block inner) := .sound decoded owned inside
    exact step isNode proper.2.1 (ih proper.2.2.2)

/-- Nodes hold one thing only: a name tells whether it is that of a file or of a directory. -/
theorem Stored.unique (stored : inventory.Stored nodes) (also : other.Stored nodes) (proper : inventory.Proper)
    (properOther : other.Proper) : inventory = other := by
  induction stored generalizing other with
  | done =>
    cases also
    rfl
  | @file key stat rest data block below others decoded behind ih =>
    cases also with
    | file decoded' behind' =>
      obtain rfl := Except.ok.inj (decoded.symm.trans decoded')
      rw [ih behind' proper.2.2 properOther.2.2]
    | dir => exact absurd properOther.1.isDir (by simp [proper.mem_file])
  | @dir key uid gid below rest data block inner others decoded owned inside behind ihInside ih =>
    cases also with
    | file => exact absurd proper.1.isDir (by simp [properOther.mem_file])
    | dir _ owned' inside' behind' =>
      cases Except.ok.inj (owned.symm.trans owned')
      rw [ihInside inside' proper.2.2.1 properOther.2.2.1, ih behind' proper.2.2.2 properOther.2.2.2]

/-- A node is the top of one inventory only. -/
theorem IsTop.unique {uid gid uid' gid' : Nat} {node : Node} (isTop : inventory.IsTop uid gid node)
    (also : other.IsTop uid' gid' node) (proper : inventory.Proper) (properOther : other.Proper) :
    uid = uid' ∧ gid = gid' ∧ inventory = other := by
  cases isTop with
  | sound _ owned stored =>
    cases also with
    | sound _ owned' stored' =>
      cases Except.ok.inj (owned.symm.trans owned')
      exact ⟨rfl, rfl, stored.unique stored' proper properOther⟩

end Inventory

namespace Overlay

variable {rule : List String → List Char → Nat} {names : List String} {uid gid : Nat} {inventory : Inventory}
variable {view : View}

/-- What is found for a file, or for a directory. -/
inductive Shown (rule : List String → List Char → Nat) : Item → Inventory.Content → Prop
  | file (stat : FileStat) : Shown rule (.file stat) (.file stat)
  | dir {names : List String} {uid gid : Nat} {inventory : Inventory} {view : View}
      (shows' : view.Shows rule names uid gid inventory) : Shown rule (.dir view) (.dir uid gid inventory)

/-- What segments lead to is found, and nothing else. -/
theorem find?_shown (shows' : view.Shows rule names uid gid inventory) (segments : List String) :
    ∃ found, find? view segments = .ok found ∧
      Option.Rel (Shown rule) found (Inventory.Content.find? segments (.dir uid gid inventory)) := by
  induction segments generalizing names uid gid inventory view with
  | nil => exact ⟨_, rfl, .some (.dir shows')⟩
  | cons segment rest ih =>
    obtain ⟨lower, upper⟩ := view
    obtain ⟨proper, isTop, right⟩ := shows'
    cases isTop with
    | sound decoded owned stored =>
      rw [Inventory.Content.find?]
      obtain ⟨known, sought, agrees⟩ := stored.find?_item proper segment
      generalize item : inventory.item? segment = content at agrees
      cases agrees with
      | none =>
        refine ⟨none, ?_, .none⟩
        simp only [find?, Node.child?, Node.children, sought, bind, Except.bind, pure, Except.pure]
      | @some node content isNode =>
        rw [Option.bind_some]
        rcases proper.item?_kind item with ⟨stat, rfl, plain⟩ | ⟨uid, gid, below, rfl, known, dirName, properBelow⟩
        · obtain ⟨data, block, inner, rfl, stated⟩ := isNode
          cases rest with
          | nil =>
            refine ⟨some (.file stat), ?_, .some (.file stat)⟩
            simp only [find?, Node.child?, Node.children, Node.data, sought, stated, if_neg plain, bind, Except.bind]
            rfl
          | cons next rest =>
            refine ⟨none, ?_, .none⟩
            simp only [find?, Node.child?, Node.children, sought, if_neg plain, bind, Except.bind]
            rfl
        · obtain ⟨inner, opened, innerRight⟩ := right.child proper known
          have showsBelow : View.Shows rule (names ++ [segment]) uid gid below ⟨node, inner⟩ :=
            ⟨properBelow, isNode, innerRight⟩
          obtain ⟨item, led, shown⟩ := ih showsBelow
          refine ⟨item, ?_, shown⟩
          simp only [find?, Node.child?, Node.children, sought, if_pos dirName, opened, bind, Except.bind, led]

end Overlay
end BackupAtlas
