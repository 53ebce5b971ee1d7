import BackupAtlas.Proofs.Stores

namespace BackupAtlas

namespace Table

variable {α : Type} {table : Table α} {row : α}

/-- A row in place of an old one leaves the greatest number as it is. -/
theorem last_put {id : Int} (known : id ≤ table.last) : (table.put id row).last = table.last := Int.max_eq_left known

theorem last_put_next (table : Table α) (row : α) : (table.put table.next row).last = table.last + 1 :=
  Int.max_eq_right (by rw [next]; omega)

/-- Whether a path has been claimed. -/
theorem Lists.any_path {key : Directory → Int} {table : Table Directory} {directories : List Directory}
    (lists : Lists key id table directories) (path : String) :
    table.values.any (·.path = path) = decide (∃ d ∈ directories, d.path = path) := by
  rw [lists.values, List.map_id, List.any_eq]
  simp only [decide_eq_true_eq]

end Table

/-- A new directory as a store keeps it. -/
def Directory.stamped (id now : Int) (directory : Directory) : Directory :=
  { directory with id, created := now, modified := now }

/-- A new rule as a store keeps it. -/
def Rule.stamped (id : Nat) (now : Int) (rule : Rule) : Rule := { rule with id, created := now, modified := now }

/-- The greatest ids so far of directories and of rules. -/
structure Lasts where
  directory : Int
  rule : Int

/-- A call gives out no ids, whether it succeeds or fails. -/
def Unmoved {σ α : Type} (lasts : σ → Lasts) (store : σ) (result : EStateM.Result Error σ α) : Prop :=
  Ends (fun _ next => lasts next = lasts store) (fun _ next => lasts next = lasts store) result

theorem Unmoved.discarded {σ α : Type} {lasts : σ → Lasts} {call : StoreCall σ α} {store : σ}
    (unmoved : Unmoved lasts store (call store)) : Unmoved lasts store ((discard call : StoreCall σ Unit) store) := by
  rw [discard_eq]
  cases ran : call store <;> rw [ran] at unmoved <;> exact unmoved

/-- A store that numbers new records one after another, as long as ids have 63 bits. -/
class RuleStore.Counted (σ : Type) [RuleStore σ] [RuleStore.Lawful σ] where
  lasts : σ → Lasts
  bounded : ∀ {room} {store : σ} {directories rules}, Lawful.Holds room store directories rules →
    ∀ d ∈ directories, d.id ≤ (lasts store).directory
  createDirectory : ∀ {room} {store : σ} {directories rules}, Lawful.Holds room store directories rules →
    (lasts store).directory < Database.maxId → ∀ now directory, (∀ d ∈ directories, d.path ≠ directory.path) →
    ∃ next, RuleStore.createDirectory now directory store =
        .ok (directory.stamped ((lasts store).directory + 1) now) next ∧
      lasts next = ⟨(lasts store).directory + 1, (lasts store).rule⟩
  createRule : ∀ {room} {store : σ} {directories rules}, Lawful.Holds room store directories rules →
    (lasts store).rule < Database.maxId → ∀ now rule, (∃ d ∈ directories, d.id = rule.directoryId) →
    (∀ r ∈ rules, ¬ (r.directoryId = rule.directoryId ∧ r.pattern = rule.pattern)) →
    ∃ next, RuleStore.createRule now rule store =
        .ok (rule.stamped ((lasts store).rule + 1).toNat now) next ∧
      lasts next = ⟨(lasts store).directory, (lasts store).rule + 1⟩
  updateDirectory : ∀ {room} {store : σ} {directories rules}, Lawful.Holds room store directories rules →
    ∀ row ∈ directories, ∀ now directory, directory.id = row.id →
    Unmoved lasts store (RuleStore.updateDirectory now directory store)
  removeDirectory : ∀ id (store : σ), Unmoved lasts store (RuleStore.removeDirectory id store)
  updateRule : ∀ {room} {store : σ} {directories rules}, Lawful.Holds room store directories rules → ∀ row ∈ rules,
    ∀ now rule, rule.id = row.id → Unmoved lasts store (RuleStore.updateRule now rule store)
  removeRule : ∀ id (store : σ), Unmoved lasts store (RuleStore.removeRule id store)
  restoreRule : ∀ {room} {store : σ} {directories rules}, Lawful.Holds room store directories rules → ∀ row ∈ rules,
    ∀ removed rule, RuleStore.removeRule row.id store = .ok () removed → rule.id = row.id →
    Unmoved lasts removed (RuleStore.restoreRule rule removed)

namespace MemoryStore

variable {room : Nat} {store : MemoryStore} {directories : List Directory} {rules : List Rule}

def lasts (store : MemoryStore) : Lasts := ⟨store.directories.last, store.rules.last⟩

theorem lasts_putDirectory {id : Int} (known : id ≤ store.directories.last) (row : Directory) :
    lasts { store with directories := store.directories.put id row } = store.lasts := by
  rw [lasts, Table.last_put known, lasts]

theorem lasts_putRule {id : Int} (known : id ≤ store.rules.last) (row : Rule) :
    lasts { store with rules := store.rules.put id row } = store.lasts := by rw [lasts, Table.last_put known, lasts]

/-- A directory that is claimed already changes nothing. -/
theorem createDirectory_taken (holds : store.Holds room directories rules) (now : Int) (directory : Directory)
    (taken : ∃ d ∈ directories, d.path = directory.path) :
    createDirectory now directory store = .error (.alreadyClaimed directory.path) store := by
  have known := (holds.directories.any_path directory.path).trans (decide_eq_true taken)
  simp only [createDirectory, bind_eq, get_eq, known, if_true, throw_eq]

/-- A new directory gets the next id, and only that counter moves. -/
theorem createDirectory_free (holds : store.Holds room directories rules) (now : Int) (directory : Directory)
    (free : ∀ d ∈ directories, d.path ≠ directory.path) :
    ∃ next, createDirectory now directory store =
        .ok (directory.stamped (store.lasts.directory + 1) now) next ∧
      next.lasts = ⟨store.lasts.directory + 1, store.lasts.rule⟩ := by
  have nobody : ¬ ∃ d ∈ directories, d.path = directory.path := by
    rintro ⟨d, member, same⟩
    exact free d member same
  have unknown := (holds.directories.any_path directory.path).trans (decide_eq_false nobody)
  simp only [createDirectory, bind_eq, get_eq, unknown]
  exact ⟨_, rfl, congrArg (Lasts.mk · store.rules.last) (Table.last_put_next _ _)⟩

/-- A new rule gets the next id, and only that counter moves. -/
theorem createRule_free (holds : store.Holds room directories rules) (space : store.lasts.rule < Database.maxId)
    (now : Int) {rule : Rule} (owner : ∃ d ∈ directories, d.id = rule.directoryId) :
    ∃ next, createRule now rule store =
        .ok (rule.stamped (store.lasts.rule + 1).toNat now) next ∧
      next.lasts = ⟨store.lasts.directory, store.lasts.rule + 1⟩ := by
  have some := holds.last
  have short : store.rules.last < 2 ^ 63 - 1 := space
  have number : Word.add store.rules.last.toNat 1 = (store.rules.last + 1).toNat := by
    rw [Word.add_of_lt (by rw [Word.limit]; omega)]
    omega
  have counted : ((store.rules.last + 1).toNat : Int) = store.rules.last + 1 := by omega
  simp only [createRule, bind_eq, checkOwner_of_mem holds owner, get_eq, number]
  exact ⟨_, rfl, congrArg (Lasts.mk store.directories.last) counted⟩

instance : RuleStore.Counted MemoryStore where
  lasts := lasts
  bounded holds := holds.directories.bounded
  createDirectory holds _ := createDirectory_free holds
  createRule holds space now _ owner _ := createRule_free holds space now owner
  updateDirectory {_ store directories rules} holds row member now directory same := by
    have known : directory.id ≤ store.directories.last := same ▸ holds.directories.bounded row member
    change Unmoved lasts store (MemoryStore.updateDirectory now directory store)
    simp only [MemoryStore.updateDirectory, bind_eq, get_eq]
    cases store.directories.contains directory.id with
    | true => exact lasts_putDirectory known _
    | false => exact rfl
  removeDirectory id store := rfl
  updateRule {_ store directories rules} holds row member now rule same := by
    have known : (rule.id : Int) ≤ store.rules.last := same ▸ holds.rules.bounded row member
    change Unmoved lasts store (MemoryStore.updateRule now rule store)
    simp only [MemoryStore.updateRule, bind_eq, get_eq]
    cases store.rules.contains rule.id with
    | true => exact lasts_putRule known _
    | false => exact rfl
  removeRule id store := rfl
  restoreRule {_ store directories rules} holds row member removed rule ran same := by
    obtain ⟨_, rfl⟩ := EStateM.Result.ok.inj ran
    have known : (rule.id : Int) ≤ (store.rules.erase row.id).last := same ▸ holds.rules.bounded row member
    change Unmoved lasts _ (MemoryStore.restoreRule rule _)
    simp only [MemoryStore.restoreRule, checkOwner, bind_eq, get_eq]
    cases store.directories.contains rule.directoryId with
    | true =>
      have kept : lasts { store with rules := (store.rules.erase row.id).put rule.id rule } = _ :=
        congrArg (Lasts.mk store.directories.last) (Table.last_put known)
      exact kept
    | false => exact rfl

end MemoryStore

namespace Database

variable {database : Database} {directories : List Directory} {rules : List Rule}

def lasts (database : Database) : Lasts := ⟨database.directories.last, database.rules.last⟩

theorem lasts_putDirectory {id : Int} (known : id ≤ database.directories.last) (row : Directory) :
    lasts { database with directories := database.directories.put id row } = database.lasts := by
  rw [lasts, Table.last_put known, lasts]

theorem lasts_putRule {id : Int} (known : id ≤ database.rules.last) (row : RuleRow) :
    lasts { database with rules := database.rules.put id row } = database.lasts := by
  rw [lasts, Table.last_put known, lasts]

/-- A directory that is claimed already costs an id. -/
theorem createDirectory_taken (holds : database.Holds directories rules) (room : database.lasts.directory < maxId)
    (now : Int) (directory : Directory) (taken : ∃ d ∈ directories, d.path = directory.path) :
    ∃ next, createDirectory now directory database = .error (.alreadyClaimed directory.path) next ∧
      next.lasts = ⟨database.lasts.directory + 1, database.lasts.rule⟩ := by
  have known := (holds.directories.any_path directory.path).trans (decide_eq_true taken)
  have notFull : ¬ maxId ≤ database.directories.last := Int.not_le.mpr room
  simp only [createDirectory, bind_eq, get_eq, newId, if_neg notFull, settled_ok, known, if_true, set_eq, throw_eq]
  exact ⟨_, rfl, rfl⟩

theorem createDirectory_free (holds : database.Holds directories rules) (room : database.lasts.directory < maxId)
    (now : Int) (directory : Directory) (free : ∀ d ∈ directories, d.path ≠ directory.path) :
    ∃ next, createDirectory now directory database =
        .ok (directory.stamped (database.lasts.directory + 1) now) next ∧
      next.lasts = ⟨database.lasts.directory + 1, database.lasts.rule⟩ := by
  have nobody : ¬ ∃ d ∈ directories, d.path = directory.path := by
    rintro ⟨d, member, same⟩
    exact free d member same
  have unknown := (holds.directories.any_path directory.path).trans (decide_eq_false nobody)
  have notFull : ¬ maxId ≤ database.directories.last := Int.not_le.mpr room
  simp only [createDirectory, bind_eq, get_eq, newId, if_neg notFull, settled_ok, unknown]
  exact ⟨_, rfl, congrArg (Lasts.mk · database.rules.last) (Table.last_put_next _ _)⟩

theorem createRule_free (holds : database.Holds directories rules) (room : database.lasts.rule < maxId) (now : Int)
    {rule : Rule} (owner : ∃ d ∈ directories, d.id = rule.directoryId)
    (free : ∀ r ∈ rules, ¬ (r.directoryId = rule.directoryId ∧ r.pattern = rule.pattern)) :
    ∃ next, createRule now rule database =
        .ok (rule.stamped (database.lasts.rule + 1).toNat now) next ∧
      next.lasts = ⟨database.lasts.directory, database.lasts.rule + 1⟩ := by
  let timed : Rule := { rule with created := now, modified := now }
  have apart : database.rules.values.any (RuleRow.ofRule timed).clashes = false := by
    rw [holds.rules.values, List.any_eq_false]
    intro row member clash
    obtain ⟨r, listed, rfl⟩ := List.mem_map.mp member
    rw [RuleRow.clashes, Bool.and_eq_true] at clash
    exact free r listed ⟨(of_decide_eq_true clash.1).symm, (of_decide_eq_true clash.2).symm⟩
  have notFull : ¬ maxId ≤ database.rules.last := Int.not_le.mpr room
  have inserted := insertRule_none database (.ofRule timed)
  rw [if_neg notFull, apart] at inserted
  simp only [timed, Bool.false_eq_true, if_false] at inserted
  simp only [createRule, bind_eq, checkOwner_of_mem holds owner, inserted]
  exact ⟨_, rfl, congrArg (Lasts.mk database.directories.last) (Table.last_put_next _ _)⟩

/-- A row with a known id moves no counter. -/
theorem insertRule_unmoved (database : Database) {id : Int} (known : id ≤ database.rules.last) (row : RuleRow) :
    Unmoved lasts database (insertRule (some id) row database) := by
  simp only [insertRule, bind_eq, get_eq]
  cases database.rules.contains id with
  | true => exact rfl
  | false =>
    simp only [Bool.false_eq_true, if_false, settled_ok]
    split
    · exact rfl
    · exact lasts_putRule known row

instance : RuleStore.Counted Database where
  lasts := lasts
  bounded holds := holds.directories.bounded
  createDirectory := createDirectory_free
  createRule holds room now _ := createRule_free holds room now
  updateDirectory {_ database directories rules} holds row member now directory same := by
    have known : directory.id ≤ database.directories.last := same ▸ holds.directories.bounded row member
    change Unmoved lasts database (Database.updateDirectory now directory database)
    simp only [Database.updateDirectory, bind_eq, get_eq]
    cases database.directories.get? directory.id with
    | none => exact rfl
    | some _ => exact lasts_putDirectory known _
  removeDirectory id database := by
    change lasts (if database.directories.contains id then _ else database) = lasts database
    split <;> rfl
  updateRule {_ database directories rules} holds row member now rule same := by
    have known : (rule.id : Int) ≤ database.rules.last := same ▸ holds.rules.bounded row member
    change Unmoved lasts database (Database.updateRule now rule database)
    simp only [Database.updateRule, bind_eq, same, rowId_eq holds member, settled_ok, get_eq]
    cases database.rules.get? row.id with
    | none => exact rfl
    | some old =>
      dsimp only
      split
      · exact rfl
      · exact lasts_putRule (same ▸ known) _
  removeRule id database := by
    change Unmoved lasts database (Database.removeRule id database)
    rw [Database.removeRule, bind_eq]
    cases rowId id with
    | ok id => exact rfl
    | error e => exact rfl
  restoreRule {_ database directories rules} holds row member removed rule ran same := by
    obtain ⟨_, rfl⟩ := EStateM.Result.ok.inj ((removeRule_eq holds member).symm.trans ran)
    have known : (row.id : Int) ≤ (database.rules.erase row.id).last := holds.rules.bounded row member
    change Unmoved lasts _ (Database.restoreRule rule _)
    simp only [Database.restoreRule, checkOwner, bind_eq, get_eq, same, rowId_eq holds member]
    cases database.directories.contains rule.directoryId with
    | false => exact rfl
    | true =>
      simp only [Bool.not_true, Bool.false_eq_true, if_false, pure_eq, settled_ok]
      exact (insertRule_unmoved { database with rules := database.rules.erase row.id } known _).discarded

end Database
end BackupAtlas
