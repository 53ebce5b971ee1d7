import BackupAtlas.Database
import BackupAtlas.MemoryStore
import BackupAtlas.Proofs.Records

namespace BackupAtlas

/-- What holds after a step, whether it succeeds or fails. -/
def Ends {ε σ α : Type} (good : α → σ → Prop) (bad : ε → σ → Prop) : EStateM.Result ε σ α → Prop
  | .ok a state => good a state
  | .error e state => bad e state

theorem discard_eq {ε σ α : Type} (step : EStateM ε σ α) (state : σ) : (discard step : EStateM ε σ PUnit) state =
    match step state with
    | .ok _ after => .ok ⟨⟩ after
    | .error e after => .error e after := by
  change EStateM.map (Function.const α PUnit.unit) step state = _
  rw [EStateM.map]
  cases step state <;> rfl

namespace Table

variable {α β : Type} {key : α → Int} {row : α → β} {table : Table β} {items : List α}

/-- A table has a row for each of the items, under the number of the item. -/
structure Lists (key : α → Int) (row : α → β) (table : Table β) (items : List α) : Prop where
  rows : table.rows = items.map fun item => (key item, row item)
  ascending : items.Pairwise (key · < key ·)
  bounded : ∀ item ∈ items, key item ≤ table.last

theorem lists_empty (key : α → Int) (row : α → β) : Lists key row {} [] := ⟨rfl, .nil, by simp⟩

theorem Lists.ascending_ids {table : Table β} {row : Rule → β} {rules : List Rule}
    (lists : Lists (fun rule => (rule.id : Int)) row table rules) : rules.Pairwise (·.id < ·.id) :=
  lists.ascending.imp Int.ofNat_lt.mp

theorem Lists.values (lists : Lists key row table items) : table.values = items.map row := by
  rw [Table.values, lists.rows, List.map_map]
  rfl

theorem Lists.get?_of_mem (lists : Lists key row table items) {item : α} (member : item ∈ items) :
    table.get? (key item) = some (row item) := by
  obtain ⟨rows, ascending, bounded⟩ := lists
  rw [get?, rows]
  clear rows bounded
  induction items with
  | nil => exact absurd member List.not_mem_nil
  | cons first items ih =>
    obtain ⟨above, rest⟩ := List.pairwise_cons.mp ascending
    rw [List.map_cons, List.lookup_cons]
    rcases List.mem_cons.mp member with rfl | later
    · rw [beq_self_eq_true]
    · have differs : key item ≠ key first := by
        have less := above item later
        omega
      rw [beq_eq_false_iff_ne.mpr differs]
      exact ih later rest

theorem Lists.get?_eq_none (lists : Lists key row table items) {id : Int} (absent : ∀ item ∈ items, key item ≠ id) :
    table.get? id = none := by
  rw [get?, lists.rows, List.lookup_eq_none_iff]
  intro entry member
  obtain ⟨item, listed, rfl⟩ := List.mem_map.mp member
  exact bne_iff_ne.mpr (absent item listed).symm

theorem Lists.contains_of_mem (lists : Lists key row table items) {item : α} (member : item ∈ items) :
    table.contains (key item) := by
  rw [contains, lists.get?_of_mem member]
  rfl

/-- A table counts on from a number that is above all others. -/
theorem put_above {id : Int} (above : table.last ≤ id) (entry : β) :
    { table.put id entry with last := id } = table.put id entry := by
  simp only [put, Int.max_eq_right above]

/-- The next number is new. -/
theorem Lists.next_ne (lists : Lists key row table items) : ∀ item ∈ items, key item ≠ table.next := by
  intro item member same
  have bound := lists.bounded item member
  rw [next] at same
  omega

theorem insertRow_map (row : α → β) (ascending : items.Pairwise (key · < key ·)) (item : α) :
    ∃ items' : List α, insertRow (key item) (row item) (items.map fun item => (key item, row item)) =
        items'.map (fun item => (key item, row item)) ∧ items'.Pairwise (key · < key ·) ∧
      ∀ other, other ∈ items' ↔ other = item ∨ other ∈ items ∧ key other ≠ key item := by
  induction items with
  | nil => exact ⟨[item], rfl, List.pairwise_singleton _ _, by simp⟩
  | cons first items ih =>
    obtain ⟨above, rest⟩ := List.pairwise_cons.mp ascending
    rw [List.map_cons, insertRow]
    split
    · rename_i before
      have differs : ∀ other ∈ first :: items, key item < key other := by
        intro other member
        rcases List.mem_cons.mp member with rfl | later
        · exact before
        · exact Int.lt_trans before (above other later)
      refine ⟨item :: first :: items, rfl, List.pairwise_cons.mpr ⟨differs, ascending⟩, fun other => ?_⟩
      rw [List.mem_cons]
      refine or_congr_right (and_iff_left_of_imp fun member => ?_).symm
      have less := differs other member
      omega
    · split
      · rename_i same
        refine ⟨item :: items, rfl, List.pairwise_cons.mpr ⟨fun other later => same ▸ above other later, rest⟩,
          fun other => ?_⟩
        rw [List.mem_cons, List.mem_cons]
        refine or_congr_right ⟨fun later => ⟨Or.inr later, ?_⟩, ?_⟩
        · have less := above other later
          omega
        · rintro ⟨rfl | later, differs⟩
          · exact absurd same.symm differs
          · exact later
      · rename_i notBefore differs
        obtain ⟨items', inserted, ascending', held⟩ := ih rest
        refine ⟨first :: items', by rw [inserted, List.map_cons], List.pairwise_cons.mpr ⟨fun other member => ?_,
          ascending'⟩, fun other => ?_⟩
        · rcases (held other).mp member with rfl | ⟨later, _⟩
          · omega
          · exact above other later
        · rw [List.mem_cons, held, List.mem_cons]
          constructor
          · rintro (rfl | rfl | ⟨later, apart⟩)
            · exact Or.inr ⟨Or.inl rfl, Ne.symm differs⟩
            · exact Or.inl rfl
            · exact Or.inr ⟨Or.inr later, apart⟩
          · rintro (rfl | ⟨rfl | later, apart⟩)
            · exact Or.inr (Or.inl rfl)
            · exact Or.inl rfl
            · exact Or.inr (Or.inr ⟨later, apart⟩)

theorem Lists.put (lists : Lists key row table items) (item : α) :
    ∃ items', Lists key row (table.put (key item) (row item)) items' ∧
      ∀ other, other ∈ items' ↔ other = item ∨ other ∈ items ∧ key other ≠ key item := by
  obtain ⟨items', inserted, ascending, held⟩ := insertRow_map row lists.ascending item
  refine ⟨items', ⟨by rw [Table.put, lists.rows, inserted], ascending, fun other member => ?_⟩, held⟩
  rw [Table.put]
  rcases (held other).mp member with rfl | ⟨old, _⟩
  · exact Int.le_max_right _ _
  · exact Int.le_trans (lists.bounded other old) (Int.le_max_left _ _)

theorem Lists.filter_rows (lists : Lists key row table items) {p : Int × β → Bool} {q : α → Bool}
    (same : ∀ item ∈ items, p (key item, row item) = q item) :
    Lists key row { table with rows := table.rows.filter p } (items.filter q) where
  rows := by
    rw [lists.rows, List.filter_map]
    exact congrArg _ (List.filter_congr same)
  ascending := lists.ascending.sublist List.filter_sublist
  bounded item member := lists.bounded item (List.mem_filter.mp member).1

theorem Lists.erase (lists : Lists key row table items) (id : Int) :
    Lists key row (table.erase id) (items.filter fun item => key item ≠ id) := lists.filter_rows fun _ _ => rfl

theorem Lists.filter (lists : Lists key row table items) {p : β → Bool} {q : α → Bool}
    (same : ∀ item ∈ items, p (row item) = q item) : Lists key row (table.filter p) (items.filter q) :=
  lists.filter_rows same

theorem Lists.skip (lists : Lists key row table items) : Lists key row table.skip items where
  rows := lists.rows
  ascending := lists.ascending
  bounded item member := by
    have bound := lists.bounded item member
    change key item ≤ table.last + 1
    omega

end Table

/-- A call adds a record, stamped and with an id of its own, to those that are held, or it fails and adds none. -/
def Creates {ε σ α ι : Type} (id : α → ι) (held : σ → List α → Prop) (items : List α) (stamped : α → α) :
    EStateM.Result ε σ α → Prop :=
  Ends (fun made next => made = stamped made ∧ (∀ item ∈ items, id item ≠ id made) ∧
      ∃ items', held next items' ∧ ∀ item, item ∈ items' ↔ item = made ∨ item ∈ items)
    fun _ next => held next items

/-- A store that holds records, and changes only those that a call is about. New records get ids of their own; what
is there can be changed or taken away; and a rule that was taken away can be put back. A store may run out of ids, so it
holds its records with room for a number of new rules at least. -/
class RuleStore.Lawful (σ : Type) [RuleStore σ] where
  Holds : Nat → σ → List Directory → List Rule → Prop
  spent : ∀ {count room store directories rules}, Holds (count + room) store directories rules →
    Holds room store directories rules
  ascending : ∀ {room store directories rules}, Holds room store directories rules →
    directories.Pairwise (·.id < ·.id) ∧ rules.Pairwise (·.id < ·.id)
  reads : ∀ {room store directories rules}, Holds room store directories rules →
    RuleStore.readDirectories store = .ok directories store ∧ RuleStore.readRules store = .ok rules store
  createDirectory : ∀ {room store directories rules}, Holds room store directories rules → ∀ now directory,
    Creates (·.id) (Holds room · · rules) directories
      (fun made => { directory with id := made.id, created := now, modified := now })
      (RuleStore.createDirectory now directory store)
  updateDirectory : ∀ {room store directories rules}, Holds room store directories rules → ∀ row ∈ directories,
    ∀ now claimedBy, ∃ next directories',
      RuleStore.updateDirectory now { row with claimedBy } store = .ok { row with claimedBy, modified := now } next ∧
      Holds room next directories' rules ∧
      ∀ d, d ∈ directories' ↔ d = { row with claimedBy, modified := now } ∨ d ∈ directories ∧ d.id ≠ row.id
  removeDirectory : ∀ {room store directories rules}, Holds room store directories rules → ∀ row ∈ directories, ∃ next,
    RuleStore.removeDirectory row.id store = .ok () next ∧
      Holds room next (directories.filter (·.id ≠ row.id)) (rules.filter (·.directoryId ≠ row.id))
  createRule : ∀ {room store directories rules}, Holds (1 + room) store directories rules → ∀ now rule,
    Creates (·.id) (Holds room · directories) rules
      (fun made => { rule with id := made.id, created := now, modified := now })
      (RuleStore.createRule now rule store)
  updateRule : ∀ {room store directories rules}, Holds room store directories rules → ∀ row ∈ rules, ∀ now rule,
    rule.id = row.id → rule.directoryId = row.directoryId → rule.created = row.created →
    (∀ r ∈ rules, r.directoryId = rule.directoryId → r.pattern = rule.pattern → r.id = rule.id) →
    ∃ next rules', RuleStore.updateRule now rule store = .ok { rule with modified := now } next ∧
      Holds room next directories rules' ∧
      ∀ r, r ∈ rules' ↔ r = { rule with modified := now } ∨ r ∈ rules ∧ r.id ≠ rule.id
  removeRule : ∀ {room store directories rules}, Holds room store directories rules → ∀ row ∈ rules, ∃ next,
    RuleStore.removeRule row.id store = .ok () next ∧ Holds room next directories (rules.filter (·.id ≠ row.id))
  restoreRule : ∀ {room store directories rules}, Holds room store directories rules → ∀ row ∈ rules,
    ∀ removed rule, RuleStore.removeRule row.id store = .ok () removed → rule.id = row.id →
    (∃ d ∈ directories, d.id = rule.directoryId) →
    (∀ r ∈ rules, r.directoryId = rule.directoryId → r.pattern = rule.pattern → r.id = rule.id) →
    ∃ next rules', RuleStore.restoreRule rule removed = .ok () next ∧ Holds room next directories rules' ∧
      ∀ r, r ∈ rules' ↔ r = rule ∨ r ∈ rules ∧ r.id ≠ rule.id

/-- Lists that ascend and have the same members are the same. -/
theorem eq_of_ascending {α : Type} {less : α → α → Prop} (asymm : ∀ {a b}, less a b → ¬ less b a) {items items' : List α}
    (ascending : items.Pairwise less) (ascending' : items'.Pairwise less)
    (same : ∀ item, item ∈ items' ↔ item ∈ items) : items' = items := by
  have distinct : ∀ {items : List α}, items.Pairwise less → items.Nodup := fun ascending =>
    List.Pairwise.imp (fun {a b} before equal => by
      subst equal
      exact asymm before before) ascending
  have perm := (List.perm_ext_iff_of_nodup (distinct ascending') (distinct ascending)).mpr same
  exact perm.eq_of_pairwise (fun _ _ _ _ before after => absurd after (asymm before)) ascending' ascending

namespace RuleStore.Lawful

variable {σ : Type} [RuleStore σ] [Lawful σ] {store next : σ} {directories directories' : List Directory}
variable {rules rules' : List Rule} {room room' : Nat}

theorem distinct (holds : Holds room store directories rules) :
    (directories.map (·.id)).Nodup ∧ (rules.map (·.id)).Nodup := by
  obtain ⟨first, second⟩ := ascending holds
  exact ⟨List.pairwise_map.mpr (first.imp fun less equal => by omega),
    List.pairwise_map.mpr (second.imp fun less equal => by omega)⟩

/-- A store that holds the same records as another one holds the same lists. -/
theorem holds_congr (holds : Holds room store directories rules) (holds' : Holds room' next directories' rules')
    (sameDirectories : ∀ d, d ∈ directories' ↔ d ∈ directories) (sameRules : ∀ r, r ∈ rules' ↔ r ∈ rules) :
    Holds room' next directories rules := by
  obtain ⟨first, second⟩ := ascending holds
  obtain ⟨first', second'⟩ := ascending holds'
  obtain rfl := eq_of_ascending (fun less more => by omega) first first' sameDirectories
  obtain rfl := eq_of_ascending (fun less more => by omega) second second' sameRules
  exact holds'

/-- A store in which one of the rows has another time holds the list with this row in its place. -/
theorem holds_redated (holds : Holds room store directories rules) (holds' : Holds room' next directories rules')
    {id : Nat} {time : Int} (same : ∀ r, r ∈ rules' ↔ r ∈ rules.map (Rule.redated id time)) :
    Holds room' next directories (rules.map (Rule.redated id time)) := by
  have ascends : (rules.map (Rule.redated id time)).Pairwise (·.id < ·.id) :=
    List.pairwise_map.mpr ((ascending holds).2.imp fun less => by rwa [Rule.redated_id, Rule.redated_id])
  exact eq_of_ascending (fun less more => by omega) ascends (ascending holds').2 same ▸ holds'

end RuleStore.Lawful

namespace MemoryStore

/-- Directories and rules are kept as they are, under their ids, and so many new ids are words. -/
structure Holds (room : Nat) (store : MemoryStore) (directories : List Directory) (rules : List Rule) : Prop where
  directories : store.directories.Lists (·.id) id directories
  rules : store.rules.Lists (fun rule => (rule.id : Int)) id rules
  last : 0 ≤ store.rules.last
  room : store.rules.last + room < Word.limit

variable {room count : Nat} {store : MemoryStore} {directories : List Directory} {rules : List Rule}

theorem holds_empty (space : room < Word.limit) : Holds room {} [] [] :=
  ⟨Table.lists_empty _ _, Table.lists_empty _ _, Int.le_refl 0, show (0 : Int) + room < Word.limit by omega⟩

theorem Holds.spent (holds : store.Holds (count + room) directories rules) : store.Holds room directories rules :=
  ⟨holds.directories, holds.rules, holds.last, by
    have space := holds.room
    omega⟩

theorem checkOwner_of_mem (holds : store.Holds room directories rules) {rule : Rule}
    (owner : ∃ d ∈ directories, d.id = rule.directoryId) : checkOwner rule store = .ok () store := by
  obtain ⟨d, member, owns⟩ := owner
  have known := holds.directories.contains_of_mem member
  rw [owns] at known
  simp only [checkOwner, bind_eq, get_eq, known]
  rfl

/-- A rule is put in place of the one with its id. -/
theorem Holds.putRule (holds : store.Holds room directories rules) {rule : Rule}
    (space : (rule.id : Int) + count < Word.limit) (less : count ≤ room) :
    ∃ rules', Holds count { store with rules := store.rules.put rule.id rule } directories rules' ∧
      ∀ r, r ∈ rules' ↔ r = rule ∨ r ∈ rules ∧ r.id ≠ rule.id := by
  obtain ⟨rules', lists, held⟩ := holds.rules.put rule
  have before := holds.room
  have last_eq : (store.rules.put rule.id rule).last = max store.rules.last rule.id := rfl
  refine ⟨rules', ⟨holds.directories, lists, Int.le_trans holds.last (Int.le_max_left _ _), ?_⟩, fun r => ?_⟩
  · rw [last_eq]
    omega
  · rw [held, ne_eq, ne_eq, Int.ofNat_inj]

theorem Holds.putDirectory (holds : store.Holds room directories rules) (directory : Directory) :
    ∃ directories',
      Holds room { store with directories := store.directories.put directory.id directory } directories' rules ∧
      ∀ d, d ∈ directories' ↔ d = directory ∨ d ∈ directories ∧ d.id ≠ directory.id := by
  obtain ⟨directories', lists, held⟩ := holds.directories.put directory
  exact ⟨directories', ⟨lists, holds.rules, holds.last, holds.room⟩, held⟩

theorem Holds.eraseRule (holds : store.Holds room directories rules) (id : Nat) :
    Holds room { store with rules := store.rules.erase id } directories (rules.filter (·.id ≠ id)) := by
  have lists := holds.rules.erase id
  simp only [ne_eq, Int.ofNat_inj] at lists
  exact ⟨holds.directories, lists, holds.last, holds.room⟩

theorem createDirectory_creates (holds : store.Holds room directories rules) (now : Int) (directory : Directory) :
    Creates (·.id) (Holds room · · rules) directories
      (fun made => { directory with id := made.id, created := now, modified := now })
      (createDirectory now directory store) := by
  have fresh := holds.directories.next_ne
  by_cases taken : store.directories.values.any (·.path = directory.path)
  · simp only [createDirectory, bind_eq, get_eq, taken, if_true, throw_eq]
    exact holds
  · let made : Directory := { directory with id := store.directories.next, created := now, modified := now }
    obtain ⟨directories', kept, held⟩ := holds.putDirectory made
    simp only [createDirectory, bind_eq, get_eq, taken]
    refine ⟨rfl, fresh, directories', kept, fun d => ?_⟩
    rw [held]
    exact or_congr_right (and_iff_left_of_imp (fresh d))

theorem Holds.id_lt (holds : store.Holds room directories rules) : ∀ r ∈ rules, r.id < Word.limit := by
  intro r member
  have bound := holds.rules.bounded r member
  have space := holds.room
  omega

/-- As long as ids are words, a new rule gets the next one. -/
theorem Holds.next_id (holds : store.Holds (1 + room) directories rules) :
    (Word.add store.rules.last.toNat 1 : Int) = store.rules.last + 1 := by
  have some := holds.last
  have space := holds.room
  rw [Word.add_of_lt (by omega)]
  omega

theorem createRule_creates (holds : store.Holds (1 + room) directories rules) (now : Int) (rule : Rule) :
    Creates (·.id) (Holds room · directories) rules
      (fun made => { rule with id := made.id, created := now, modified := now })
      (createRule now rule store) := by
  by_cases owned : store.directories.contains rule.directoryId
  · let made : Rule := { rule with id := Word.add store.rules.last.toNat 1, created := now, modified := now }
    have number : (made.id : Int) = store.rules.last + 1 := holds.next_id
    have space := holds.room
    have fresh : ∀ r ∈ rules, r.id ≠ made.id := fun r member same => by
      have bound := holds.rules.bounded r member
      omega
    obtain ⟨rules', kept, held⟩ := holds.putRule (show (made.id : Int) + room < Word.limit by omega) (by omega)
    have counted := Table.put_above (show store.rules.last ≤ made.id by omega) made
    simp only [createRule, checkOwner, bind_eq, get_eq, owned]
    refine ⟨rfl, fresh, rules', counted ▸ kept, fun r => ?_⟩
    rw [held]
    exact or_congr_right (and_iff_left_of_imp (fresh r))
  · simp only [createRule, checkOwner, bind_eq, get_eq, owned]
    exact holds.spent

instance : RuleStore.Lawful MemoryStore where
  Holds := Holds
  spent := Holds.spent
  ascending holds := ⟨holds.directories.ascending, Table.Lists.ascending_ids holds.rules⟩
  reads {room store directories rules} holds := by
    have first := holds.directories.values
    have second := holds.rules.values
    rw [List.map_id] at first second
    constructor
    · change EStateM.Result.ok store.directories.values store = _
      rw [first]
    · change EStateM.Result.ok store.rules.values store = _
      rw [second]
  createDirectory := createDirectory_creates
  updateDirectory {room store directories rules} holds row member now claimedBy := by
    obtain ⟨directories', kept, held⟩ := holds.putDirectory { row with claimedBy, modified := now }
    refine ⟨_, directories', ?_, kept, held⟩
    change MemoryStore.updateDirectory now { row with claimedBy } store = _
    have known := holds.directories.contains_of_mem member
    simp only [MemoryStore.updateDirectory, bind_eq, get_eq, known]
    rfl
  removeDirectory {room store directories rules} holds row _ := by
    have kept := holds.rules.filter (p := (·.directoryId ≠ row.id)) (q := (·.directoryId ≠ row.id)) fun _ _ => rfl
    exact ⟨_, rfl, holds.directories.erase row.id, kept, holds.last, holds.room⟩
  createRule := createRule_creates
  updateRule {room store directories rules} holds row member now rule sameId sameDirectory sameCreated free := by
    have bound := holds.rules.bounded row member
    have space := holds.room
    let made : Rule := { rule with modified := now }
    have number : (made.id : Int) ≤ store.rules.last := sameId ▸ bound
    obtain ⟨rules', kept, held⟩ := holds.putRule (show (made.id : Int) + room < Word.limit by omega) (Nat.le_refl _)
    refine ⟨_, rules', ?_, kept, held⟩
    change MemoryStore.updateRule now rule store = _
    have known := holds.rules.contains_of_mem member
    rw [← sameId] at known
    simp only [MemoryStore.updateRule, bind_eq, get_eq, known]
    rfl
  removeRule {room store directories rules} holds row _ := ⟨_, rfl, holds.eraseRule row.id⟩
  restoreRule {room store directories rules} holds row member removed rule ran sameId owner _ := by
    obtain ⟨_, rfl⟩ := EStateM.Result.ok.inj ran
    have left := holds.eraseRule row.id
    have bound := holds.rules.bounded row member
    have space := holds.room
    rw [← sameId] at bound
    obtain ⟨rules', kept, held⟩ := left.putRule (show (rule.id : Int) + room < Word.limit by omega) (Nat.le_refl _)
    refine ⟨_, rules', ?_, kept, fun r => ?_⟩
    · change MemoryStore.restoreRule rule _ = _
      rw [MemoryStore.restoreRule, bind_eq]
      simp only [checkOwner_of_mem left owner]
      rfl
    · rw [held, List.mem_filter, sameId]
      simp

end MemoryStore

namespace Database

/-- Rows have what can be written down of rules, and ids have 63 bits. -/
structure Holds (database : Database) (directories : List Directory) (rules : List Rule) : Prop where
  directories : database.directories.Lists (·.id) id directories
  rules : database.rules.Lists (fun rule => (rule.id : Int)) RuleRow.ofRule rules
  last : 0 ≤ database.rules.last
  small : database.rules.last ≤ maxId

theorem holds_empty (path : String) : Holds { path } [] [] :=
  ⟨Table.lists_empty _ _, Table.lists_empty _ _, Int.le_refl 0, show (0 : Int) ≤ maxId by decide⟩

variable {database : Database} {directories : List Directory} {rules : List Rule}

theorem parse_text (type : BackupType) : BackupType.parse type.text = .ok type := by
  have found : BackupType.ofText? type.text = some type := by cases type <;> decide +kernel
  rw [BackupType.parse, found]

/-- A rule can be read from its row. -/
theorem rule_ofRule (rule : Rule) : RuleRow.rule rule.id (.ofRule rule) = .ok rule := by
  have notNegative : ¬ (rule.id : Int) < 0 := by omega
  simp only [RuleRow.rule, RuleRow.ofRule, if_neg notNegative, parse_text, bind, Except.bind, pure, Except.pure]
  rfl

theorem mapM_rule (rules : List Rule) :
    (rules.map fun rule => ((rule.id : Int), RuleRow.ofRule rule)).mapM (fun (id, row) => row.rule id) =
      (.ok rules : Except Error (List Rule)) := by
  induction rules with
  | nil => rfl
  | cons rule rules ih =>
    rw [List.map_cons, List.mapM_cons, ih]
    simp only [rule_ofRule]
    rfl

theorem rowId_eq (holds : database.Holds directories rules) {row : Rule} (member : row ∈ rules) :
    rowId row.id = .ok row.id := by
  have bound := Int.le_trans (holds.rules.bounded row member) holds.small
  rw [rowId, if_neg (by omega)]

theorem Holds.id_lt (holds : database.Holds directories rules) : ∀ r ∈ rules, r.id < Word.limit := by
  intro r member
  have bound := Int.le_trans (holds.rules.bounded r member) holds.small
  rw [maxId] at bound
  rw [Word.limit]
  omega

theorem settled_ok {α : Type} (a : α) : settled (.ok a) database = .ok a database := rfl

theorem settled_error {α : Type} (e : Error) : settled (.error e : Except Error α) database = .error e database := rfl

theorem checkOwner_of_mem (holds : database.Holds directories rules) {rule : Rule}
    (owner : ∃ d ∈ directories, d.id = rule.directoryId) : checkOwner rule database = .ok () database := by
  obtain ⟨d, member, owns⟩ := owner
  have known := holds.directories.contains_of_mem member
  rw [owns] at known
  simp only [checkOwner, bind_eq, get_eq, known]
  rfl

theorem Holds.putRule (holds : database.Holds directories rules) (rule : Rule) (small : (rule.id : Int) ≤ maxId) :
    ∃ rules', Holds { database with rules := database.rules.put rule.id (.ofRule rule) } directories rules' ∧
      ∀ r, r ∈ rules' ↔ r = rule ∨ r ∈ rules ∧ r.id ≠ rule.id := by
  obtain ⟨rules', lists, held⟩ := holds.rules.put rule
  refine ⟨rules', ⟨holds.directories, lists, Int.le_trans holds.last (Int.le_max_left _ _),
    Int.max_le.mpr ⟨holds.small, small⟩⟩, fun r => ?_⟩
  rw [held, ne_eq, ne_eq, Int.ofNat_inj]

theorem Holds.putDirectory (holds : database.Holds directories rules) (directory : Directory) :
    ∃ directories',
      Holds { database with directories := database.directories.put directory.id directory } directories' rules ∧
      ∀ d, d ∈ directories' ↔ d = directory ∨ d ∈ directories ∧ d.id ≠ directory.id := by
  obtain ⟨directories', lists, held⟩ := holds.directories.put directory
  exact ⟨directories', ⟨lists, holds.rules, holds.last, holds.small⟩, held⟩

theorem Holds.eraseRule (holds : database.Holds directories rules) (id : Nat) :
    Holds { database with rules := database.rules.erase id } directories (rules.filter (·.id ≠ id)) := by
  have lists := holds.rules.erase id
  simp only [ne_eq, Int.ofNat_inj] at lists
  exact ⟨holds.directories, lists, holds.last, holds.small⟩

theorem removeRule_eq (holds : database.Holds directories rules) {row : Rule} (member : row ∈ rules) :
    removeRule row.id database = .ok () { database with rules := database.rules.erase row.id } := by
  rw [removeRule, bind_eq, rowId_eq holds member, settled_ok]
  rfl

theorem createDirectory_creates (holds : database.Holds directories rules) (now : Int) (directory : Directory) :
    Creates (·.id) (Holds · · rules) directories
      (fun made => { directory with id := made.id, created := now, modified := now })
      (createDirectory now directory database) := by
  have fresh := holds.directories.next_ne
  by_cases full : maxId ≤ database.directories.last
  · simp only [createDirectory, bind_eq, get_eq, newId, if_pos full, settled_error]
    exact holds
  by_cases taken : database.directories.values.any (·.path = directory.path)
  · simp only [createDirectory, bind_eq, get_eq, newId, if_neg full, settled_ok, taken, if_true, set_eq, throw_eq]
    exact ⟨holds.directories.skip, holds.rules, holds.last, holds.small⟩
  · let made : Directory := { directory with id := database.directories.next, created := now, modified := now }
    obtain ⟨directories', kept, held⟩ := holds.putDirectory made
    simp only [createDirectory, bind_eq, get_eq, newId, if_neg full, settled_ok, taken]
    refine ⟨rfl, fresh, directories', kept, fun d => ?_⟩
    rw [held]
    exact or_congr_right (and_iff_left_of_imp (fresh d))

theorem insertRule_none (database : Database) (row : RuleRow) : insertRule none row database =
    if maxId ≤ database.rules.last then .error (failure "database or disk is full") database
    else if database.rules.values.any row.clashes then
      .error (violation "rules.directory_id, rules.pattern") database
    else .ok database.rules.next { database with rules := database.rules.put database.rules.next row } := by
  by_cases full : maxId ≤ database.rules.last
  · simp only [insertRule, bind_eq, get_eq, newId, if_pos full, settled_error]
  by_cases taken : database.rules.values.any row.clashes
  · simp only [insertRule, bind_eq, get_eq, newId, if_neg full, settled_ok, if_pos taken, throw_eq]
  · simp only [insertRule, bind_eq, get_eq, newId, if_neg full, settled_ok, if_neg taken]
    rfl

theorem insertRule_some (database : Database) {id : Int} (absent : database.rules.get? id = none) {row : RuleRow}
    (free : database.rules.values.any row.clashes = false) : insertRule (some id) row database =
      .ok id { database with rules := database.rules.put id row } := by
  have missing : database.rules.contains id = false := by rw [Table.contains, absent]; rfl
  simp only [insertRule, bind_eq, get_eq, missing, free]
  rfl

theorem createRule_creates (holds : database.Holds directories rules) (now : Int) (rule : Rule) :
    Creates (·.id) (Holds · directories) rules
      (fun made => { rule with id := made.id, created := now, modified := now })
      (createRule now rule database) := by
  by_cases owned : database.directories.contains rule.directoryId
  · let timed : Rule := { rule with created := now, modified := now }
    have checked : checkOwner rule database = .ok () database := by
      simp only [checkOwner, bind_eq, get_eq, owned]
      rfl
    have inserted := insertRule_none database (.ofRule timed)
    simp only [createRule, bind_eq, checked]
    by_cases full : maxId ≤ database.rules.last
    · simp only [if_pos full] at inserted
      simp only [timed] at inserted
      simp only [inserted]
      exact holds
    by_cases taken : database.rules.values.any (RuleRow.ofRule timed).clashes
    · simp only [if_neg full, if_pos taken] at inserted
      simp only [timed] at inserted
      simp only [inserted]
      exact holds
    simp only [if_neg full, if_neg taken] at inserted
    simp only [timed] at inserted
    simp only [inserted]
    let made : Rule := { timed with id := database.rules.next.toNat }
    have next_eq : database.rules.next = database.rules.last + 1 := rfl
    have number : (made.id : Int) = database.rules.next := Int.toNat_of_nonneg (by
      have some := holds.last
      omega)
    have fresh : ∀ r ∈ rules, r.id ≠ made.id := fun r member same =>
      holds.rules.next_ne r member (by rw [same, number])
    obtain ⟨rules', kept, held⟩ := holds.putRule made (by omega)
    rw [number] at kept
    refine ⟨rfl, fresh, rules', kept, fun r => ?_⟩
    rw [held]
    exact or_congr_right (and_iff_left_of_imp (fresh r))
  · simp only [createRule, checkOwner, bind_eq, get_eq, owned]
    exact holds

/-- No other row clashes with that of a rule whose pattern is free in its directory. -/
theorem Holds.no_clash (holds : database.Holds directories rules) (rule : Rule)
    (free : ∀ r ∈ rules, r.directoryId = rule.directoryId → r.pattern = rule.pattern → r.id = rule.id) :
    (database.rules.erase rule.id).values.any (RuleRow.ofRule rule).clashes = false := by
  have others : (database.rules.erase rule.id).values = _ := (holds.eraseRule rule.id).rules.values
  rw [others, List.any_eq_false]
  intro other member
  obtain ⟨r, listed, rfl⟩ := List.mem_map.mp member
  obtain ⟨inRules, differs⟩ := List.mem_filter.mp listed
  rw [RuleRow.clashes, Bool.and_eq_true]
  rintro ⟨sameDirectory, samePattern⟩
  refine of_decide_eq_true differs (free r inRules ?_ ?_)
  · exact (of_decide_eq_true sameDirectory).symm
  · exact (of_decide_eq_true samePattern).symm

instance : RuleStore.Lawful Database where
  Holds _ := Holds
  spent holds := holds
  ascending holds := ⟨holds.directories.ascending, Table.Lists.ascending_ids holds.rules⟩
  reads {_ database directories rules} holds := by
    have first := holds.directories.values
    rw [List.map_id] at first
    constructor
    · change EStateM.Result.ok database.directories.values database = _
      rw [first]
    · change settled (database.rules.rows.mapM fun (id, row) => row.rule id) database = _
      rw [holds.rules.rows, mapM_rule, settled_ok]
  createDirectory := createDirectory_creates
  updateDirectory {_ database directories rules} holds row member now claimedBy := by
    obtain ⟨directories', kept, held⟩ := holds.putDirectory { row with claimedBy, modified := now }
    refine ⟨_, directories', ?_, kept, held⟩
    change Database.updateDirectory now { row with claimedBy } database = _
    have known := holds.directories.get?_of_mem member
    simp only [Database.updateDirectory, bind_eq, get_eq, known]
    rfl
  removeDirectory {_ database directories rules} holds row member := by
    have kept := holds.rules.filter (p := (·.directoryId ≠ row.id)) (q := (·.directoryId ≠ row.id)) fun _ _ => rfl
    refine ⟨_, rfl, ?_⟩
    simp only [holds.directories.contains_of_mem member]
    exact ⟨holds.directories.erase row.id, kept, holds.last, holds.small⟩
  createRule := createRule_creates
  updateRule {_ database directories rules} holds row member now rule sameId sameDirectory sameCreated free := by
    let stored : Rule := { rule with modified := now }
    have number : (rule.id : Int) ≤ maxId := by
      have bound := Int.le_trans (holds.rules.bounded row member) holds.small
      omega
    obtain ⟨rules', kept, held⟩ := holds.putRule stored number
    have changed : { RuleRow.ofRule rule with
        directoryId := (RuleRow.ofRule row).directoryId, created := (RuleRow.ofRule row).created, modified := now } =
          RuleRow.ofRule stored := by
      simp only [RuleRow.ofRule, stored, sameDirectory, sameCreated]
    have apart : (database.rules.erase rule.id).values.any (RuleRow.ofRule stored).clashes = false :=
      holds.no_clash stored free
    have known := holds.rules.get?_of_mem member
    refine ⟨_, rules', ?_, kept, held⟩
    change Database.updateRule now rule database = _
    have counted := rowId_eq holds member
    rw [← sameId] at counted known
    simp only [Database.updateRule, bind_eq, get_eq, counted, settled_ok, known, changed, apart]
    rfl
  removeRule {_ database directories rules} holds row member :=
    ⟨_, removeRule_eq holds member, holds.eraseRule row.id⟩
  restoreRule {_ database directories rules} holds row member removed rule ran sameId owner free := by
    obtain ⟨_, rfl⟩ := EStateM.Result.ok.inj ((removeRule_eq holds member).symm.trans ran)
    have left := holds.eraseRule row.id
    have number : (rule.id : Int) ≤ maxId := by
      have bound := Int.le_trans (holds.rules.bounded row member) holds.small
      omega
    obtain ⟨rules', kept, held⟩ := left.putRule rule number
    have apart := holds.no_clash rule free
    rw [sameId] at apart
    have absent : (database.rules.erase row.id).get? rule.id = none := left.rules.get?_eq_none fun r inOthers => by
      have differs := (List.mem_filter.mp inOthers).2
      simp only [ne_eq, decide_eq_true_eq] at differs
      omega
    refine ⟨_, rules', ?_, kept, fun r => ?_⟩
    · change Database.restoreRule rule _ = _
      have counted := rowId_eq holds member
      rw [← sameId] at counted
      have inserted := insertRule_some { database with rules := database.rules.erase row.id } absent apart
      simp only [Database.restoreRule, bind_eq, checkOwner_of_mem left owner, counted, settled_ok, discard_eq, inserted]
    · rw [held, List.mem_filter, sameId]
      simp

end Database
end BackupAtlas
