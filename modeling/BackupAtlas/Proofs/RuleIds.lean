import BackupAtlas.Proofs.NotingStores

namespace BackupAtlas

namespace IdNote

/-- So many ids are left above those that were noted, as ids are words. -/
structure Leave (count : Nat) (notes : List IdNote) : Prop where
  few : count < Word.limit
  above : ∀ note ∈ notes, note.id + count < Word.limit

/-- Each id that was assigned as long as some were left comes right after the greatest one noted before. -/
def Rising (notes : List IdNote) : Prop := ∀ later id earlier, notes = later ++ .assigned id :: earlier →
  Leave 1 earlier → 1 ≤ id ∧ (∀ note ∈ earlier, note.id < id) ∧ (id = 1 ∨ ∃ note ∈ earlier, id = note.id + 1)

/-- Whoever leaves a store its ids now has left them before. -/
theorem Leave.tail {count : Nat} {extra notes : List IdNote} (leave : Leave count (extra ++ notes)) : Leave count notes :=
  ⟨leave.few, fun note member => leave.above note (List.mem_append_right _ member)⟩

theorem Leave.less {count most : Nat} {notes : List IdNote} (leave : Leave most notes) (le : count ≤ most) :
    Leave count notes :=
  ⟨Nat.lt_of_le_of_lt le leave.few, fun note member => Nat.lt_of_le_of_lt (Nat.add_le_add_left le _) (leave.above note member)⟩

namespace Rising

variable {notes : List IdNote}

theorem nil : Rising [] := fun later id earlier same => by simp at same

theorem restored (rising : Rising notes) (id : Nat) : Rising (.restored id :: notes) := by
  intro later assigned earlier same
  cases later with
  | nil => exact absurd (List.cons.inj same).1 (by simp)
  | cons first later => exact rising later assigned earlier (List.cons.inj same).2

/-- An assigned id rises when it follows the greatest one, if there was one left to follow it. -/
theorem assigned (rising : Rising notes) {id : Nat} (above : Leave 1 notes →
    1 ≤ id ∧ (∀ note ∈ notes, note.id < id) ∧ (id = 1 ∨ ∃ note ∈ notes, id = note.id + 1)) :
    Rising (.assigned id :: notes) := by
  intro later other earlier same
  cases later with
  | nil =>
    obtain ⟨here, rfl⟩ := List.cons.inj same
    cases here
    exact above
  | cons first later => exact rising later other earlier (List.cons.inj same).2

/-- When no id is left, nothing is said of what is noted from then on. -/
theorem exhausted (rising : Rising notes) (none : ¬ Leave 1 notes) (extra : List IdNote) : Rising (extra ++ notes) := by
  induction extra with
  | nil => exact rising
  | cons note extra ih =>
    cases note with
    | assigned id => exact ih.assigned fun some => absurd some.tail none
    | restored id => exact ih.restored id

end Rising
end IdNote

theorem Table.mem_rows_put {α : Type} {table : Table α} {id : Int} {row : α} {entry : Int × α}
    (member : entry ∈ (table.put id row).rows) : entry = (id, row) ∨ entry ∈ table.rows := by
  obtain ⟨rows, last⟩ := table
  change entry ∈ insertRow id row rows at member
  change _ ∨ entry ∈ rows
  induction rows with
  | nil => exact Or.inl (List.mem_singleton.mp member)
  | cons first rows ih =>
    unfold insertRow at member
    split at member
    · exact List.mem_cons.mp member
    · split at member
      · exact (List.mem_cons.mp member).imp_right (List.mem_cons_of_mem _)
      · rcases List.mem_cons.mp member with rfl | later
        · exact Or.inr List.mem_cons_self
        · exact (ih later).imp_right (List.mem_cons_of_mem _)

/-- What is known of ids at some time: those of the rules that are there, the greatest so far, and what was noted. -/
structure IdMark where
  live : List Nat
  last : Int
  notes : List IdNote

/-- The rules in a table have ids that were noted, and the table remembers the greatest of these. Since some time nothing
has been struck out, and no id up to the greatest one of that time has come back. -/
structure Numbered (since : IdMark) (table : Table Rule) (notes : List IdNote) : Prop where
  rising : IdNote.Rising notes
  known : ∀ note ∈ notes, (note.id : Int) ≤ table.last
  reached : table.last = 0 ∨ ∃ note ∈ notes, (note.id : Int) = table.last
  noted : ∀ entry ∈ table.rows, ∃ note ∈ notes, note.id = entry.2.id
  fits : ∀ entry ∈ table.rows, entry.2.id ∈ since.live ∨ since.last < entry.2.id
  last_le : since.last ≤ table.last
  grown : since.notes <:+ notes

namespace Numbered

variable {since : IdMark} {table : Table Rule} {notes : List IdNote} {rule : Rule}

theorem empty : Numbered ⟨[], -1, []⟩ {} [] :=
  ⟨.nil, by simp, Or.inl rfl, by simp, by simp, show (-1 : Int) ≤ 0 by decide, List.suffix_refl _⟩

theorem last_nonneg (numbered : Numbered since table notes) : 0 ≤ table.last := by
  rcases numbered.reached with zero | ⟨note, _, same⟩ <;> omega

/-- Ids that are left above those that were noted are left above the greatest one in the table. -/
theorem room (numbered : Numbered since table notes) {count : Nat} (leave : IdNote.Leave count notes) :
    table.last + count < Word.limit := by
  rcases numbered.reached with zero | ⟨note, member, same⟩
  · have space := leave.few
    omega
  · have bound := leave.above note member
    omega

theorem filter_rows (numbered : Numbered since table notes) (p : Int × Rule → Bool) :
    Numbered since { table with rows := table.rows.filter p } notes where
  rising := numbered.rising
  known := numbered.known
  reached := numbered.reached
  noted entry member := numbered.noted entry (List.mem_filter.mp member).1
  fits entry member := numbered.fits entry (List.mem_filter.mp member).1
  last_le := numbered.last_le
  grown := numbered.grown

/-- Rules can be numbered since another time. -/
theorem from_mark (numbered : Numbered since table notes) {mark : IdMark}
    (fits : ∀ entry ∈ table.rows, entry.2.id ∈ mark.live ∨ mark.last < entry.2.id) (last : mark.last ≤ table.last)
    (grown : mark.notes <:+ notes) : Numbered mark table notes where
  rising := numbered.rising
  known := numbered.known
  reached := numbered.reached
  noted := numbered.noted
  fits := fits
  last_le := last
  grown := grown

/-- A row that is put into the table has an id that is noted from then on. -/
theorem noted_put (numbered : Numbered since table notes) {key : Int} {note : IdNote} (same : note.id = rule.id) :
    ∀ entry ∈ (table.put key rule).rows, ∃ other ∈ note :: notes, other.id = entry.2.id := by
  intro entry member
  rcases Table.mem_rows_put member with rfl | old
  · exact ⟨note, List.mem_cons_self, same⟩
  · obtain ⟨other, listed, equal⟩ := numbered.noted entry old
    exact ⟨other, List.mem_cons_of_mem _ listed, equal⟩

theorem fits_put (numbered : Numbered since table notes) {key : Int}
    (fits : rule.id ∈ since.live ∨ since.last < rule.id) :
    ∀ entry ∈ (table.put key rule).rows, entry.2.id ∈ since.live ∨ since.last < entry.2.id := by
  intro entry member
  rcases Table.mem_rows_put member with rfl | old
  · exact fits
  · exact numbered.fits entry old

/-- A rule that is created has the id after the last one. -/
theorem create (numbered : Numbered since table notes) (id_eq : (rule.id : Int) = table.last + 1) :
    Numbered since (table.put rule.id rule) (.assigned rule.id :: notes) := by
  have nonneg := numbered.last_nonneg
  have last_eq : (table.put rule.id rule).last = table.last + 1 := id_eq ▸ Int.max_eq_right (by omega)
  have above := numbered.last_le
  refine ⟨numbered.rising.assigned fun _ => ⟨by omega, fun note member => ?_, ?_⟩, fun note member => ?_,
    Or.inr ⟨_, List.mem_cons_self, id_eq.trans last_eq.symm⟩, numbered.noted_put rfl, numbered.fits_put ?_, by omega,
    numbered.grown.trans (List.suffix_cons _ _)⟩
  · have bound := numbered.known note member
    omega
  · rcases numbered.reached with zero | ⟨note, member, same⟩
    · exact Or.inl (by omega)
    · exact Or.inr ⟨note, member, by omega⟩
  · rw [last_eq]
    rcases List.mem_cons.mp member with rfl | earlier
    · exact id_eq.le
    · have bound := numbered.known note earlier
      omega
  · exact Or.inr (show since.last < (rule.id : Int) by omega)

theorem replace (numbered : Numbered since table notes) {entry : Int × Rule} (member : entry ∈ table.rows)
    (same : entry.2.id = rule.id) : Numbered since (table.put rule.id rule) notes := by
  obtain ⟨note, listed, noteId⟩ := numbered.noted entry member
  have last_eq : (table.put rule.id rule).last = table.last := Table.last_put (by
    have bound := numbered.known note listed
    omega)
  have row : ∀ other ∈ (table.put rule.id rule).rows, ∃ old ∈ table.rows, old.2.id = other.2.id := by
    intro other inTable
    rcases Table.mem_rows_put inTable with rfl | old
    · exact ⟨entry, member, same⟩
    · exact ⟨other, old, rfl⟩
  refine ⟨numbered.rising, last_eq ▸ numbered.known, last_eq ▸ numbered.reached, fun other inTable => ?_,
    fun other inTable => ?_, last_eq ▸ numbered.last_le, numbered.grown⟩
  · obtain ⟨old, before, equal⟩ := row other inTable
    exact equal ▸ numbered.noted old before
  · obtain ⟨old, before, equal⟩ := row other inTable
    exact equal ▸ numbered.fits old before

/-- A rule may be put back under an id of its own: one that was live, or one not given out so far. -/
theorem restore (numbered : Numbered since table notes) (fits : rule.id ∈ since.live ∨ since.last < rule.id) :
    Numbered since (table.put rule.id rule) (.restored rule.id :: notes) := by
  have last_eq : (table.put rule.id rule).last = max table.last rule.id := rfl
  have above := numbered.last_le
  refine ⟨numbered.rising.restored rule.id, fun note member => ?_, ?_, numbered.noted_put rfl, numbered.fits_put fits,
    by omega, numbered.grown.trans (List.suffix_cons _ _)⟩
  · rcases List.mem_cons.mp member with rfl | earlier
    · exact Int.le_max_right _ _
    · have bound := numbered.known note earlier
      omega
  · rcases Int.le_total rule.id table.last with old | new
    · rw [last_eq, Int.max_eq_left old]
      exact numbered.reached.imp_right fun ⟨note, listed, same⟩ => ⟨note, List.mem_cons_of_mem _ listed, same⟩
    · rw [last_eq, Int.max_eq_right new]
      exact Or.inr ⟨_, List.mem_cons_self, rfl⟩

end Numbered

namespace MemoryStore

variable {room : Nat} {store : MemoryStore} {directories : List Directory} {rules : List Rule}

theorem Holds.mem_rows (holds : store.Holds room directories rules) {rule : Rule} (member : rule ∈ rules) :
    ((rule.id : Int), rule) ∈ store.rules.rows := by
  rw [holds.rules.rows]
  exact List.mem_map.mpr ⟨rule, member, rfl⟩

theorem Holds.exists_rule (holds : store.Holds room directories rules) {id : Nat} (known : store.rules.contains id) :
    ∃ rule ∈ rules, rule.id = id := by
  by_contra unknown
  have missing : store.rules.get? id = none :=
    holds.rules.get?_eq_none fun rule member same => unknown ⟨rule, member, Int.ofNat_inj.mp same⟩
  rw [Table.contains, missing] at known
  cases known

theorem createDirectory_rules (now : Int) (directory : Directory) :
    Ends (fun _ next => next.rules = store.rules) (fun _ next => next = store)
      (createDirectory now directory store) := by
  simp only [createDirectory, bind_eq, get_eq]
  cases store.directories.values.any (·.path = directory.path) <;> rfl

theorem updateDirectory_rules (now : Int) (directory : Directory) :
    Ends (fun made next => made.id = directory.id ∧
        next = { store with directories := store.directories.put directory.id made })
      (fun _ next => next = store) (updateDirectory now directory store) := by
  simp only [updateDirectory, bind_eq, get_eq]
  cases store.directories.contains directory.id
  · exact rfl
  · exact ⟨rfl, rfl⟩

/-- The only call that counts, and it counts in words. -/
theorem createRule_rules (now : Int) (rule : Rule) :
    Ends (fun made next => made.id = Word.add store.rules.last.toNat 1 ∧
        next.rules = { store.rules.put made.id made with last := made.id })
      (fun _ next => next = store) (createRule now rule store) := by
  simp only [createRule, checkOwner, bind_eq, get_eq]
  cases store.directories.contains rule.directoryId
  · exact rfl
  · exact ⟨rfl, rfl⟩

theorem updateRule_rules (now : Int) (rule : Rule) :
    Ends (fun made next => store.rules.contains rule.id ∧ made.id = rule.id ∧
        next = { store with rules := store.rules.put rule.id made })
      (fun _ next => next = store) (updateRule now rule store) := by
  simp only [updateRule, bind_eq, get_eq]
  cases known : store.rules.contains rule.id
  · exact rfl
  · exact ⟨rfl, rfl, rfl⟩

theorem restoreRule_rules (rule : Rule) :
    Ends (fun _ next => next = { store with rules := store.rules.put rule.id rule }) (fun _ next => next = store)
      (restoreRule rule store) := by
  simp only [restoreRule, checkOwner, bind_eq, get_eq]
  cases store.directories.contains rule.directoryId <;> rfl

end MemoryStore

namespace NotingStore

variable {σ α : Type} {note : α → List IdNote} {act : StoreCall σ α} {noting : NotingStore σ}

theorem call_ok {a : α} {next : σ} (ran : act noting.store = .ok a next) :
    call note act noting = .ok a ⟨next, note a ++ noting.notes⟩ := by
  rw [call]
  simp only [ran]

theorem call_ends {good : α → σ → Prop} {bad : Error → σ → Prop} (ends : Ends good bad (act noting.store)) :
    Ends (fun a next => good a next.store ∧ next.notes = note a ++ noting.notes)
      (fun e next => bad e next.store ∧ next.notes = noting.notes) (call note act noting) := by
  rw [call]
  cases ran : act noting.store with
  | ok a next =>
    rw [ran] at ends
    exact ⟨ends, rfl⟩
  | error e next =>
    rw [ran] at ends
    exact ⟨ends, rfl⟩

open MemoryStore

/-- A store in memory that notes ids is lawful, and its rules stay numbered. -/
abbrev numbered (since : IdMark) : RuleStore.Lawful (NotingStore MemoryStore) where
  Holds room noting directories rules :=
    noting.store.Holds room directories rules ∧ Numbered since noting.store.rules noting.notes
  spent holds := ⟨holds.1.spent, holds.2⟩
  ascending holds := RuleStore.Lawful.ascending (σ := MemoryStore) holds.1
  reads holds := by
    obtain ⟨first, second⟩ := RuleStore.Lawful.reads (σ := MemoryStore) holds.1
    exact ⟨call_ok first, call_ok second⟩
  createDirectory {_ noting directories rules} holds now directory := by
    have created := Ends.and (createDirectory_creates holds.1 now directory) (createDirectory_rules now directory)
    refine (call_ends created).imp ?_ ?_
    · rintro made next ⟨⟨⟨same, fresh, directories', kept, rows⟩, sameRules⟩, notes⟩
      refine ⟨same, fresh, directories', ⟨kept, ?_⟩, rows⟩
      rw [sameRules, notes]
      exact holds.2
    · rintro e next ⟨⟨kept, same⟩, notes⟩
      refine ⟨kept, ?_⟩
      rw [same, notes]
      exact holds.2
  updateDirectory {_ noting directories rules} holds row member now claimedBy := by
    obtain ⟨next, directories', ran, kept, rows⟩ :=
      RuleStore.Lawful.updateDirectory (σ := MemoryStore) holds.1 row member now claimedBy
    obtain ⟨_, rfl⟩ := (updateDirectory_rules now { row with claimedBy }).of_ok ran
    exact ⟨_, directories', call_ok ran, ⟨kept, holds.2⟩, rows⟩
  removeDirectory {_ noting directories rules} holds row member := by
    obtain ⟨next, ran, kept⟩ := RuleStore.Lawful.removeDirectory (σ := MemoryStore) holds.1 row member
    obtain ⟨_, rfl⟩ := EStateM.Result.ok.inj ran
    exact ⟨_, call_ok ran, kept, holds.2.filter_rows _⟩
  createRule {_ noting directories rules} holds now rule := by
    have created := Ends.and (createRule_creates holds.1 now rule) (createRule_rules now rule)
    refine (call_ends created).imp ?_ ?_
    · rintro made next ⟨⟨⟨same, fresh, rules', kept, rows⟩, number, table⟩, notes⟩
      refine ⟨same, fresh, rules', ⟨kept, ?_⟩, rows⟩
      have id_eq : (made.id : Int) = noting.store.rules.last + 1 := number ▸ holds.1.next_id
      rw [table, notes, Table.put_above (by omega)]
      exact holds.2.create id_eq
    · rintro e next ⟨⟨kept, same⟩, notes⟩
      refine ⟨kept, ?_⟩
      rw [same, notes]
      exact holds.2
  updateRule {_ noting directories rules} holds row member now rule sameId sameDirectory sameCreated free := by
    obtain ⟨next, rules', ran, kept, rows⟩ :=
      RuleStore.Lawful.updateRule (σ := MemoryStore) holds.1 row member now rule sameId sameDirectory sameCreated free
    obtain ⟨_, _, rfl⟩ := (updateRule_rules now rule).of_ok ran
    let made : Rule := { rule with modified := now }
    have replaced : Numbered since (noting.store.rules.put made.id made) noting.notes :=
      holds.2.replace (holds.1.mem_rows member) sameId.symm
    exact ⟨_, rules', call_ok ran, ⟨kept, replaced⟩, rows⟩
  removeRule {_ noting directories rules} holds row member := by
    obtain ⟨next, ran, kept⟩ := RuleStore.Lawful.removeRule (σ := MemoryStore) holds.1 row member
    obtain ⟨_, rfl⟩ := EStateM.Result.ok.inj ran
    exact ⟨_, call_ok ran, kept, holds.2.filter_rows _⟩
  restoreRule {_ noting directories rules} holds row member removed rule ran sameId owner free := by
    obtain ⟨_, rfl⟩ := EStateM.Result.ok.inj ran
    obtain ⟨next, rules', restored, kept, rows⟩ :=
      RuleStore.Lawful.restoreRule (σ := MemoryStore) holds.1 row member _ rule
        (show RuleStore.removeRule row.id noting.store = .ok () _ from rfl) sameId owner free
    have same : next = _ := (restoreRule_rules rule).of_ok restored
    subst same
    have fits := holds.2.fits _ (holds.1.mem_rows member)
    rw [← sameId] at fits
    exact ⟨_, rules', call_ok restored, ⟨kept, (holds.2.filter_rows _).restore fits⟩, rows⟩

end NotingStore

/-- A store in memory that noted all ids of its rules from the beginning, and numbers them as long as ids are left. -/
structure NotingStore.Kept (noting : NotingStore MemoryStore) : Prop where
  rising : IdNote.Rising noting.notes
  numbered : IdNote.Leave 1 noting.notes → ∃ directories rules,
    noting.store.Holds 0 directories rules ∧ Numbered ⟨[], -1, []⟩ noting.store.rules noting.notes

namespace NotingStore.Kept

variable {noting next : NotingStore MemoryStore} {directories : List Directory} {rules : List Rule}

theorem of_numbered (holds : noting.store.Holds 0 directories rules)
    (numbered : Numbered ⟨[], -1, []⟩ noting.store.rules noting.notes) : noting.Kept :=
  ⟨numbered.rising, fun _ => ⟨directories, rules, holds, numbered⟩⟩

theorem empty : Kept { store := {} } := .of_numbered (MemoryStore.holds_empty (by decide)) .empty

/-- When no id is left, it does not matter what is done. -/
theorem exhausted (kept : noting.Kept) (none : ¬ IdNote.Leave 1 noting.notes) {extra : List IdNote}
    (notes : next.notes = extra ++ noting.notes) : next.Kept where
  rising := notes ▸ kept.rising.exhausted none extra
  numbered some := by
    rw [notes] at some
    exact absurd some.tail none

/-- A call that fails without changing the store keeps the notes complete if it keeps them so when it succeeds. -/
theorem call {α : Type} {note : α → List IdNote} {act : StoreCall MemoryStore α} {good : α → MemoryStore → Prop}
    (kept : noting.Kept) (ends : Ends good (fun _ next => next = noting.store) (act noting.store))
    (goes : ∀ a next, good a next → Kept ⟨next, note a ++ noting.notes⟩) :
    Ends (fun _ => Kept) (fun _ => Kept) (NotingStore.call note act noting) := by
  refine (NotingStore.call_ends ends).imp (fun a next ⟨fine, notes⟩ => ?_) fun e next ⟨same, notes⟩ => ?_
  · obtain ⟨store, noted⟩ := next
    obtain rfl := notes
    exact goes a store fine
  · obtain ⟨store, noted⟩ := next
    obtain rfl := notes
    obtain rfl := same
    exact kept

/-- Once the ids may be used up, whatever a call does leaves nothing to be shown. -/
theorem call_exhausted {α : Type} {note : α → List IdNote} {act : StoreCall MemoryStore α} (kept : noting.Kept)
    (none : ¬ IdNote.Leave 1 noting.notes) : Ends (fun _ => Kept) (fun _ => Kept) (NotingStore.call note act noting) := by
  have ends : Ends (fun _ _ => True) (fun _ _ => True) (act noting.store) := by cases act noting.store <;> trivial
  refine (NotingStore.call_ends ends).imp (fun a next here => ?_) fun e next here => ?_
  · exact kept.exhausted none here.2
  · exact kept.exhausted none (here.2.trans (List.nil_append _).symm)

theorem perform_exhausted (kept : noting.Kept) (none : ¬ IdNote.Leave 1 noting.notes) (request : StoreRequest) :
    Ends (fun _ => Kept) (fun _ => Kept) (request.perform noting) := by
  cases request with
  | createDirectory now directory => exact Ends.discard (kept.call_exhausted none)
  | updateDirectory now directory => exact Ends.discard (kept.call_exhausted none)
  | removeDirectory id =>
    have ends : Ends (fun _ => Kept) (fun _ => Kept)
        (NotingStore.call (fun _ => []) (RuleStore.removeDirectory id) noting) := kept.call_exhausted none
    exact ends
  | createRule now rule => exact Ends.discard (kept.call_exhausted none)
  | updateRule now rule => exact Ends.discard (kept.call_exhausted none)
  | removeRule id =>
    have ends : Ends (fun _ => Kept) (fun _ => Kept)
        (NotingStore.call (fun _ => []) (RuleStore.removeRule id) noting) := kept.call_exhausted none
    exact ends
  | restoreRule rule => exact kept.call_exhausted none

/-- One step: each request leaves a store that has kept its count with the count kept. -/
theorem perform (kept : noting.Kept) (request : StoreRequest) :
    Ends (fun _ => Kept) (fun _ => Kept) (request.perform noting) := by
  by_cases leave : IdNote.Leave 1 noting.notes
  case neg => exact kept.perform_exhausted leave request
  obtain ⟨directories, rules, holds, numbered⟩ := kept.numbered leave
  have space := numbered.room leave
  cases request with
  | createDirectory now directory =>
    refine Ends.discard (((NotingStore.numbered _).createDirectory ⟨holds, numbered⟩ now directory).imp ?_ ?_)
    · rintro made next ⟨_, _, directories', ⟨held, counted⟩, _⟩
      exact .of_numbered held counted
    · rintro e next ⟨held, counted⟩
      exact .of_numbered held counted
  | updateDirectory now directory =>
    refine Ends.discard (kept.call (MemoryStore.updateDirectory_rules now directory) ?_)
    rintro made next ⟨same, rfl⟩
    obtain ⟨directories', held, _⟩ := holds.putDirectory made
    exact .of_numbered (same ▸ held) numbered
  | removeDirectory id =>
    have rows := holds.rules.filter (p := (·.directoryId ≠ id)) (q := (·.directoryId ≠ id)) fun _ _ => rfl
    exact .of_numbered ⟨holds.directories.erase id, rows, holds.last, holds.room⟩ (numbered.filter_rows _)
  | createRule now rule =>
    have roomy : noting.store.Holds (1 + 0) directories rules := ⟨holds.directories, holds.rules, holds.last, space⟩
    refine Ends.discard (((NotingStore.numbered _).createRule ⟨roomy, numbered⟩ now rule).imp ?_ ?_)
    · rintro made next ⟨_, _, rules', ⟨held, counted⟩, _⟩
      exact .of_numbered held counted
    · rintro e next ⟨held, counted⟩
      exact .of_numbered held counted
  | updateRule now rule =>
    refine Ends.discard (kept.call (MemoryStore.updateRule_rules now rule) ?_)
    rintro made next ⟨known, same, rfl⟩
    obtain ⟨old, member, equal⟩ := holds.exists_rule known
    have bound := holds.rules.bounded old member
    obtain ⟨rules', held, _⟩ := holds.putRule (show (made.id : Int) + 0 < Word.limit by omega) (Nat.le_refl 0)
    have counted := numbered.replace (holds.mem_rows member) (equal.trans same.symm)
    exact .of_numbered (same ▸ held) (same ▸ counted)
  | removeRule id => exact .of_numbered (holds.eraseRule id) (numbered.filter_rows _)
  | restoreRule rule =>
    refine kept.call (MemoryStore.restoreRule_rules rule) ?_
    rintro _ next rfl
    have counted := numbered.restore (Or.inr (show (-1 : Int) < rule.id by omega))
    -- the greatest word of all can be the id of a rule that is put back
    refine ⟨counted.rising, fun some => ?_⟩
    have small := some.above (.restored rule.id) List.mem_cons_self
    change rule.id + 1 < Word.limit at small
    obtain ⟨rules', held, _⟩ := holds.putRule (show (rule.id : Int) + 0 < Word.limit by omega) (Nat.le_refl 0)
    exact ⟨directories, rules', held, counted⟩

end NotingStore.Kept

/-- Some rule has an id. -/
def RuleSet.LiveId (set : RuleSet) (id : Nat) : Prop :=
  ∃ path pattern rule, set.rule? path pattern = some rule ∧ rule.id = id

/-- A rule can be told by its id. -/
def RuleSet.DistinctIds (set : RuleSet) : Prop := ∀ path pattern rule path' pattern' rule',
  set.rule? path pattern = some rule → set.rule? path' pattern' = some rule' → rule.id = rule'.id →
    path = path' ∧ pattern = pattern'

theorem Recorded.liveId_iff {timed : Prop} {directories : List Directory} {rules : List Rule} {set : RuleSet}
    (recorded : Recorded timed directories rules set) {id : Nat} : set.LiveId id ↔ ∃ row ∈ rules, row.id = id := by
  constructor
  · rintro ⟨path, pattern, rule, found, rfl⟩
    obtain ⟨row, member, alike⟩ := recorded.stored path pattern rule found
    exact ⟨row, member, alike.fields.1⟩
  · rintro ⟨row, member, rfl⟩
    obtain ⟨path, rule, found, alike⟩ := recorded.known row member
    exact ⟨path, row.pattern, rule, found, alike.fields.1.symm⟩

namespace Registry

/-- A registry has the rules of its store, and these are numbered, with room for new ones. -/
def Counts (room : Nat) (since : IdMark) (registry : Registry (NotingStore MemoryStore)) : Prop :=
  ∃ directories rules, registry.store.store.Holds room directories rules ∧
    Numbered since registry.store.store.rules registry.store.notes ∧
    Recorded False directories rules registry.atlas.rules

variable {room : Nat} {since : IdMark} {registry : Registry (NotingStore MemoryStore)}

theorem start_counts {noting : NotingStore MemoryStore} {directories : List Directory} {rules : List Rule}
    {config : Config} {names : NameTable} {timing : Timing} {disk : Disk}
    (holds : noting.store.Holds room directories rules) (numbered : Numbered since noting.store.rules noting.notes)
    (begun : start config names timing noting disk = .ok registry) : registry.Counts room since := by
  let _ := NotingStore.numbered since
  have kept : RuleStore.Lawful.Holds room noting directories rules := ⟨holds, numbered⟩
  have agrees : Agrees room False (fun _ => True) registry.store registry.atlas := start_agrees_rules kept begun
  obtain ⟨directories, rules, ⟨held, counted⟩, recorded, _⟩ := agrees
  exact ⟨directories, rules, held, counted, recorded⟩

namespace Counts

/-- A run of a registry uses up one id for each rule that it creates, and no more. -/
theorem afterRun {ops : List (Timing × Op)} (counts : registry.Counts (creations ops + room) since) :
    (registry.afterRun ops).Counts room since := by
  let _ := NotingStore.numbered since
  obtain ⟨directories, rules, held, counted, recorded⟩ := counts
  have agrees : Agrees (creations ops + room) False (fun _ => True) registry.store registry.atlas :=
    ⟨directories, rules, ⟨held, counted⟩, recorded, trivial⟩
  have after : Agrees room False (fun _ => True) (registry.afterRun ops).store (registry.afterRun ops).atlas :=
    agrees.afterRun (fun _ => True) False.elim (fun _ _ _ _ _ _ _ _ _ => trivial) fun _ _ => trivial
  obtain ⟨directories', rules', ⟨held', counted'⟩, recorded', _⟩ := after
  exact ⟨directories', rules', held', counted', recorded'⟩

theorem rising (counts : registry.Counts room since) : IdNote.Rising registry.store.notes := by
  obtain ⟨directories, rules, held, counted, recorded⟩ := counts
  exact counted.rising

theorem grown (counts : registry.Counts room since) : since.notes <:+ registry.store.notes := by
  obtain ⟨directories, rules, held, counted, recorded⟩ := counts
  exact counted.grown

theorem distinct (counts : registry.Counts room since) : registry.atlas.rules.DistinctIds := by
  obtain ⟨directories, rules, held, counted, recorded⟩ := counts
  intro path pattern rule path' pattern' rule' here there same
  obtain ⟨samePath, samePattern, _⟩ := recorded.rule_unique here there same
  exact ⟨samePath, samePattern⟩

/-- The ids of the rules are those in the store. -/
theorem liveId_iff (counts : registry.Counts room since) {id : Nat} :
    registry.atlas.rules.LiveId id ↔ ∃ entry ∈ registry.store.store.rules.rows, entry.2.id = id := by
  obtain ⟨directories, rules, held, counted, recorded⟩ := counts
  simp only [recorded.liveId_iff, held.rules.rows, List.mem_map, exists_exists_and_eq_and, id_eq]

/-- A rule that is applied has had its id noted. -/
theorem noted (counts : registry.Counts room since) {id : Nat} (live : registry.atlas.rules.LiveId id) :
    ∃ note ∈ registry.store.notes, note.id = id := by
  obtain ⟨entry, member, rfl⟩ := counts.liveId_iff.mp live
  obtain ⟨directories, rules, held, counted, recorded⟩ := counts
  exact counted.noted entry member

theorem fits (counts : registry.Counts room since) {id : Nat} (live : registry.atlas.rules.LiveId id) :
    id ∈ since.live ∨ since.last < id := by
  obtain ⟨entry, member, rfl⟩ := counts.liveId_iff.mp live
  obtain ⟨directories, rules, held, counted, recorded⟩ := counts
  exact counted.fits entry member

end Counts

end Registry

namespace NotingStore.Kept

variable {noting : NotingStore MemoryStore} {config : Config} {names : NameTable} {timing : Timing} {disk : Disk}
  {registry : Registry (NotingStore MemoryStore)} {count : Nat}

/-- A registry that starts over a store with enough ids left counts its rules from any number below all noted ids. -/
theorem counts_above (kept : noting.Kept) (leave : IdNote.Leave (1 + count) noting.notes)
    (begun : Registry.start config names timing noting disk = .ok registry) {last : Int} (le : last ≤ 0)
    (below : ∀ note ∈ noting.notes, last < note.id) : registry.Counts count ⟨[], last, noting.notes⟩ := by
  obtain ⟨directories, rules, holds, numbered⟩ := kept.numbered (leave.less (Nat.le_add_right 1 count))
  have space := numbered.room leave
  have roomy : noting.store.Holds count directories rules := ⟨holds.directories, holds.rules, holds.last, by omega⟩
  have nonneg := numbered.last_nonneg
  refine Registry.start_counts roomy (numbered.from_mark (fun entry member => Or.inr ?_) (le.trans nonneg)
    (List.suffix_refl _)) begun
  obtain ⟨note, listed, same⟩ := numbered.noted entry member
  exact same ▸ below note listed

theorem counts (kept : noting.Kept) (leave : IdNote.Leave (1 + count) noting.notes)
    (begun : Registry.start config names timing noting disk = .ok registry) :
    registry.Counts count ⟨[], -1, noting.notes⟩ :=
  kept.counts_above leave begun (by decide) fun note _ => by omega

end NotingStore.Kept

namespace Registry

end Registry
end BackupAtlas
