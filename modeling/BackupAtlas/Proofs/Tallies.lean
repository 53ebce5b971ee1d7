import Mathlib.Data.List.Induction
import BackupAtlas.Proofs.Ledgers
import BackupAtlas.Tally

namespace BackupAtlas

namespace Tally

/-- Tallies by id; those that are kept have no names. -/
def ledger : Ledger Tally where
  key := id
  join := absorb
  good tally := tally.name = ""
  key_join _ _ := rfl
  good_join named _ := named
  comm := by
    rintro ⟨_, _, _, _, _⟩ ⟨_, _, _, _, _⟩ rfl rfl rfl
    simp only [absorb, Nat.max_comm, Word.add_comm]
  assoc := by
    intro a b c _ _ _
    simp only [absorb, Nat.max_assoc, Word.add_assoc]

theorem add_eq {tally : Tally} (nameless : tally.name = "") (tallies : List Tally) :
    add tally tallies = ledger.add tally tallies := by
  have same : { tally with name := "" } = tally := by rw [← nameless]
  induction tallies with
  | nil => rw [add, Ledger.add, same]
  | cons head rest ih =>
    rw [add, Ledger.add, same, ih]
    rfl

/-- Merging is the operation of the ledger where names are left out. -/
theorem merge_eq (tallies : List Tally) {other : List Tally} (nameless : ∀ tally ∈ other, tally.name = "") :
    merge tallies other = ledger.merge tallies other := by
  induction other generalizing tallies with
  | nil => rfl
  | cons tally other ih =>
    rw [merge, List.foldl_cons, add_eq (nameless tally List.mem_cons_self), ← merge,
      ih _ fun next member => nameless next (List.mem_cons_of_mem _ member)]
    rfl

theorem merge_normal (tallies : List Tally) {other : List Tally} (normal : ledger.Normal other) :
    merge tallies other = ledger.merge tallies other := merge_eq tallies normal.good

theorem good_ofFile (id : Nat) (file : FileStat) : ledger.good (ofFile id file) := rfl

/-- The tallies of files by a property of each, its user or its group. -/
def gather (id : FileStat → Nat) (files : List FileStat) : Book ledger :=
  (files.map fun file => Book.single (ofFile (id file) file) (good_ofFile _ _)).sum

theorem gather_nil (id : FileStat → Nat) : gather id [] = 0 := List.sum_nil

theorem gather_cons (id : FileStat → Nat) (file : FileStat) (files : List FileStat) :
    gather id (file :: files) = Book.single (ofFile (id file) file) (good_ofFile _ _) + gather id files := List.sum_cons

theorem gather_append (id : FileStat → Nat) (files others : List FileStat) :
    gather id (files ++ others) = gather id files + gather id others := by
  rw [gather, List.map_append, List.sum_append]
  rfl

theorem gather_snoc (id : FileStat → Nat) (files : List FileStat) (file : FileStat) :
    (gather id (files ++ [file])).entries = add (ofFile (id file) file) (gather id files).entries := by
  rw [gather_append, gather_cons, gather_nil, add_zero, Book.plus_single, add_eq (good_ofFile _ _)]

theorem gather_ne_nil (id : FileStat → Nat) (file : FileStat) (files : List FileStat) :
    (gather id (file :: files)).entries ≠ [] := by
  rw [gather_cons, Book.entries_plus]
  exact Ledger.merge_ne_nil (List.cons_ne_nil _ _) _

/-- Files may be counted in any order. -/
theorem gather_perm (id : FileStat → Nat) {files others : List FileStat} (perm : files.Perm others) :
    gather id files = gather id others := (perm.map _).sum_eq

end Tally

namespace DirStat

def ofFiles (uid gid : Nat) (files : List FileStat) : DirStat := files.foldl addFile { uid, gid }

theorem foldl_addFile (stat : DirStat) (files seen : List FileStat)
    (users : stat.users = (Tally.gather (·.uid) seen).entries)
    (groups : stat.groups = (Tally.gather (·.gid) seen).entries) :
    files.foldl addFile stat = { stat with
      users := (Tally.gather (·.uid) (seen ++ files)).entries
      groups := (Tally.gather (·.gid) (seen ++ files)).entries } := by
  induction files generalizing stat seen with
  | nil => rw [List.foldl_nil, List.append_nil, ← users, ← groups]
  | cons file files ih =>
    rw [List.foldl_cons, ih _ (seen ++ [file]), List.append_assoc]
    · rfl
    · rw [addFile, Tally.gather_snoc, users]
    · rw [addFile, Tally.gather_snoc, groups]

theorem ofFiles_eq (uid gid : Nat) (files : List FileStat) : ofFiles uid gid files =
    { uid, gid, users := (Tally.gather (·.uid) files).entries, groups := (Tally.gather (·.gid) files).entries } :=
  foldl_addFile { uid, gid } files [] rfl rfl

theorem ofFiles_perm (uid gid : Nat) {files others : List FileStat} (perm : files.Perm others) :
    ofFiles uid gid files = ofFiles uid gid others := by
  rw [ofFiles_eq, ofFiles_eq, Tally.gather_perm _ perm, Tally.gather_perm _ perm]

/-- A directory may be counted as a whole or file by file. -/
theorem addDir_ofFiles (uid gid uid' gid' : Nat) (files others : List FileStat) :
    addDir (ofFiles uid gid files) (ofFiles uid' gid' others) = ofFiles uid gid (files ++ others) := by
  simp only [ofFiles_eq, addDir, Tally.merge_normal _ (Tally.gather _ _).normal, Tally.gather_append, Book.entries_plus]

end DirStat

namespace Share

def ledger : Ledger Share where
  key := rule
  join share other := share.absorb other.users other.groups
  good share := Tally.ledger.Normal share.users ∧ Tally.ledger.Normal share.groups
  key_join _ _ := rfl
  good_join := by
    rintro a b ⟨users, groups⟩ ⟨users', groups'⟩
    rw [absorb, Tally.merge_normal _ users', Tally.merge_normal _ groups']
    exact ⟨users.merge users', groups.merge groups'⟩
  comm := by
    rintro a b ⟨users, groups⟩ ⟨users', groups'⟩ same
    rw [absorb, absorb, Tally.merge_normal _ users', Tally.merge_normal _ groups', Tally.merge_normal _ users,
      Tally.merge_normal _ groups]
    have first := congrArg Book.entries (Book.plus_comm ⟨_, users⟩ ⟨_, users'⟩)
    have second := congrArg Book.entries (Book.plus_comm ⟨_, groups⟩ ⟨_, groups'⟩)
    simp only [Book.entries_plus] at first second
    rw [first, second, show a.rule = b.rule from same]
  assoc := by
    rintro a b c ⟨users, groups⟩ ⟨users', groups'⟩ ⟨users'', groups''⟩
    simp only [absorb]
    rw [Tally.merge_normal _ users'', Tally.merge_normal _ groups'', Tally.merge_normal _ users',
      Tally.merge_normal _ groups', Tally.merge_normal _ users'', Tally.merge_normal _ groups'',
      Tally.merge_normal _ (users'.merge users''), Tally.merge_normal _ (groups'.merge groups'')]
    have first := congrArg Book.entries (Book.plus_assoc ⟨_, users⟩ ⟨_, users'⟩ ⟨_, users''⟩)
    have second := congrArg Book.entries (Book.plus_assoc ⟨_, groups⟩ ⟨_, groups'⟩ ⟨_, groups''⟩)
    simp only [Book.entries_plus] at first second
    rw [first, second]

theorem merge_nil {tallies : List Tally} (normal : Tally.ledger.Normal tallies) : Tally.merge [] tallies = tallies := by
  rw [Tally.merge_normal _ normal]
  exact congrArg Book.entries (zero_add (⟨tallies, normal⟩ : Book Tally.ledger))

theorem alter_eq (rule : Nat) {users groups : List Tally} (normal : Tally.ledger.Normal users)
    (also : Tally.ledger.Normal groups) (shares : List Share) :
    alter rule (fun share => share.absorb users groups) shares = ledger.add ⟨rule, users, groups⟩ shares := by
  have fresh : absorb { rule } users groups = ⟨rule, users, groups⟩ := by rw [absorb, merge_nil normal, merge_nil also]
  induction shares with
  | nil => rw [alter, Ledger.add, fresh]
  | cons head rest ih =>
    rw [alter, Ledger.add, fresh, ih]
    rfl

theorem merge_eq (shares : List Share) {other : List Share} (normal : ledger.Normal other) :
    merge shares other = ledger.merge shares other := by
  induction other generalizing shares with
  | nil => rfl
  | cons share other ih =>
    obtain ⟨users, groups⟩ := normal.good share List.mem_cons_self
    rw [merge, List.foldl_cons, alter_eq share.rule users groups, ← merge, ih _ normal.tail]
    rfl

/-- The share of a rule that has the given files. -/
def ofFiles (rule : Nat) (files : List FileStat) : Share where
  rule
  users := (Tally.gather (·.uid) files).entries
  groups := (Tally.gather (·.gid) files).entries

theorem good_ofFiles (rule : Nat) (files : List FileStat) : ledger.good (ofFiles rule files) :=
  ⟨(Tally.gather _ _).normal, (Tally.gather _ _).normal⟩

def book (charges : List (Nat × FileStat)) : Book ledger :=
  (charges.map fun charge => Book.single (ofFiles charge.1 [charge.2]) (good_ofFiles _ _)).sum

theorem book_nil : book [] = 0 := List.sum_nil

theorem book_cons (charge : Nat × FileStat) (charges : List (Nat × FileStat)) :
    book (charge :: charges) = Book.single (ofFiles charge.1 [charge.2]) (good_ofFiles _ _) + book charges :=
    List.sum_cons

theorem book_append (charges others : List (Nat × FileStat)) :
    book (charges ++ others) = book charges + book others := by
  rw [book, List.map_append, List.sum_append]
  rfl

/-- The shares of files, each charged to a rule and counted one by one. -/
def tabulate (charges : List (Nat × FileStat)) : List Share :=
  charges.foldl (fun shares (rule, file) => addFile rule file shares) []

theorem ofFiles_single (rule : Nat) (file : FileStat) :
    ofFiles rule [file] = ⟨rule, [.ofFile file.uid file], [.ofFile file.gid file]⟩ := by
  rw [ofFiles, Tally.gather_cons, Tally.gather_cons, Tally.gather_nil, Tally.gather_nil, add_zero, add_zero]
  rfl

theorem addFile_eq (rule : Nat) (file : FileStat) (shares : List Share) :
    addFile rule file shares = ledger.add (ofFiles rule [file]) shares := by
  obtain ⟨users, groups⟩ := good_ofFiles rule [file]
  rw [ofFiles_single] at users groups ⊢
  exact alter_eq rule users groups shares

theorem tabulate_eq (charges : List (Nat × FileStat)) : tabulate charges = (book charges).entries := by
  induction charges using List.reverseRecOn with
  | nil => rfl
  | append_singleton charges charge ih =>
    rw [book_append, book_cons, book_nil, add_zero, Book.plus_single, ← addFile_eq, ← ih, tabulate, tabulate,
      List.foldl_append]
    rfl

theorem tabulate_normal (charges : List (Nat × FileStat)) : ledger.Normal (tabulate charges) := by
  rw [tabulate_eq]
  exact (book charges).normal

/-- The order in which files are counted makes no difference. -/
theorem tabulate_perm {charges others : List (Nat × FileStat)} (perm : charges.Perm others) :
    tabulate charges = tabulate others := by
  rw [tabulate_eq, tabulate_eq, book, book, (perm.map _).sum_eq]

/-- Shares of parts can be merged. -/
theorem merge_tabulate (charges others : List (Nat × FileStat)) :
    merge (tabulate charges) (tabulate others) = tabulate (charges ++ others) := by
  rw [merge_eq _ (tabulate_normal others), tabulate_eq, tabulate_eq, tabulate_eq, book_append, Book.entries_plus]

theorem join_ofFiles (rule : Nat) (files others : List FileStat) :
    ledger.join (ofFiles rule files) (ofFiles rule others) = ofFiles rule (files ++ others) := by
  change absorb _ (ofFiles rule others).users (ofFiles rule others).groups = _
  simp only [absorb, ofFiles, Tally.merge_normal _ (Tally.gather _ _).normal, Tally.gather_append, Book.entries_plus]

/-- Files that all go to one rule are one share. -/
theorem book_uniform (rule : Nat) (file : FileStat) (files : List FileStat) :
    book ((file :: files).map (rule, ·)) = Book.single (ofFiles rule (file :: files)) (good_ofFiles _ _) := by
  induction files generalizing file with
  | nil => exact add_zero _
  | cons next files ih =>
    rw [List.map_cons, book_cons, ih, Book.single_plus (good_ofFiles rule [file])
      (good_ofFiles rule (next :: files)) rfl]
    exact Book.ext fun k => congrArg (fun share => ledger.find? k [share]) (join_ofFiles rule [file] (next :: files))

/-- A directory whose files all go to one rule counts like its files. -/
theorem addDir_tabulate (rule uid gid : Nat) (files : List FileStat) (charges : List (Nat × FileStat)) :
    addDir rule (DirStat.ofFiles uid gid files) (tabulate charges) = tabulate (charges ++ files.map (rule, ·)) := by
  rw [addDir, DirStat.ofFiles_eq]
  cases files with
  | nil =>
    rw [Tally.gather_nil, Tally.gather_nil, List.map_nil, List.append_nil]
    rfl
  | cons file files =>
    have counted := Tally.gather_ne_nil (·.uid) file files
    rw [if_neg (by simp [counted])]
    obtain ⟨users, groups⟩ := good_ofFiles rule (file :: files)
    rw [tabulate_eq, tabulate_eq, book_append, book_uniform, Book.plus_single]
    exact alter_eq rule users groups _

end Share
end BackupAtlas
