import BackupAtlas.Proofs.Tallies

namespace BackupAtlas

namespace Tally

/-- The tallies of a list, put in order. They lose their names. -/
def collect (tallies : List Tally) : Book ledger :=
  (tallies.map fun tally => Book.single { tally with name := "" } rfl).sum

theorem collect_cons (tally : Tally) (tallies : List Tally) :
    collect (tally :: tallies) = Book.single { tally with name := "" } rfl + collect tallies := List.sum_cons

/-- The name of a tally that is added does not matter. -/
theorem add_nameless (tally : Tally) (tallies : List Tally) :
    add tally tallies = add { tally with name := "" } tallies := by
  induction tallies with
  | nil => rfl
  | cons head rest ih =>
    rw [add, add, ih]
    rfl

/-- To merge a list of tallies into a book is to add the book of the list to it. -/
theorem merge_collect (book : Book ledger) (other : List Tally) :
    merge book.entries other = (book + collect other).entries := by
  induction other generalizing book with
  | nil => exact congrArg Book.entries (add_zero book).symm
  | cons tally other ih =>
    rw [merge, List.foldl_cons, add_nameless, add_eq rfl, ← merge, collect_cons, ← add_assoc]
    exact ih (book + Book.single { tally with name := "" } rfl)

theorem merge_nil_collect (tallies : List Tally) : merge [] tallies = (collect tallies).entries := by
  rw [← zero_add (collect tallies), ← merge_collect]
  rfl

/-- What is in order already is left as it is. -/
theorem collect_entries (book : Book ledger) : collect book.entries = book := by
  refine Book.ext fun k => ?_
  rw [← merge_nil_collect, Share.merge_nil book.normal]

end Tally

namespace Share

/-- The share of `rule` that has the given tallies. -/
def ofTallies (rule : Nat) (users groups : List Tally) : Share where
  rule
  users := (Tally.collect users).entries
  groups := (Tally.collect groups).entries

theorem good_ofTallies (rule : Nat) (users groups : List Tally) : ledger.good (ofTallies rule users groups) :=
  ⟨(Tally.collect users).normal, (Tally.collect groups).normal⟩

def charge (rule : Nat) (users groups : List Tally) : Book ledger :=
  Book.single (ofTallies rule users groups) (good_ofTallies rule users groups)

theorem absorb_collect {share : Share} (good : ledger.good share) (users groups : List Tally) :
    share.absorb users groups = share.absorb (Tally.collect users).entries (Tally.collect groups).entries := by
  obtain ⟨own, also⟩ := good
  have first (more : List Tally) := Tally.merge_collect ⟨share.users, own⟩ more
  have second (more : List Tally) := Tally.merge_collect ⟨share.groups, also⟩ more
  rw [absorb, absorb, first, second, first, second, Tally.collect_entries, Tally.collect_entries]

/-- What a rule absorbs is a book that is added to the one there is. -/
theorem alter_charge (book : Book ledger) (rule : Nat) (users groups : List Tally) :
    alter rule (fun share => share.absorb users groups) book.entries = (book + charge rule users groups).entries := by
  obtain ⟨shares, normal⟩ := book
  rw [charge, Book.plus_single, ofTallies,
    ← alter_eq rule (Tally.collect users).normal (Tally.collect groups).normal]
  have empty : ledger.good { rule } := ⟨Ledger.normal_nil, Ledger.normal_nil⟩
  have fresh := absorb_collect empty users groups
  induction shares with
  | nil => rw [alter, alter, fresh]
  | cons head rest ih =>
    rw [alter, alter, fresh, absorb_collect (normal.good head List.mem_cons_self), ih normal.tail]

/-- Something that can be counted in a list of shares. -/
inductive Counted where
  | file (rule : Nat) (stat : FileStat)
  | dir (rule : Nat) (stat : DirStat)
  | shares (other : List Share)

namespace Counted

def count (shares : List Share) : Counted → List Share
  | file rule stat => addFile rule stat shares
  | dir rule stat => addDir rule stat shares
  | .shares other => merge shares other

def book : Counted → Book ledger
  | file rule stat => Share.book [(rule, stat)]
  | dir rule stat => if stat.users.isEmpty && stat.groups.isEmpty then 0 else charge rule stat.users stat.groups
  | .shares other => (other.map fun share => charge share.rule share.users share.groups).sum

/-- A list of shares adds up to the books of its shares. -/
theorem merge_charges (book : Book ledger) (other : List Share) : merge book.entries other =
    (book + (other.map fun share => charge share.rule share.users share.groups).sum).entries := by
  induction other generalizing book with
  | nil => exact congrArg Book.entries (add_zero book).symm
  | cons share other ih =>
    rw [merge, List.foldl_cons, alter_charge, ← merge, ih, List.map_cons, List.sum_cons, add_assoc]

/-- Counting something adds its book. -/
theorem count_eq (book : Book ledger) (item : Counted) : item.count book.entries = (book + item.book).entries := by
  cases item with
  | file rule stat =>
    rw [count, addFile_eq, Counted.book, book_cons, book_nil, add_zero, Book.plus_single]
  | dir rule stat =>
    rw [count, addDir, Counted.book]
    split
    · rw [add_zero]
    · exact alter_charge book rule stat.users stat.groups
  | shares other => exact merge_charges book other

end Counted

def countAll (items : List Counted) : List Share := items.foldl Counted.count []

theorem foldl_count (book : Book ledger) (items : List Counted) :
    items.foldl Counted.count book.entries = (book + (items.map Counted.book).sum).entries := by
  induction items generalizing book with
  | nil => exact congrArg Book.entries (add_zero book).symm
  | cons item items ih => rw [List.foldl_cons, Counted.count_eq, ih, List.map_cons, List.sum_cons, add_assoc]

/-- What is counted adds up, whatever the items are. -/
theorem countAll_eq (items : List Counted) : countAll items = (items.map Counted.book).sum.entries := by
  rw [← zero_add (items.map Counted.book).sum, ← foldl_count]
  rfl

/-- The order in which things are counted makes no difference, whatever they are. -/
theorem countAll_perm {items others : List Counted} (perm : items.Perm others) : countAll items = countAll others := by
  rw [countAll_eq, countAll_eq, (perm.map _).sum_eq]

/-- Two counts can be merged, or their items counted together. -/
theorem merge_countAll (items others : List Counted) :
    merge (countAll items) (countAll others) = countAll (items ++ others) := by
  have normal : ledger.Normal (countAll others) := by
    rw [countAll_eq]
    exact Book.normal _
  rw [merge_eq _ normal, countAll_eq, countAll_eq, countAll_eq, List.map_append, List.sum_append, Book.entries_plus]

theorem tabulate_countAll (charges : List (Nat × FileStat)) :
    tabulate charges = countAll (charges.map fun charge => .file charge.1 charge.2) := by
  rw [countAll, List.foldl_map]
  rfl

theorem ofTallies_gather (rule : Nat) (files : List FileStat) :
    ofTallies rule (Tally.gather (·.uid) files).entries (Tally.gather (·.gid) files).entries = ofFiles rule files := by
  rw [ofTallies, Tally.collect_entries, Tally.collect_entries, ofFiles]

/-- A directory whose files all go to one rule counts like its files. -/
theorem addDir_foldl (rule uid gid : Nat) (files : List FileStat) (book : Book ledger) :
    addDir rule (DirStat.ofFiles uid gid files) book.entries =
      files.foldl (fun shares file => addFile rule file shares) book.entries := by
  have counted : Counted.book (.dir rule (DirStat.ofFiles uid gid files)) = Share.book (files.map (rule, ·)) := by
    rw [Counted.book, DirStat.ofFiles_eq]
    cases files with
    | nil => rfl
    | cons file files =>
      rw [if_neg (by simp [Tally.gather_ne_nil (·.uid) file files]), book_uniform, charge]
      simp only [ofTallies_gather]
  have each := foldl_count book (files.map (Counted.file rule))
  rw [List.foldl_map, List.map_map] at each
  have together := Counted.count_eq book (.dir rule (DirStat.ofFiles uid gid files))
  rw [counted, Share.book, List.map_map] at together
  refine together.trans (Eq.trans ?_ each.symm)
  refine congrArg (fun books => (book + List.sum books).entries) (List.map_congr_left fun file _ => ?_)
  exact (add_zero _).symm

/-- The rules ascend, and in each share the users and the groups do. -/
structure Ordered (shares : List Share) : Prop where
  rules : shares.Pairwise (·.rule < ·.rule)
  users : ∀ share ∈ shares, share.users.Pairwise (·.id < ·.id)
  groups : ∀ share ∈ shares, share.groups.Pairwise (·.id < ·.id)

def Nameless (shares : List Share) : Prop := ∀ share ∈ shares, ∀ tally ∈ share.users ++ share.groups, tally.name = ""

/-- Lists of shares are those of books if they are in order and nothing in them has a name. -/
theorem normal_iff (shares : List Share) : ledger.Normal shares ↔ Ordered shares ∧ Nameless shares := by
  constructor
  · intro normal
    refine ⟨⟨normal.ascending, fun share member => (normal.good share member).1.ascending,
      fun share member => (normal.good share member).2.ascending⟩, fun share member tally counted => ?_⟩
    obtain ⟨users, groups⟩ := normal.good share member
    rcases List.mem_append.mp counted with user | group
    · exact users.good tally user
    · exact groups.good tally group
  · rintro ⟨ordered, nameless⟩
    refine ⟨ordered.rules, fun share member => ⟨⟨ordered.users share member, ?_⟩, ordered.groups share member, ?_⟩⟩
    · exact fun tally user => nameless share member tally (List.mem_append_left _ user)
    · exact fun tally group => nameless share member tally (List.mem_append_right _ group)

section Laws

variable {a b c : List Share} (first : ledger.Normal a) (second : ledger.Normal b) (third : ledger.Normal c)

include first second

theorem normal_merge : ledger.Normal (merge a b) := by
  rw [merge_eq a second]
  exact first.merge second

/-- Shares can be merged in either order. -/
theorem merge_comm : merge a b = merge b a := by
  rw [merge_eq a second, merge_eq b first]
  exact congrArg Book.entries (add_comm (⟨a, first⟩ : Book ledger) ⟨b, second⟩)

include third

theorem merge_assoc : merge (merge a b) c = merge a (merge b c) := by
  rw [merge_eq a (normal_merge second third), merge_eq _ third, merge_eq a second, merge_eq b third]
  exact congrArg Book.entries (add_assoc (⟨a, first⟩ : Book ledger) ⟨b, second⟩ ⟨c, third⟩)

omit second third

theorem nil_merge : merge [] a = a := by
  rw [merge_eq [] first]
  exact congrArg Book.entries (zero_add (⟨a, first⟩ : Book ledger))

end Laws

/-- Ordered lists without names are a commutative monoid under merging, and counting does not leave it. -/
theorem counting_is_monoid :
    (∀ items, Ordered (countAll items) ∧ Nameless (countAll items)) ∧
    (∀ a b c, Ordered a ∧ Nameless a → Ordered b ∧ Nameless b → Ordered c ∧ Nameless c →
      (Ordered (merge a b) ∧ Nameless (merge a b)) ∧ merge a b = merge b a ∧
      merge (merge a b) c = merge a (merge b c) ∧ merge [] a = a ∧ merge a [] = a) ∧
    (∀ xs ys zs : List (Nat × FileStat), zs.Perm (xs ++ ys) → merge (tabulate xs) (tabulate ys) = tabulate zs) ∧
    ∀ rule uid gid (files order : List FileStat) shares, order.Perm files → Ordered shares ∧ Nameless shares →
      addDir rule (DirStat.ofFiles uid gid files) shares =
        order.foldl (fun shares file => addFile rule file shares) shares := by
  refine ⟨fun items => ?_, fun a b c first second third => ?_, fun xs ys zs perm => ?_,
    fun rule uid gid files order shares perm proper => ?_⟩
  · rw [← normal_iff, countAll_eq]
    exact Book.normal _
  · rw [← normal_iff] at first second third ⊢
    exact ⟨normal_merge first second, merge_comm first second, merge_assoc first second third, nil_merge first, rfl⟩
  · rw [tabulate_countAll, tabulate_countAll, tabulate_countAll, merge_countAll, ← List.map_append]
    exact (countAll_perm (perm.map _)).symm
  · rw [← DirStat.ofFiles_perm uid gid perm]
    exact addDir_foldl rule uid gid order ⟨shares, (normal_iff shares).mpr proper⟩

/-- Two lists that have a rule and one of its users in common, and files that are counted for that rule. -/
theorem counting_with_common_rule :
    let early : Tally := { id := 7, mtime := 1, files := 1, size := 10 }
    let late : Tally := { id := 7, mtime := 9, files := 2, size := 5 }
    let one : List Share := [⟨1, [early], [early]⟩, ⟨2, [late], [late]⟩]
    let other : List Share := [⟨0, [late], [late]⟩, ⟨1, [late], [late]⟩]
    let files : List FileStat := [{ uid := 7, gid := 3, mtime := 2, size := 4 }, { uid := 5, gid := 3, size := 1 }]
    merge one other = merge other one ∧ merge [] one = one ∧
      (merge one other).map Share.rule = [0, 1, 2] ∧
      addDir 1 (DirStat.ofFiles 0 0 files) one =
        files.reverse.foldl (fun shares file => addFile 1 file shares) one := by
  intro early late one other files
  obtain ⟨_, laws, _, dirs⟩ := counting_is_monoid
  have first : Ordered one ∧ Nameless one := ⟨⟨by decide, by decide, by decide⟩, by unfold Nameless; decide⟩
  have second : Ordered other ∧ Nameless other := ⟨⟨by decide, by decide, by decide⟩, by unfold Nameless; decide⟩
  obtain ⟨_, comm, _, unit, _⟩ := laws one other one first second first
  exact ⟨comm, unit, by decide, dirs 1 0 0 files files.reverse one files.reverse_perm first⟩

end Share
end BackupAtlas
