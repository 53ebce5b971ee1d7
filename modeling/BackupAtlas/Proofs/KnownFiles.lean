import Mathlib.Data.List.Dedup
import BackupAtlas.Proofs.CensusRuns
import BackupAtlas.Proofs.RecordedFiles

namespace BackupAtlas

open TreePath

def CensusDir.owner (dir : CensusDir) : Owner := ⟨dir.uid, dir.gid⟩

namespace Census

/-- What an entry says of the file to which names lead. -/
def Entry.stat? (root : String) (names : List String) : Entry → Option FileStat
  | dir .. => none
  | file path stat => if (file path stat).fits root ∧ (file path stat).names root = names then some stat else none

/-- What was recorded last of the file to which names lead. -/
def latest (root : String) (entries : List Entry) (names : List String) : Option FileStat :=
  entries.reverse.findSome? (Entry.stat? root names)

/-- Whom an entry makes the owner of the directory to which names lead. -/
def Entry.owner? (root : String) (names : List String) : Entry → Option Owner
  | dir path uid gid =>
    if (dir path uid gid).fits root ∧ (dir path uid gid).names root = names then some ⟨uid, gid⟩ else none
  | file .. => none

/-- The owner with whom a directory was recorded last. The topmost one has an owner from the start. -/
def lastOwner (root : String) (first : Owner) (entries : List Entry) (names : List String) : Option Owner :=
  (entries.reverse.findSome? (Entry.owner? root names)).or (if names = [] then some first else none)

/-- A directory that was recorded or in which something was recorded, at whatever depth, or the topmost one. -/
def IsKnown (root : String) (entries : List Entry) (names : List String) : Prop :=
  names = [] ∨ ∃ entry ∈ entries, entry.fits root ∧ names <+: entry.dirs root

/-- All files, each with what was recorded of it last. -/
def known (root : String) (entries : List Entry) : List (List String × FileStat) :=
  (entries.map (Entry.names root)).dedup.filterMap fun names => (latest root entries names).map (names, ·)

/-- The files at or below the directory to which names lead. -/
def knownBelow (root : String) (entries : List Entry) (names : List String) : List FileStat :=
  ((known root entries).filter fun file => names.isPrefixOf file.1).map (·.2)

variable {root : String} {entries : List Entry} {entry : Entry} {names : List String} {stat : FileStat}

theorem latest_snoc (entries : List Entry) (entry : Entry) (names : List String) :
    latest root (entries ++ [entry]) names = (entry.stat? root names).or (latest root entries names) := by
  rw [latest, List.reverse_concat, List.findSome?_cons]
  cases entry.stat? root names <;> rfl

theorem isKnown_snoc : IsKnown root (entries ++ [entry]) names ↔
    (entry.fits root ∧ names <+: entry.dirs root) ∨ IsKnown root entries names := by
  simp only [IsKnown, List.mem_append, List.mem_singleton, or_and_right, exists_or, exists_eq_left]
  rw [← or_assoc]
  exact or_comm

/-- An entry says something of a file if it is a file entry that fits and leads there. -/
theorem stat?_eq_some : entry.stat? root names = some stat ↔
    ∃ path, entry = .file path stat ∧ entry.fits root ∧ entry.names root = names := by
  cases entry with
  | dir path uid gid => simp [Entry.stat?]
  | file path other =>
    rw [Entry.stat?, Option.ite_none_right_eq_some]
    constructor
    · rintro ⟨⟨fits, named⟩, same⟩
      obtain rfl := Option.some.inj same
      exact ⟨path, rfl, fits, named⟩
    · rintro ⟨_, same, fits, named⟩
      obtain ⟨rfl, rfl⟩ := Entry.file.inj same
      exact ⟨⟨fits, named⟩, rfl⟩

theorem exists_of_latest (found : latest root entries names = some stat) :
    ∃ path, .file path stat ∈ entries ∧ (Entry.file path stat).fits root ∧
      (Entry.file path stat).names root = names := by
  obtain ⟨entry, listed, said⟩ := List.exists_of_findSome?_eq_some found
  obtain ⟨path, rfl, fits, named⟩ := stat?_eq_some.mp said
  exact ⟨path, List.mem_reverse.mp listed, fits, named⟩

/-- Known are the files that were recorded, as they were recorded last. -/
theorem mem_known {file : List String × FileStat} :
    file ∈ known root entries ↔ latest root entries file.1 = some file.2 := by
  obtain ⟨names, stat⟩ := file
  simp only [known, List.mem_filterMap, List.mem_dedup, Option.map_eq_some_iff, Prod.mk.injEq]
  constructor
  · rintro ⟨_, _, _, found, rfl, rfl⟩
    exact found
  · intro found
    obtain ⟨path, listed, _, named⟩ := exists_of_latest found
    exact ⟨names, List.mem_map.mpr ⟨_, listed, named⟩, stat, found, rfl, rfl⟩

theorem known_nodup : (known root entries).Nodup := by
  refine (List.nodup_dedup _).filterMap fun names others file here there => ?_
  obtain ⟨_, _, rfl⟩ := Option.map_eq_some_iff.mp here
  obtain ⟨_, _, same⟩ := Option.map_eq_some_iff.mp there
  exact (Prod.mk.inj same).1.symm

/-- The names of files are those of directories and a name without a slash. -/
theorem names_of_latest (absolute : isAbsoluteDir root) (found : latest root entries names = some stat) :
    ∃ dirs name, names = dirs ++ [name] ∧ AreSteps dirs ∧ '/' ∉ name.toList ∧ IsKnown root entries dirs := by
  obtain ⟨path, listed, fits, rfl⟩ := exists_of_latest found
  obtain ⟨named, areSteps, _, plain⟩ := Entry.names_file absolute fits
  exact ⟨_, _, named, areSteps, plain, Or.inr ⟨_, listed, fits, List.prefix_rfl⟩⟩

theorem IsKnown.areSteps (absolute : isAbsoluteDir root) (known : IsKnown root entries names) : AreSteps names := by
  rcases known with rfl | ⟨entry, _, fits, held⟩
  · exact areSteps_nil
  · have areSteps : AreSteps (entry.dirs root) := by
      cases entry with
      | dir path uid gid => exact Entry.names_dir fits
      | file path stat => exact (Entry.names_file absolute fits).2.1
    exact fun name member => areSteps name (held.subset member)

/-- A tree that has the directories and the files that are known. -/
structure Gathered (root : String) (entries : List Entry) (tree : DirTree (Catalog FileStat)) : Prop where
  ascending : tree.below.Ascending
  dirs : ∀ names, (tree.sub? names).isSome ↔ IsKnown root entries names
  files : ∀ dirs name, (tree.labelAt .empty dirs).get? name = latest root entries (dirs ++ [name])

/-- What an entry does to the files of its directory. -/
def Entry.fileChange (root : String) (entry : Entry) (files : Catalog FileStat) : Catalog FileStat :=
  match entry with
  | dir .. => files
  | file _ stat => files.insert (entry.name root) stat

/-- An entry changes the files of one directory. -/
theorem Entry.put_files (fits : entry.fits root) (tree : DirTree CensusDir) : (entry.put root tree).map (·.files) =
    (tree.map (·.files)).changeAt (fun _ => .empty) (entry.fileChange root) (entry.dirs root) := by
  rw [put, if_pos fits]
  refine DirTree.changeAt_map (f := CensusDir.files) (fun _ => rfl) (fun dir => ?_) _ tree
  cases entry <;> rfl

theorem Entry.fileChange_get? (absolute : isAbsoluteDir root) (fits : entry.fits root) (files : Catalog FileStat)
    (name : String) : (entry.fileChange root files).get? name =
      (entry.stat? root (entry.dirs root ++ [name])).or (files.get? name) := by
  cases entry with
  | dir path uid gid => rfl
  | file path stat =>
    rw [fileChange, Catalog.get?_insert, stat?]
    have named := (names_file absolute fits).1
    by_cases same : name = (file path stat).name root
    · rw [if_pos same, same, ← named, if_pos ⟨fits, rfl⟩]
      rfl
    · rw [if_neg same, if_neg]
      · rfl
      · rintro ⟨_, equal⟩
        rw [named, List.append_cancel_left_eq] at equal
        exact same (List.singleton_inj.mp equal).symm

/-- An entry says nothing of files in other directories. -/
theorem Entry.stat?_apart (absolute : isAbsoluteDir root) {dirs : List String} (differ : dirs ≠ entry.dirs root)
    (name : String) : entry.stat? root (dirs ++ [name]) = none := by
  cases entry with
  | dir path uid gid => rfl
  | file path stat =>
    refine if_neg ?_
    rintro ⟨fits, equal⟩
    rw [(names_file absolute fits).1] at equal
    exact differ (List.append_inj_left' equal rfl).symm

/-- What is gathered keeps up with one more entry. -/
theorem Gathered.snoc (absolute : isAbsoluteDir root) {tree : DirTree CensusDir}
    (gathered : Gathered root entries (tree.map (·.files))) (entry : Entry) :
    Gathered root (entries ++ [entry]) ((entry.put root tree).map (·.files)) := by
  by_cases fits : entry.fits root
  · -- directories are made along the path, and only files of the last one change
    rw [Entry.put_files fits]
    refine ⟨DirTree.along_ascending gathered.ascending, fun names => ?_, fun dirs name => ?_⟩
    · rw [isKnown_snoc, ← gathered.dirs, DirTree.changeAt, DirTree.sub?_along_isSome gathered.ascending]
      simp only [fits, true_and]
    · rw [latest_snoc, ← gathered.files, DirTree.changeAt, DirTree.labelAt_along gathered.ascending]
      by_cases same : dirs = entry.dirs root
      · rw [if_pos (same ▸ List.prefix_rfl), decide_eq_true same, if_pos rfl, Entry.fileChange_get? absolute fits, same]
      · rw [Entry.stat?_apart absolute same, Option.none_or, decide_eq_false same, if_neg Bool.false_ne_true, ite_self]
  · have silent : ∀ names, entry.stat? root names = none := by
      intro names
      cases said : entry.stat? root names with
      | none => rfl
      | some stat =>
        obtain ⟨_, _, fits', _⟩ := stat?_eq_some.mp said
        exact absurd fits' fits
    rw [Entry.put, if_neg fits]
    refine ⟨gathered.ascending, fun names => ?_, fun dirs name => ?_⟩
    · rw [isKnown_snoc, gathered.dirs]
      simp only [fits, Bool.false_eq_true, false_and, false_or]
    · rw [latest_snoc, silent, Option.none_or, gathered.files]

theorem Gathered.run (absolute : isAbsoluteDir root) (uid gid : Nat) (entries : List Entry) :
    Gathered root entries ((entries.foldl (Entry.put root) { label := { uid, gid } }).map (·.files)) := by
  induction entries using List.reverseRecOn with
  | nil =>
    refine ⟨trivial, fun names => ?_, fun dirs name => ?_⟩
    · cases names <;> simp [DirTree.map, Forest.map, DirTree.sub?, Forest.find?, IsKnown]
    · cases dirs <;> rfl
  | append_singleton entries entry ih =>
    rw [List.foldl_append]
    exact ih.snoc absolute entry

/-- A tree in which directories have the owners with whom they were recorded. -/
def Owned (root : String) (first : Owner) (entries : List Entry) (tree : DirTree CensusDir) : Prop :=
  ∀ names owner, lastOwner root first entries names = some owner →
    ∃ inner, tree.sub? names = some inner ∧ inner.label.owner = owner

theorem lastOwner_snoc (first : Owner) (entries : List Entry) (entry : Entry) (names : List String) :
    lastOwner root first (entries ++ [entry]) names =
      (entry.owner? root names).or (lastOwner root first entries names) := by
  rw [lastOwner, List.reverse_concat, List.findSome?_cons]
  cases entry.owner? root names <;> rfl

theorem owner?_eq_some {owner : Owner} : entry.owner? root names = some owner ↔
    ∃ path, entry = .dir path owner.uid owner.gid ∧ entry.fits root ∧ entry.dirs root = names := by
  obtain ⟨uid, gid⟩ := owner
  cases entry with
  | file path stat => simp [Entry.owner?]
  | dir path uid' gid' =>
    rw [Entry.owner?, Option.ite_none_right_eq_some]
    constructor
    · rintro ⟨⟨fits, named⟩, same⟩
      cases same
      exact ⟨path, rfl, fits, named⟩
    · rintro ⟨_, same, fits, named⟩
      cases same
      exact ⟨⟨fits, named⟩, rfl⟩

theorem Owned.snoc {first : Owner} {tree : DirTree CensusDir} (owned : Owned root first entries tree)
    (ascending : tree.below.Ascending) (entry : Entry) :
    Owned root first (entries ++ [entry]) (entry.put root tree) := by
  intro names owner last
  rw [lastOwner_snoc] at last
  cases said : entry.owner? root names with
  | some other =>
    obtain rfl : other = owner := by simpa [said] using last
    obtain ⟨path, rfl, fits, rfl⟩ := owner?_eq_some.mp said
    obtain ⟨label, below, there⟩ := DirTree.sub?_changeAt_self ascending _
    rw [Entry.put, if_pos fits]
    exact ⟨_, there, rfl⟩
  | none =>
    rw [said, Option.none_or] at last
    obtain ⟨inner, there, same⟩ := owned names owner last
    rw [Entry.put]
    split
    · rename_i fits
      obtain ⟨below, there⟩ := DirTree.sub?_changeAt ascending there
      refine ⟨_, there, ?_⟩
      split
      · rename_i here
        cases entry with
        | file path stat => exact same
        | dir path uid gid =>
          have given : (Entry.dir path uid gid).owner? root names = some ⟨uid, gid⟩ :=
            owner?_eq_some.mpr ⟨path, rfl, fits, here.symm⟩
          exact absurd (said.symm.trans given) (by simp)
      · exact same
    · exact ⟨inner, there, same⟩

theorem Owned.run (absolute : isAbsoluteDir root) (first : Owner) (entries : List Entry) : Owned root first entries
    (entries.foldl (Entry.put root) { label := { uid := first.uid, gid := first.gid } }) := by
  induction entries using List.reverseRecOn with
  | nil =>
    intro names owner last
    obtain ⟨rfl, same⟩ := Option.ite_none_right_eq_some.mp last
    exact ⟨_, rfl, Option.some.inj same⟩
  | append_singleton entries entry ih =>
    rw [List.foldl_append]
    exact ih.snoc ((Forest.ascending_map _).mp (Gathered.run absolute first.uid first.gid entries).ascending) entry

end Census

namespace DirTree

/-- All files in a tree, with the names that lead to them. -/
def located (tree : DirTree (Catalog FileStat)) : List (List String × FileStat) :=
  tree.listing.flatMap fun place => place.2.entries.map fun entry => (place.1 ++ [entry.1], entry.2)

variable {tree : DirTree (Catalog FileStat)}

theorem mem_located (ascending : tree.below.Ascending) {file : List String × FileStat} : file ∈ tree.located ↔
    ∃ dirs name, file.1 = dirs ++ [name] ∧ (tree.labelAt .empty dirs).get? name = some file.2 := by
  obtain ⟨names, stat⟩ := file
  simp only [located, List.mem_flatMap, List.mem_map, Prod.mk.injEq]
  constructor
  · rintro ⟨⟨dirs, files⟩, place, ⟨name, stat⟩, listed, rfl, rfl⟩
    obtain ⟨below, there⟩ := (mem_listing ascending).mp place
    exact ⟨dirs, name, rfl, labelAt_of_some there ▸ Catalog.get?_eq_some.mpr listed⟩
  · rintro ⟨dirs, name, rfl, found⟩
    cases there : tree.sub? dirs with
    | none =>
      rw [labelAt_of_none there] at found
      exact absurd found (by simp [Catalog.get?, Catalog.empty, Entries.get?])
    | some inner =>
      rw [labelAt_of_some there] at found
      exact ⟨(dirs, inner.label), (mem_listing ascending).mpr ⟨inner.below, there⟩, (name, stat),
        Catalog.get?_eq_some.mp found, rfl, rfl⟩

theorem located_nodup (ascending : tree.below.Ascending) : tree.located.Nodup := by
  refine List.nodup_flatMap.mpr ⟨fun place _ => ?_, ?_⟩
  · have names : (place.2.entries.map (·.1)).Nodup :=
      Census.nodup_of_ascending (List.pairwise_map.mpr place.2.ascending)
    refine (List.Nodup.of_map _ names).map fun entry other same => ?_
    obtain ⟨named, stat⟩ := Prod.mk.inj same
    exact Prod.ext (List.singleton_inj.mp (List.append_cancel_left named)) stat
  · refine (List.pairwise_map.mp (listing_nodup ascending)).imp fun differ => ?_
    refine List.disjoint_left.mpr fun file here there => differ ?_
    obtain ⟨entry, _, rfl⟩ := List.mem_map.mp here
    obtain ⟨other, _, same⟩ := List.mem_map.mp there
    exact (List.append_inj_left' (Prod.mk.inj same).1 rfl).symm

end DirTree

namespace Census

variable {root : String} {entries : List Entry} {names : List String}

/-- What is in a directory of the tree are the known files at or below it. -/
theorem Gathered.located {tree inner : DirTree (Catalog FileStat)} (gathered : Gathered root entries tree)
    (absolute : isAbsoluteDir root) (there : tree.sub? names = some inner) :
    (inner.located.map (·.2)).Perm (knownBelow root entries names) := by
  have isKnown : IsKnown root entries names := (gathered.dirs names).mp (by rw [there]; rfl)
  have ascending := DirTree.sub?_ascending gathered.ascending there
  have same : (inner.located.map fun file => (names ++ file.1, file.2)).Perm
      ((known root entries).filter fun file => names.isPrefixOf file.1) := by
    refine (List.perm_ext_iff_of_nodup ?_ (known_nodup.filter _)).mpr fun file => ?_
    · refine (DirTree.located_nodup ascending).map fun file other same => ?_
      exact Prod.ext (List.append_cancel_left (Prod.mk.inj same).1) (Prod.mk.inj same).2
    obtain ⟨path, stat⟩ := file
    have inside : ∀ dirs name,
        (inner.labelAt .empty dirs).get? name = latest root entries (names ++ (dirs ++ [name])) := by
      intro dirs name
      rw [← DirTree.labelAt_append _ there, gathered.files, List.append_assoc]
    rw [List.mem_map, List.mem_filter, mem_known, List.isPrefixOf_iff_prefix]
    constructor
    · rintro ⟨file, listed, equal⟩
      obtain ⟨rfl, rfl⟩ := Prod.mk.inj equal
      obtain ⟨dirs, name, split, found⟩ := (DirTree.mem_located ascending).mp listed
      exact ⟨by rw [split, ← inside, found], List.prefix_append _ _⟩
    · rintro ⟨found, more, rfl⟩
      obtain ⟨dirs, name, split, _, plain, _⟩ := names_of_latest absolute found
      rcases List.eq_nil_or_concat more with rfl | ⟨dirs', last, rfl⟩
      · -- no directory has the name of a file
        have last : name ∈ names := by
          rw [← List.append_nil names, show names ++ [] = dirs ++ [name] from split]
          exact List.mem_append_right _ (List.mem_singleton_self _)
        exact absurd (List.mem_of_getLast? (isKnown.areSteps absolute name last).getLast?) plain
      · rw [List.concat_eq_append] at found ⊢
        refine ⟨(dirs' ++ [last], stat), (DirTree.mem_located ascending).mpr ⟨dirs', last, rfl, ?_⟩, rfl⟩
        rw [inside]
        exact found
  have stats := same.map (·.2)
  rwa [List.map_map] at stats

end Census
end BackupAtlas
