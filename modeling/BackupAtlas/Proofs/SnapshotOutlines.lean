import BackupAtlas.Proofs.KnownFiles
import BackupAtlas.Proofs.Outlines

namespace BackupAtlas

open TreePath

namespace Census

/-- The statistics of a directory, from its files and those of its subdirectories. -/
def figures (tree : DirTree CensusDir) : DirStat := stat tree.label ((nodes tree.below).map (·.2))

/-- Files before other nodes. -/
def leaves : List (String × FileStat) → Outline → Outline
  | [], others => others
  | (name, file) :: files, others => .entry name file.encode none .done (leaves files others)

def sketch : Forest CensusDir → Outline
  | .nil => .done
  | .cons name dir below rest =>
    .entry name (figures ⟨dir, below⟩).encode none (leaves dir.files.entries (sketch below)) (sketch rest)

/-- A directory as it is written, with everything below it. -/
def dirPart (tree : DirTree CensusDir) : BackupAtlas.Part where
  data := (figures tree).encode
  below := leaves tree.label.files.entries (sketch tree.below)

def filePart (stat : FileStat) : BackupAtlas.Part where
  data := stat.encode
  below := .done

theorem pieces_leaves (files : List (String × FileStat)) (others : Outline) : (leaves files others).pieces =
    files.map (fun entry => ⟨entry.1, .ofNode entry.2.encode []⟩) ++ others.pieces := by
  induction files with
  | nil => rfl
  | cons entry files ih =>
    rw [List.map_cons, List.cons_append, ← ih]
    rfl

/-- The outline of subdirectories stands for the pieces that are written for them. -/
theorem pieces_sketch (forest : Forest CensusDir) : (sketch forest).pieces = (nodes forest).map (·.1) := by
  induction forest with
  | nil => rfl
  | cons name dir below rest ihBelow ih =>
    have first : (sketch (.cons name dir below rest)).pieces =
        ⟨name, .ofNode (figures ⟨dir, below⟩).encode (leaves dir.files.entries (sketch below)).pieces⟩ ::
          (sketch rest).pieces := rfl
    rw [first, pieces_leaves, ihBelow, ih]
    rfl

theorem node_eq (name : String) (tree : DirTree CensusDir) :
    (node name tree.label (nodes tree.below)).1 = ⟨name, (dirPart tree).block⟩ := by
  rw [Part.block, dirPart, pieces_leaves, pieces_sketch]
  rfl

theorem find?_leaves (name : String) (files : List (String × FileStat)) (others : Outline) :
    (leaves files others).find? name = ((Entries.get? name files).map filePart).or (others.find? name) := by
  induction files with
  | nil => rfl
  | cons entry files ih =>
    rw [leaves, Outline.find?, Entries.get?, ih]
    split <;> rfl

theorem find?_sketch (name : String) (forest : Forest CensusDir) :
    (sketch forest).find? name = (forest.find? name).map fun found => dirPart ⟨found.1, found.2⟩ := by
  induction forest with
  | nil => rfl
  | cons key dir below rest _ ih =>
    rw [sketch, Outline.find?, Forest.find?, ih]
    split <;> rfl

theorem names_leaves (files : List (String × FileStat)) (others : Outline) :
    (leaves files others).names = files.map (·.1) ++ others.names := by
  induction files with
  | nil => rfl
  | cons entry files ih =>
    rw [List.map_cons, List.cons_append, ← ih]
    rfl

theorem names_sketch (forest : Forest CensusDir) : (sketch forest).names = forest.names := by
  induction forest with
  | nil => rfl
  | cons name dir below rest _ ih => rw [sketch, Outline.names, ih, Forest.names]

theorem distinct_leaves {files : List (String × FileStat)} {others : Outline} (distinct : others.Distinct)
    (apart : (leaves files others).names.Nodup) : (leaves files others).Distinct := by
  induction files with
  | nil => exact distinct
  | cons entry files ih =>
    obtain ⟨fresh, apart⟩ := List.nodup_cons.mp apart
    exact ⟨fresh, trivial, ih apart⟩

variable {tree : DirTree CensusDir}

theorem step_of_mem {forest : Forest CensusDir} (neat : forest.Neat) {name : String} (member : name ∈ forest.names) :
    IsStep name.toList := by
  induction forest with
  | nil => exact absurd member List.not_mem_nil
  | cons key dir below rest _ ih =>
    rcases List.mem_cons.mp member with rfl | later
    · exact neat.1
    · exact ih neat.2.2.2.2 later

theorem names_ascending {forest : Forest CensusDir} (neat : forest.Neat) : forest.names.Pairwise (· < ·) := by
  induction forest with
  | nil => exact .nil
  | cons key dir below rest _ ih => exact List.pairwise_cons.mpr ⟨neat.2.2.1, ih neat.2.2.2.2⟩

/-- No file has the name of a subdirectory. -/
theorem Tidy.apart (tidy : Tidy tree) {name : String} {stat : FileStat}
    (file : tree.label.files.get? name = some stat) : tree.below.find? name = none := by
  refine Forest.find?_eq_none.mpr fun member => ?_
  have plain := (tidy.1 (name, stat) (Catalog.get?_eq_some.mp file)).2
  exact plain (List.mem_of_getLast? (step_of_mem tidy.2 member).getLast?)

theorem nodup_names {dir : CensusDir} {forest : Forest CensusDir} (plain : dir.Plain) (neat : forest.Neat) :
    (leaves dir.files.entries (sketch forest)).names.Nodup := by
  rw [names_leaves, names_sketch]
  refine List.nodup_append.mpr ⟨?_, nodup_of_ascending (names_ascending neat), ?_⟩
  · exact nodup_of_ascending (List.pairwise_map.mpr dir.files.ascending)
  · rintro name first _ second rfl
    obtain ⟨entry, listed, rfl⟩ := List.mem_map.mp first
    exact (plain entry listed).2 (List.mem_of_getLast? (step_of_mem neat second).getLast?)

theorem sketch_distinct {forest : Forest CensusDir} (neat : forest.Neat) : (sketch forest).Distinct := by
  induction forest with
  | nil => trivial
  | cons name dir below rest ihBelow ih =>
    obtain ⟨_, plain, above, neatBelow, neatRest⟩ := neat
    refine ⟨?_, distinct_leaves (ihBelow neatBelow) (nodup_names plain neatBelow), ih neatRest⟩
    rw [names_sketch]
    exact fun member => String.lt_irrefl _ (above name member)

theorem Tidy.distinct (tidy : Tidy tree) : (dirPart tree).below.Distinct :=
  distinct_leaves (sketch_distinct tidy.2) (nodup_names tidy.1 tidy.2)

theorem neat_find? {forest below : Forest CensusDir} (neat : forest.Neat) {name : String} {dir : CensusDir}
    (found : forest.find? name = some (dir, below)) : Tidy ⟨dir, below⟩ := by
  induction forest with
  | nil => exact absurd found (by simp [Forest.find?])
  | cons key dir' below' rest _ ih =>
    rw [Forest.find?] at found
    split at found
    · cases found
      exact ⟨neat.2.1, neat.2.2.2.1⟩
    · exact ih neat.2.2.2.2 found

theorem Tidy.sub? (tidy : Tidy tree) {names : List String} {inner : DirTree CensusDir}
    (there : tree.sub? names = some inner) : Tidy inner := by
  induction names generalizing tree with
  | nil => exact Option.some.inj there ▸ tidy
  | cons name names ih =>
    obtain ⟨⟨dir, below⟩, found, led⟩ := Option.bind_eq_some_iff.mp there
    exact ih (neat_find? tidy.2 found) led

/-- The file to which names lead. -/
def file? (names : List String) (tree : DirTree CensusDir) : Option FileStat :=
  names.getLast?.bind (DirTree.labelAt .empty names.dropLast (tree.map CensusDir.files)).get?

/-- Names lead to the directory or the file to which they lead in the census. -/
theorem Tidy.descend? (tidy : Tidy tree) (names : List String) : (dirPart tree).descend? names =
    ((tree.sub? names).map dirPart).or ((file? names tree).map filePart) := by
  induction names using List.reverseRecOn with
  | nil => rfl
  | append_singleton names name ih =>
    have file : file? (names ++ [name]) tree = (DirTree.labelAt .empty names (tree.map CensusDir.files)).get? name := by
      rw [file?, List.getLast?_concat, List.dropLast_concat, Option.bind_some]
    rw [Part.descend?_append, ih, file, DirTree.sub?_append, DirTree.labelAt, DirTree.sub?_map]
    cases there : tree.sub? names with
    | none => cases file? names tree <;> rfl
    | some inner =>
      have sub : inner.sub? [name] = (inner.below.find? name).map fun found => ⟨found.1, found.2⟩ := by
        rw [DirTree.sub?]
        cases inner.below.find? name <;> rfl
      have found := find?_leaves name inner.label.files.entries (sketch inner.below)
      rw [find?_sketch] at found
      rw [Option.map_some, Option.some_or, Option.bind_some, Part.descend?_single, dirPart, found, Option.bind_some,
        sub]
      change ((inner.label.files.get? name).map filePart).or _ = _
      cases file : inner.label.files.get? name with
      | none =>
        simp [DirTree.map, file]
        rfl
      | some stat =>
        rw [(tidy.sub? there).apart file]
        simp [DirTree.map, file]

end Census
end BackupAtlas
