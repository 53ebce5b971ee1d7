import BackupAtlas.Config
import BackupAtlas.Proofs.Encodings
import BackupAtlas.Proofs.HostPaths
import BackupAtlas.TomlText

namespace BackupAtlas.Config

variable {config given : Config} {host : FilePath.Host}

/-- All paths of files are made absolute. -/
theorem files_normalize (config : Config) (host : FilePath.Host) :
    (config.normalize host).files = config.files.map fun path => FilePath.resolve path host := by
  cases fallback : config.journal.fallbackPath <;> simp [files, normalize, fallback]

/-- No value is repeated exactly if all are distinct and none was seen before. -/
theorem repeated?_eq_none {seen values : List String} :
    repeated? seen values = none ↔ values.Nodup ∧ ∀ value ∈ values, value ∉ seen := by
  induction values generalizing seen with
  | nil => simp [repeated?]
  | cons value values ih =>
    rw [repeated?]
    by_cases before : value ∈ seen
    · simp [before]
    · simp only [List.contains_eq_mem, decide_eq_true_eq, if_neg before, ih, List.nodup_cons, List.mem_cons, not_or]
      grind

/-- What is checked of a configuration. -/
structure Sound (config : Config) : Prop where
  ttl : 0 < config.cacheTtlSeconds
  maxSize : config.journal.enabled → 4096 ≤ config.journal.maxSizeBytes
  rotated : config.journal.enabled → 0 < config.journal.maxRotatedFiles
  apart : config.journal.enabled → config.journal.fallbackPath ≠ some config.journal.path
  distinct : config.snapshotFiles.Nodup

/-- Nothing speaks against exactly the sound configurations. -/
theorem objection?_eq_none : config.objection? = none ↔ config.Sound := by
  constructor
  · intro fine
    simp only [objection?] at fine
    split at fine
    · cases fine
    split at fine
    · cases fine
    split at fine
    · cases fine
    split at fine
    · cases fine
    rename_i ttl size rotated apart
    have distinct := repeated?_eq_none.mp (Option.map_eq_none_iff.mp fine)
    exact
      { ttl := Nat.pos_of_ne_zero ttl
        maxSize := fun enabled => Nat.not_lt.mp (not_and.mp size enabled)
        rotated := fun enabled => Nat.pos_of_ne_zero (not_and.mp rotated enabled)
        apart := not_and.mp apart
        distinct := distinct.1 }
  · rintro ⟨ttl, size, rotated, apart, distinct⟩
    simp only [objection?]
    rw [if_neg ttl.ne', if_neg (not_and.mpr fun enabled => Nat.not_lt.mpr (size enabled)),
      if_neg (not_and.mpr fun enabled => (rotated enabled).ne'), if_neg (not_and.mpr apart),
      repeated?_eq_none.mpr ⟨distinct, fun _ _ => List.not_mem_nil⟩]
    rfl

/-- What is loaded is what is configured, with absolute paths, and is sound. -/
theorem load_eq_ok {document : String → Option Datum} {disk : Disk} {home : Option String} {environment : Environment}
    {explicit : Option String} : load document disk home environment explicit host = .ok config ↔
      ∃ given, configured document disk home environment explicit = .ok given ∧
        config = given.normalize host ∧ config.Sound := by
  rw [load]
  cases configured document disk home environment explicit with
  | error fault => exact ⟨nofun, nofun⟩
  | ok given =>
    change (given.normalize host).validate.bind (fun _ => .ok (given.normalize host)) = .ok config ↔ _
    rw [validate]
    cases fine : (given.normalize host).objection? with
    | none =>
      constructor
      · intro loaded
        obtain rfl := Except.ok.inj loaded
        exact ⟨given, rfl, rfl, objection?_eq_none.mp fine⟩
      · rintro ⟨_, same, rfl, _⟩
        obtain rfl := Except.ok.inj same
        rfl
    | some details =>
      refine ⟨nofun, ?_⟩
      rintro ⟨_, same, rfl, sound⟩
      obtain rfl := Except.ok.inj same
      rw [objection?_eq_none.mpr sound] at fine
      cases fine

section

variable {document : String → Option Datum} {disk : Disk} {home : Option String} {environment : Environment}
  {explicit : Option String} {dir : String}

/-- Where no path that is configured leads to anything, all are made absolute and tidy, however documents are read. To do
so again changes nothing, unless something is where the tidy path leads, as it need not go through what is missing.
However they are spelled, no two snapshots are then the same, nor are the two files of a journal that is in use. Going up
stops at the root. -/
theorem load_tidies (here : host.workDir = some dir) (rooted : FilePath.isAbsolute dir)
    (told : configured document disk home environment explicit = .ok given)
    (absent : ∀ path ∈ given.files, host.real? (host.absolute path) = none)
    (loaded : load document disk home environment explicit host = .ok config) :
    config.files = given.files.map (fun path => FilePath.tidy (host.absolute path)) ∧
      (∀ path ∈ config.files, FilePath.IsPlain path ∧ FilePath.tidy path = path ∧
        (host.real? path = none → FilePath.resolve path host = path)) ∧
      given.snapshotFiles.Pairwise (fun one other => FilePath.resolve one host ≠ FilePath.resolve other host) ∧
      (config.journal.enabled → config.journal.fallbackPath ≠ some config.journal.path) ∧
      ∀ path, FilePath.isAbsolute path → FilePath.IsPlain (FilePath.tidy path) ∧
        ∀ rest, FilePath.tidy path = "/" → FilePath.tidy (path ++ "/../" ++ rest) = FilePath.tidy ("/" ++ rest) := by
  obtain ⟨_, same, rfl, sound⟩ := load_eq_ok.mp loaded
  obtain rfl := Except.ok.inj (told.symm.trans same)
  have files : (given.normalize host).files = given.files.map fun path => FilePath.tidy (host.absolute path) := by
    rw [files_normalize]
    exact List.map_congr_left fun path member => FilePath.resolve_of_absent (absent path member)
  refine ⟨files, fun path member => ?_, List.pairwise_map.mp sound.distinct, sound.apart, fun path absolute =>
    ⟨FilePath.isPlain_tidy absolute, fun rest top => FilePath.tidy_up absolute top rest⟩⟩
  rw [files] at member
  obtain ⟨spelled, _, rfl⟩ := List.mem_map.mp member
  have absolute := FilePath.isAbsolute_absolute here rooted spelled
  have plain := FilePath.isPlain_tidy absolute
  have still : host.absolute (FilePath.tidy (host.absolute spelled)) = FilePath.tidy (host.absolute spelled) :=
    FilePath.absolute_of_isAbsolute plain.1
  refine ⟨plain, FilePath.tidy_tidy absolute, fun gone => ?_⟩
  rw [FilePath.resolve_of_absent (still.symm ▸ gone), still, FilePath.tidy_tidy absolute]

end

/-- A file and the environment spell paths in many ways, one of them leading above the root. -/
theorem load_tidies_spelled :
    let text := "[rules]\ndatabase = \"../../../db\"\n[journal]\npath = \"log//./j\"\n[snapshots]\nfiles = [\"gone\"]\n"
    let disk : Disk := { entries := [(["c"], .file 0)], contents := [Utf8.encode text] }
    let environment := [("BRT_SNAPSHOT_FILES", "a/../s::/s/./t/"), ("BRT_JOURNAL_FALLBACK_PATH", "log/k/..")]
    let host : FilePath.Host := { workDir := some "/w/d" }
    ∃ given config, configured TomlText.parse disk (some "/h") environment (some "/c") = .ok given ∧
      given.files = ["../../../db", "log//./j", "log/k/..", "a/../s", "/s/./t/"] ∧
      load TomlText.parse disk (some "/h") environment (some "/c") host = .ok config ∧
      config.files = ["/db", "/w/d/log/j", "/w/d/log", "/w/d/s", "/s/t"] ∧
      ∀ path ∈ config.files, FilePath.IsPlain path ∧ FilePath.resolve path host = path := by
  intro text disk environment host
  have read : (configured TomlText.parse disk (some "/h") environment (some "/c")).map
      (fun given => (given.files, (given.normalize host).objection?)) =
        .ok (["../../../db", "log//./j", "log/k/..", "a/../s", "/s/./t/"], none) := by decide +kernel
  obtain ⟨given, told, facts⟩ := map_eq_ok_iff.mp read
  obtain ⟨spelled, fine⟩ := Prod.mk.inj facts
  have loaded := load_eq_ok.mpr ⟨given, told, rfl, objection?_eq_none.mp fine⟩
  have tidied : (given.normalize host).files = ["/db", "/w/d/log/j", "/w/d/log", "/w/d/s", "/s/t"] := by
    rw [files_normalize, spelled]
    decide +kernel
  refine ⟨given, given.normalize host, told, spelled, loaded, tidied, fun path member => ?_⟩
  obtain ⟨plain, _, again⟩ := (load_tidies rfl rfl told (fun _ _ => rfl) loaded).2.1 path member
  exact ⟨plain, again rfl⟩

/-- A path that leads nowhere can be tidied into one that is a link. The path that is configured is then known by that
link, and to make it absolute again leads on to what the link stands for. -/
theorem load_stops_at_link : ∃ (disk : Disk) (host : FilePath.Host) (given config : Config),
    host.workDir = some "/" ∧ host.real? "/link" = some "/target" ∧
    configured TomlText.parse disk none [] (some "/c") = .ok given ∧ given.database = "/missing/../link" ∧
    (∀ path ∈ given.files, host.real? (host.absolute path) = none) ∧
    load TomlText.parse disk none [] (some "/c") host = .ok config ∧ config.database = "/link" ∧
    FilePath.resolve config.database host = "/target" := by
  let disk : Disk :=
    { entries := [(["c"], .file 0)], contents := [Utf8.encode "[rules]\ndatabase = \"/missing/../link\"\n"] }
  let host : FilePath.Host :=
    { workDir := some "/", real? := fun path => if path = "/link" then some "/target" else none }
  have read : (configured TomlText.parse disk none [] (some "/c")).map
      (fun given => (given.files, (given.normalize host).objection?)) =
        .ok (["/missing/../link", "/tmp/.local/share/ruletree/activity.jsonl"], none) := by decide +kernel
  obtain ⟨given, told, facts⟩ := map_eq_ok_iff.mp read
  obtain ⟨spelled, fine⟩ := Prod.mk.inj facts
  have database : given.database = "/missing/../link" := (List.cons.inj spelled).1
  have loaded := load_eq_ok.mpr ⟨given, told, rfl, objection?_eq_none.mp fine⟩
  have tidied : (given.normalize host).database = "/link" := by
    change FilePath.resolve given.database host = "/link"
    rw [database]
    decide +kernel
  refine ⟨disk, host, given, given.normalize host, rfl, rfl, told, database, ?_, loaded, tidied, ?_⟩
  · rw [spelled]
    decide +kernel
  · rw [tidied]
    decide +kernel

end BackupAtlas.Config
