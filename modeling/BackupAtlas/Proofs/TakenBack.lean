import BackupAtlas.Proofs.RegistryRuns

namespace BackupAtlas

namespace Registry

variable {σ : Type}

/-- The error of a change that fails. -/
def error? {α : Type} : EStateM.Result Error (Registry σ) α → Option Error
  | .ok _ _ => none
  | .error e _ => some e

theorem exists_error {α : Type} {result : EStateM.Result Error (Registry σ) α} {e : Error} (failed : error? result = some e) :
    ∃ next, result = .error e next := by
  cases result with
  | ok => cases failed
  | error other next => exact ⟨next, by rw [Option.some.inj failed]⟩

variable {registry : Registry σ} [RuleStore σ]

/-- No update of a rule fails in a run. -/
def Steady (registry : Registry σ) : List (Timing × Op) → Prop
  | [] => True
  | (timing, op) :: ops =>
    (∀ dir rule e next, op = .updateRule dir rule → op.perform timing registry ≠ .error e next) ∧
      Steady (op.leaves timing registry) ops

/-- Only updates can be taken back in a way that shows. -/
theorem steady_of_forall {ops : List (Timing × Op)} (others : ∀ entry ∈ ops, ∀ dir rule, entry.2 ≠ .updateRule dir rule) :
    registry.Steady ops := by
  induction ops generalizing registry with
  | nil => trivial
  | cons entry ops ih =>
    exact ⟨fun dir rule _ _ same => absurd same (others entry List.mem_cons_self dir rule),
      ih fun next member => others next (List.mem_cons_of_mem _ member)⟩

/-- What can be read from a store. -/
def Reads (store : σ) (directories : List Directory) (rules : List Rule) : Prop :=
  RuleStore.readDirectories store = .ok directories store ∧ RuleStore.readRules store = .ok rules store

variable [RuleStore.Lawful σ] {room : Nat} {store : σ} {timed : Prop}

open RuleStore.Lawful (Holds)

/-- Times agree, too, as long as no update of a rule fails. -/
theorem Agrees.afterSteady {ops : List (Timing × Op)}
    (agrees : Agrees (creations ops + room) timed (fun _ => True) registry.store registry.atlas)
    (steady : timed → registry.Steady ops) :
    Agrees room timed (fun _ => True) (registry.afterRun ops).store (registry.afterRun ops).atlas := by
  induction ops generalizing registry with
  | nil => exact agrees.spent
  | cons entry ops ih =>
    rw [creations_cons, Nat.add_assoc] at agrees
    have here := agrees.leaves entry.2 entry.1 (fun counts => Or.inr (steady counts).1) fun _ _ _ _ => trivial
    exact ih here fun counts => (steady counts).2

/-- Over a store that does not run out of ids, an operation that fails leaves claims, rules, snapshots and names as they
were, and with them whatever can be asked; and the records that it leaves in the store are those that were there, but
that the record of one rule may have another time of its last change. This is what an update leaves that cannot be
applied. All records are the same when no update has failed before. -/
theorem failed_operation_taken_back {config : Config} {names : NameTable} {timing : Timing} {disk : Disk}
    {directories : List Directory} {rules : List Rule} {ops : List (Timing × Op)} {op : Op}
    (kept : Holds (creations ops + op.creations) store directories rules)
    (begun : start config names timing store disk = .ok registry) (time : Timing)
    {e : Error} {next : Registry σ} (failed : op.perform time (registry.afterRun ops) = .error e next) :
    next.atlas = (registry.afterRun ops).atlas ∧ next.names = (registry.afterRun ops).names ∧
      ∃ directories rules rules', Reads (registry.afterRun ops).store directories rules ∧
        Reads next.store directories rules' ∧ op.Spares time (registry.afterRun ops).atlas rules rules' ∧
        (registry.Steady ops → (∀ dir rule, op ≠ .updateRule dir rule) → rules' = rules) := by
  have agrees : ∀ timed, (timed → registry.Steady ops) →
      Agrees op.creations timed (fun _ => True) (registry.afterRun ops).store (registry.afterRun ops).atlas :=
    fun timed => (start_agrees_rules kept begun).afterSteady
  obtain ⟨directories, rules, held, recorded, _⟩ := agrees False False.elim
  have settles : Settles (Agrees 0 False fun _ => True) _ (op.perform time (registry.afterRun ops)) :=
    op.settles held recorded time fun _ _ _ _ => trivial
  rw [failed] at settles
  obtain ⟨rules', spares, undone⟩ := settles
  refine ⟨undone.atlas, undone.names, directories, rules, rules', RuleStore.Lawful.reads held,
    RuleStore.Lawful.reads undone.held, spares, fun steady other => ?_⟩
  have exactly := (agrees True fun _ => steady).recorded held
  cases spares with
  | all => rfl
  | updateRule => exact absurd rfl (other _ _)
  | removeRule known => exact exactly.map_redated known

/-- A rule that cannot be removed, as the texts of two claims collide. -/
theorem failed_operation_taken_back_removal : ∃ (config : Config) (ops : List (Timing × Op)),
    ops = [(⟨0, 0⟩, .claim "/a/" "b"), (⟨1000, 0⟩, .createRule "/a/" { pattern := "*" }), (⟨2000, 0⟩, .claim "/*/" "c")] ∧
    ∃ registry next, start config {} ⟨0, 0⟩ ({} : MemoryStore) {} = .ok registry ∧
      (Op.removeRule "/a/" "*").perform ⟨3000, 0⟩ (registry.afterRun ops) = .error (.patternConflict "/*/") next ∧
      next.atlas = (registry.afterRun ops).atlas ∧ ∃ directories rules,
        Reads (registry.afterRun ops).store directories rules ∧ Reads next.store directories rules := by
  let config : Config := { Config.default none with journal := { enabled := false, path := "journal" } }
  let ops : List (Timing × Op) := [(⟨0, 0⟩, .claim "/a/" "b"), (⟨1000, 0⟩, .createRule "/a/" { pattern := "*" }),
    (⟨2000, 0⟩, .claim "/*/" "c")]
  have fails : ∃ registry, start config {} ⟨0, 0⟩ ({} : MemoryStore) {} = .ok registry ∧
      error? ((Op.removeRule "/a/" "*").perform ⟨3000, 0⟩ (registry.afterRun ops)) = some (.patternConflict "/*/") :=
    exists_outcome (by decide +kernel)
  obtain ⟨registry, begun, failed⟩ := fails
  obtain ⟨next, ran⟩ := exists_error failed
  obtain ⟨atlas, _, directories, rules, rules', before, left, _, same⟩ :=
    failed_operation_taken_back (MemoryStore.holds_empty (by decide)) begun _ ran
  have steady : registry.Steady ops := steady_of_forall (by
    simp only [ops, List.forall_mem_cons]
    exact ⟨nofun, nofun, nofun, fun entry none => absurd none List.not_mem_nil⟩)
  exact ⟨config, ops, rfl, registry, next, begun, ran, atlas, directories, rules, before, same steady nofun ▸ left⟩

/-- An update that cannot be applied is taken back, but for its time. -/
theorem failed_update_leaves_time : ∃ (config : Config) (ops : List (Timing × Op)),
    ops = [(⟨0, 0⟩, .claim "/a/" "b"), (⟨1000, 0⟩, .createRule "/a/" { pattern := "*" }), (⟨2000, 0⟩, .claim "/*/" "c")] ∧
    ∃ registry, start config {} ⟨0, 0⟩ ({} : MemoryStore) {} = .ok registry ∧
      (registry.afterRun ops).store.rules.values.map (fun rule => (rule.pattern, rule.modified)) = [("*", 1)] ∧
      error? ((Op.updateRule "/a/" { id := 1, pattern := "x" }).perform ⟨4000, 0⟩ (registry.afterRun ops)) =
        some (.patternConflict "/*/") ∧
      ((Op.updateRule "/a/" { id := 1, pattern := "x" }).leaves ⟨4000, 0⟩ (registry.afterRun ops)).store.rules.values.map
        (fun rule => (rule.pattern, rule.modified)) = [("*", 4)] :=
  ⟨{ Config.default none with journal := { enabled := false, path := "journal" } }, _, rfl,
    exists_outcome (by decide +kernel)⟩

end Registry
end BackupAtlas
