import BackupAtlas.Proofs.TakenBack
import BackupAtlas.Proofs.TwinChanges

namespace BackupAtlas

namespace Recorded

variable {timed : Prop} {directories : List Directory} {rules : List Rule} {set : RuleSet} {number : Int → Int}

/-- Records of directories may be renumbered before or after they are looked up. -/
theorem mem_renumbered (recorded : Recorded timed directories rules set) (directory : Directory) :
    directory ∈ directories.map (Directory.renumbered number) ↔
      (set.renumbered number).directory? directory.path = some directory := by
  rw [RuleSet.directory?_renumbered, Option.map_eq_some_iff, List.mem_map]
  constructor
  · rintro ⟨d, member, rfl⟩
    exact ⟨d, (recorded.claims d).mp member, rfl⟩
  · rintro ⟨d, known, rfl⟩
    exact ⟨d, recorded.mem_of_known known, rfl⟩

theorem mem_renumbered_rules (recorded : Recorded timed directories rules set) (rule : Rule) :
    rule ∈ rules.map (Rule.renumbered number) ↔
      ∃ path, (set.renumbered number).rule? path rule.pattern = some rule := by
  have same : ∀ {row rule : Rule}, row.Alike timed rule → row.renumbered number = rule.renumbered number :=
    fun {row rule} alike => show row.undated.renumbered number = rule.undated.renumbered number by rw [alike.1]
  rw [List.mem_map]
  constructor
  · rintro ⟨row, member, rfl⟩
    obtain ⟨path, rule, known, alike⟩ := recorded.known row member
    refine ⟨path, ?_⟩
    rw [RuleSet.rule?_renumbered, Rule.renumbered_pattern, known, Option.map_some, same alike]
  · rintro ⟨path, found⟩
    rw [RuleSet.rule?_renumbered, Option.map_eq_some_iff] at found
    obtain ⟨known, found, rfl⟩ := found
    obtain ⟨row, member, alike⟩ := recorded.stored _ _ known found
    exact ⟨row, member, same alike⟩

end Recorded

namespace Registry

variable {σ τ : Type} {number : Int → Int} {floor : Int} {room : Nat}

section

variable [RuleStore σ]

/-- What an operation answers, or why it fails. -/
def Op.answer (timing : Timing) (registry : Registry σ) (op : Op) : Except Error Answer :=
  match op.perform timing registry with
  | .ok answer _ => .ok answer
  | .error e _ => .error e

/-- What the operations of a run answer, one after another. -/
def answers (registry : Registry σ) : List (Timing × Op) → List (Except Error Answer)
  | [] => []
  | (timing, op) :: ops => op.answer timing registry :: answers (op.leaves timing registry) ops

end

/-- Whether a directory cannot be claimed since it is claimed already. -/
def taken : Except Error Answer → Bool
  | .error (.alreadyClaimed _) => true
  | _ => false

open RuleStore.Lawful (Holds)
open RuleStore.Counted (lasts)

namespace Twins

section

variable [RuleStore σ] [RuleStore.Lawful σ] [RuleStore.Counted σ] [RuleStore τ] [RuleStore.Lawful τ] [RuleStore.Counted τ]
variable {m : Registry σ} {d : Registry τ}

/-- The records in both stores are the same, but for the numbers of directories and for times. -/
theorem records (twins : Twins number floor room m d) (increasing : Increasing number) :
    ∃ directories rules directories' rules', Reads m.store directories rules ∧ Reads d.store directories' rules' ∧
      directories.map (Directory.renumbered number) = directories'.map (Directory.renumbered id) ∧
      rules.map (Rule.renumbered number) = rules'.map (Rule.renumbered id) := by
  obtain ⟨near, ⟨directories, rules, kept, recorded, _⟩, directories', rules', kept', recorded', _⟩ := twins
  obtain ⟨first, second⟩ := RuleStore.Lawful.ascending kept
  obtain ⟨first', second'⟩ := RuleStore.Lawful.ascending kept'
  refine ⟨directories, rules, directories', rules', RuleStore.Lawful.reads kept, RuleStore.Lawful.reads kept', ?_, ?_⟩
  · have ascends : (directories.map (Directory.renumbered number)).Pairwise (·.id < ·.id) :=
      List.pairwise_map.mpr (first.imp fun less => increasing _ _ less)
    have ascends' : (directories'.map (Directory.renumbered id)).Pairwise (·.id < ·.id) :=
      List.pairwise_map.mpr first'
    refine eq_of_ascending (fun less more => by omega) ascends' ascends fun directory => ?_
    rw [recorded.mem_renumbered, recorded'.mem_renumbered, near.rules]
  · have ascends : (rules.map (Rule.renumbered number)).Pairwise (·.id < ·.id) := List.pairwise_map.mpr second
    have ascends' : (rules'.map (Rule.renumbered id)).Pairwise (·.id < ·.id) := List.pairwise_map.mpr second'
    refine eq_of_ascending (fun less more => by omega) ascends' ascends fun rule => ?_
    rw [recorded.mem_renumbered_rules, recorded'.mem_renumbered_rules, near.rules]

end

variable {m : Registry MemoryStore} {d : Registry Database}

/-- Each operation ends on both alike. Numbers of new directories change when one is refused. -/
theorem perform_abreast (op : Op) (twins : Twins number floor (op.creations + room) m d) (increasing : Increasing number)
    (timing timing' : Timing) : ∃ number' : Int → Int,
      Continues number (lasts m.store).directory (if taken (op.answer timing m) then 1 else 0) number' ∧
      Abreast (fun a m b d => Alike number' floor room a m b d) (fun _ m d => Near number' floor room m d)
        (op.perform timing m) (op.perform timing' d) := by
  have same : ∀ {result : EStateM.Result Error (Registry MemoryStore) Answer}
      {result' : EStateM.Result Error (Registry Database) Answer},
      Abreast (fun a m b d => Alike number floor room a m b d) (fun _ m d => Near number floor room m d) result result' →
      ∃ number' : Int → Int,
        Continues number (lasts m.store).directory (if taken (op.answer timing m) then 1 else 0) number' ∧
        Abreast (fun a m b d => Alike number' floor room a m b d) (fun _ m d => Near number' floor room m d) result
          result' :=
    fun abreast => ⟨number, .refl increasing _ _, abreast⟩
  cases op with
  | claim path claimedBy =>
    cases claimed : m.atlas.directory? path with
    | none =>
      exact same (Abreast.bind (twins.claim_abreast claimed timing timing' claimedBy) fun _ _ _ _ alike => .ok alike)
    | some claim =>
      -- Only here do the numbers change: the database loses an id, and the store in memory does not.
      obtain ⟨left, here, there, near⟩ := twins.claim_refused claimed timing timing' claimedBy
      refine ⟨_, ?_, Abreast.bind_error here there near⟩
      rw [Op.answer, Op.perform, bind_eq, here]
      exact .shifted increasing _
  | passClaim path claimedBy =>
    have twins : Twins number floor room m d := twins.spent
    exact same (Abreast.bind (twins.passClaim_abreast timing timing' path claimedBy) fun _ _ _ _ alike => .ok alike)
  | revoke path =>
    have twins : Twins number floor room m d := twins.spent
    exact same (Abreast.bind (twins.revoke_abreast timing timing' path) fun _ _ _ _ alike => .ok alike)
  | createRule dir rule =>
    exact same (Abreast.bind (twins.createRule_abreast timing timing' dir rule) fun _ _ _ _ alike => .ok alike)
  | createRules batch =>
    exact same (Abreast.bind (twins.createRules_abreast timing timing') fun _ _ _ _ alike => .ok alike)
  | removeRule dir pattern =>
    have twins : Twins number floor room m d := twins.spent
    exact same (Abreast.bind (twins.removeRule_abreast timing timing' dir pattern) fun _ _ _ _ alike => .ok alike)
  | updateRule dir rule =>
    have twins : Twins number floor room m d := twins.spent
    exact same (Abreast.bind (twins.updateRule_abreast timing timing' dir rule) fun _ _ _ _ alike => .ok alike)
  | addTree disk path =>
    have near : Near number floor room { m with disk } { d with disk } := ⟨twins.atlas, twins.paced.spent⟩
    have opens : (modify fun registry => { registry with disk } : Change MemoryStore Unit) m = .ok () { m with disk } := rfl
    have opens' : (modify fun registry => { registry with disk } : Change Database Unit) d = .ok () { d with disk } := rfl
    exact same ((Abreast.bind_ok opens opens').mpr
      (Abreast.bind (near.addTree_abreast timing timing' path rfl) fun _ _ _ _ alike => .ok alike))

/-- What an operation answers and leaves on both. -/
theorem step (op : Op) (twins : Twins number floor (op.creations + room) m d) (increasing : Increasing number)
    (timing timing' : Timing) : ∃ number' : Int → Int,
      Continues number (lasts m.store).directory (if taken (op.answer timing m) then 1 else 0) number' ∧
      (op.answer timing m).map (Answer.renumbered number') = (op.answer timing' d).map (Answer.renumbered id) ∧
      (∀ answer, op.answer timing m = .ok answer → answer.Within (lasts (op.leaves timing m).store).directory) ∧
      Twins number' floor room (op.leaves timing m) (op.leaves timing' d) := by
  obtain ⟨number', continues, abreast⟩ := twins.perform_abreast op increasing timing timing'
  have agrees := twins.agrees.leaves op timing False.elim fun _ _ _ _ => trivial
  have agrees' := twins.agrees'.leaves op timing' False.elim fun _ _ _ _ => trivial
  have near : Near number' floor room (op.leaves timing m) (op.leaves timing' d) := by
    rw [Op.leaves_eq, Op.leaves_eq, after, after]
    generalize op.perform timing m = result at abreast
    generalize op.perform timing' d = result' at abreast
    cases abreast with
    | ok alike => exact alike.toNear
    | error near => exact near
  refine ⟨number', continues, ?_, ?_, near, agrees, agrees'⟩
  · rw [Op.answer, Op.answer]
    generalize op.perform timing m = result at abreast
    generalize op.perform timing' d = result' at abreast
    cases abreast with
    | ok alike => exact congrArg Except.ok alike.same
    | error near => rfl
  · rw [Op.answer, Op.leaves_eq, after]
    generalize op.perform timing m = result at abreast
    generalize op.perform timing' d = result' at abreast
    cases abreast with
    | ok alike =>
      intro answer same
      exact Except.ok.inj same ▸ alike.within
    | error near =>
      intro answer same
      cases same

/-- The run as a whole. The numbers of ids that have been given out before stay. -/
theorem run {ops ops' : List (Timing × Op)} (same : ops.map (·.2) = ops'.map (·.2))
    (twins : Twins number floor (creations ops + room) m d) (increasing : Increasing number) :
    ∃ number' : Int → Int, Continues number (lasts m.store).directory ((answers m ops).countP taken) number' ∧
      (answers m ops).map (Except.map (Answer.renumbered number')) =
        (answers d ops').map (Except.map (Answer.renumbered id)) ∧
      Twins number' (lasts m.store).directory room (m.afterRun ops) (d.afterRun ops') := by
  induction ops generalizing ops' number floor m d with
  | nil =>
    rw [List.map_eq_nil_iff.mp same.symm]
    exact ⟨number, .refl increasing _ _, rfl, twins.spent.fromHere⟩
  | cons entry ops ih =>
    cases ops' with
    | nil => cases same
    | cons entry' ops' =>
      obtain ⟨timing, op⟩ := entry
      obtain ⟨timing', op'⟩ := entry'
      obtain ⟨sameOp, sameRest⟩ := List.cons.inj same
      obtain rfl : op = op' := sameOp
      rw [creations_cons, Nat.add_assoc] at twins
      obtain ⟨middle, continues, first, within, twinsMiddle⟩ := twins.fromHere.step op increasing timing timing'
      have reached := twinsMiddle.paced.reached
      obtain ⟨number', continues', rest, left⟩ := ih sameRest twinsMiddle continues.increasing
      -- Ids that are lost later do not touch the numbers in this answer.
      have still : (op.answer timing m).map (Answer.renumbered number') =
          (op.answer timing m).map (Answer.renumbered middle) := by
        cases answered : op.answer timing m with
        | ok answer => exact congrArg Except.ok ((within answer answered).renumbered_eq continues'.known)
        | error e => rfl
      refine ⟨number', ?_, ?_, left.lower reached⟩
      · rw [answers, List.countP_cons]
        exact continues.trans continues' reached
      · rw [answers, answers, List.map_cons, List.map_cons, still, first, rest]

end Twins

section

/-- The same registry with another store. -/
def keeping (store : τ) (registry : Registry σ) : Registry τ where
  config := registry.config
  names := registry.names
  store := store
  atlas := registry.atlas
  journal := registry.journal
  disk := registry.disk

variable {store : τ} {registry : Registry σ}

theorem note_keeping (timing : Timing) (event : JournalEvent) :
    note timing event (registry.keeping store) = seen id (keeping store) (note timing event registry) := rfl

theorem onAtlas_keeping {α : Type} (change : Atlas.Change α) :
    onAtlas change (registry.keeping store) = seen id (keeping store) (onAtlas change registry) := by
  rw [onAtlas, onAtlas, show (registry.keeping store).atlas = registry.atlas from rfl]
  cases change registry.atlas <;> rfl

theorem addTree_keeping (timing : Timing) (path : String) :
    addTree timing path (registry.keeping store) = seen id (keeping store) (addTree timing path registry) := by
  have got : (get : Change τ (Registry τ)) (registry.keeping store) =
    seen (keeping store) (keeping store) ((get : Change σ (Registry σ)) registry) := rfl
  refine seen_bind got fun before after _ => ?_
  exact seen_bind (onAtlas_keeping _) fun build last _ => rfl

theorem forM_addTree_keeping (timing : Timing) (paths : List String) :
    (paths.forM fun path => discard (addTree timing path) : Change τ Unit) (registry.keeping store) =
      seen id (keeping store) ((paths.forM fun path => discard (addTree timing path) : Change σ Unit) registry) := by
  induction paths generalizing registry with
  | nil => rfl
  | cons path paths ih =>
    have mounted : (discard (addTree timing path) : Change τ PUnit) (registry.keeping store) =
        seen id (keeping store) ((discard (addTree timing path) : Change σ PUnit) registry) := by
      rw [discard_eq, discard_eq, addTree_keeping]
      cases addTree timing path registry <;> rfl
    exact seen_bind mounted fun _ _ _ => ih

/-- Mounting the configured snapshots has nothing to do with the store. -/
theorem mountConfigured_keeping (config : Config) (timing : Timing) (atlas : Atlas) :
    mountConfigured config timing atlas (registry.keeping store) =
      seen id (keeping store) (mountConfigured config timing atlas registry) :=
  seen_bind (note_keeping _ _) fun _ _ _ => forM_addTree_keeping timing config.snapshotFiles

end

/-- Over empty stores both begin alike, or fail alike. -/
theorem start_twins (config : Config) (names : NameTable) (timing : Timing) (disk : Disk) (path : String)
    (space : room ≤ Database.maxId) :
    (∃ e store store' left, start config names timing ({} : MemoryStore) disk = .error (e, store, left) ∧
      start config names timing ({ path } : Database) disk = .error (e, store', left)) ∨
    ∃ m d, start config names timing ({} : MemoryStore) disk = .ok m ∧
      start config names timing ({ path } : Database) disk = .ok d ∧ Twins id 0 room m d := by
  have kept : Holds room ({} : MemoryStore) [] [] := MemoryStore.holds_empty (by
    have most : Database.maxId < Word.limit := by decide
    omega)
  have kept' : Holds room ({ path } : Database) [] [] := Database.holds_empty path
  have read := load_eq kept
  have read' := load_eq kept'
  cases loaded : RuleSet.ofRecords [] [] >>= Atlas.ofRules with
  | error e =>
    rw [loaded] at read read'
    exact Or.inl ⟨e, _, _, _, by rw [start, read], by rw [start, read']⟩
  | ok atlas =>
    rw [loaded] at read read'
    have begins := start_eq config names timing disk read
    have begins' := start_eq config names timing disk read'
    let bare := opened config names timing ({} : MemoryStore) atlas disk
    rw [show opened config names timing ({ path } : Database) atlas disk = bare.keeping { path } from rfl,
      mountConfigured_keeping] at begins'
    rw [show opened config names timing ({} : MemoryStore) atlas disk = bare.keeping {} from rfl,
      mountConfigured_keeping] at begins
    cases ran : mountConfigured config timing atlas bare with
    | error e left =>
      rw [ran] at begins begins'
      exact Or.inl ⟨e, _, _, _, begins, begins'⟩
    | ok done left =>
      rw [ran] at begins begins'
      refine Or.inr ⟨left.keeping {}, left.keeping { path }, begins, begins', ⟨rfl, ?_⟩, start_agrees_rules kept begins,
        start_agrees_rules kept' begins'⟩
      have none : lasts ({} : MemoryStore) = ⟨0, 0⟩ := rfl
      have none' : lasts ({ path } : Database) = ⟨0, 0⟩ := rfl
      show Lasts.Paced id 0 room (lasts ({} : MemoryStore)) (lasts ({ path } : Database))
      rw [none, none']
      exact ⟨rfl, Int.le_refl 0, Int.le_refl 0, fun n _ => by simp, by simpa using space, by simpa using space⟩

/-- The same operations over a store in memory and over the database, both empty, of which no more are done than there
are ids for: both begin, or fail with the same error, and each operation has the same answer or error on both, apart from
times. In the end both answer queries alike, and the same records can be read from both stores. Directories have the same
ids as long as no claim of a directory is refused since it is claimed already. With each of these claims the database may
move ahead by one. -/
theorem stores_interchangeable (config : Config) (names : NameTable) (timing : Timing) (disk : Disk) (path : String)
    {ops ops' : List (Timing × Op)} (same : ops.map (·.2) = ops'.map (·.2))
    (space : creations ops ≤ Database.maxId) :
    (∃ e store store' left, start config names timing ({} : MemoryStore) disk = .error (e, store, left) ∧
      start config names timing ({ path } : Database) disk = .error (e, store', left)) ∨
    ∃ m d, start config names timing ({} : MemoryStore) disk = .ok m ∧
      start config names timing ({ path } : Database) disk = .ok d ∧ ∃ number : Int → Int, Increasing number ∧
        Delayed id number ((answers m ops).countP taken) ∧
        (answers m ops).map (Except.map (Answer.renumbered number)) =
          (answers d ops').map (Except.map (Answer.renumbered id)) ∧
        Atlas.AnswersAlike number (m.afterRun ops).atlas (d.afterRun ops').atlas ∧
        ∃ directories rules directories' rules', Reads (m.afterRun ops).store directories rules ∧
          Reads (d.afterRun ops').store directories' rules' ∧
          directories.map (Directory.renumbered number) = directories'.map (Directory.renumbered id) ∧
          rules.map (Rule.renumbered number) = rules'.map (Rule.renumbered id) := by
  refine (start_twins config names timing disk path space).imp_right ?_
  rintro ⟨m, d, begun, begun', (twins : Twins id 0 (creations ops + 0) m d)⟩
  obtain ⟨number, continues, answered, left⟩ := twins.run same fun _ _ less => less
  exact ⟨m, d, begun, begun', number, continues.increasing, continues.delayed, answered, .of_renumbered left.atlas,
    left.records continues.increasing⟩

/-- Nothing differs as long as no claim is refused. -/
theorem stores_interchangeable_distinct : ∃ (config : Config) (ops : List (Timing × Op)),
    ops = [(⟨0, 0⟩, .claim "/a/" "b"), (⟨1000, 0⟩, .createRule "/a/" { pattern := "*" }), (⟨2000, 0⟩, .claim "/c/" "b")] ∧
    ∃ m d, start config {} ⟨0, 0⟩ ({} : MemoryStore) {} = .ok m ∧
      start config {} ⟨0, 0⟩ ({ path := "rules" } : Database) {} = .ok d ∧
      (answers m ops).map (Except.map (Answer.renumbered id)) = (answers d ops).map (Except.map (Answer.renumbered id)) := by
  let config : Config := { Config.default none with journal := { enabled := false, path := "journal" } }
  let ops : List (Timing × Op) := [(⟨0, 0⟩, .claim "/a/" "b"), (⟨1000, 0⟩, .createRule "/a/" { pattern := "*" }),
    (⟨2000, 0⟩, .claim "/c/" "b")]
  have begins : ∃ m, start config {} ⟨0, 0⟩ ({} : MemoryStore) {} = .ok m ∧ (answers m ops).countP taken = 0 :=
    exists_outcome (by decide +kernel)
  obtain ⟨m, begun, never⟩ := begins
  obtain ⟨e, store, _, left, failed, _⟩ | ⟨m', d, begun', beside, number, _, delayed, same, _⟩ :=
    stores_interchangeable config {} ⟨0, 0⟩ {} "rules" (rfl : ops.map (·.2) = ops.map (·.2)) (by decide +kernel)
  · rw [begun] at failed
    cases failed
  · obtain rfl : m = m' := Except.ok.inj (begun.symm.trans begun')
    rw [never] at delayed
    rw [delayed.eq_of_zero] at same
    exact ⟨config, ops, rfl, m, d, begun, beside, same⟩

/-- A directory that is claimed a second time uses up an id in the database, but not in memory. -/
theorem refused_claim_uses_up_id : ∃ (config : Config) (ops : List (Timing × Op)),
    ops = [(⟨0, 0⟩, .claim "/a/" "b"), (⟨0, 0⟩, .claim "/a/" "b"), (⟨0, 0⟩, .claim "/c/" "b")] ∧
    ∃ m d, start config {} ⟨0, 0⟩ ({} : MemoryStore) {} = .ok m ∧
      start config {} ⟨0, 0⟩ ({ path := "rules" } : Database) {} = .ok d ∧
      (answers m ops).map (Except.map (Answer.renumbered id)) ≠ (answers d ops).map (Except.map (Answer.renumbered id)) := by
  let config : Config := { Config.default none with journal := { enabled := false, path := "journal" } }
  let ops : List (Timing × Op) := [(⟨0, 0⟩, .claim "/a/" "b"), (⟨0, 0⟩, .claim "/a/" "b"), (⟨0, 0⟩, .claim "/c/" "b")]
  let claimed (last : Int) : List (Except Error Answer) := [.ok (.claim { id := 1, path := "/a/", claimedBy := "b" }),
    .error (.alreadyClaimed "/a/"), .ok (.claim { id := last, path := "/c/", claimedBy := "b" })]
  have begins : ∃ m, start config {} ⟨0, 0⟩ ({} : MemoryStore) {} = .ok m ∧
      (answers m ops).map (Except.map (Answer.renumbered id)) = claimed 2 := exists_outcome (by decide +kernel)
  have begins' : ∃ d, start config {} ⟨0, 0⟩ ({ path := "rules" } : Database) {} = .ok d ∧
      (answers d ops).map (Except.map (Answer.renumbered id)) = claimed 3 := exists_outcome (by decide +kernel)
  obtain ⟨m, begun, second⟩ := begins
  obtain ⟨d, begun', third⟩ := begins'
  refine ⟨config, ops, rfl, m, d, begun, begun', ?_⟩
  rw [second, third]
  decide

end Registry
end BackupAtlas
