import BackupAtlas.Proofs.Twins

namespace BackupAtlas
namespace Registry

variable {σ τ : Type}
variable [RuleStore σ] [RuleStore.Lawful σ] [RuleStore.Counted σ] [RuleStore τ] [RuleStore.Lawful τ] [RuleStore.Counted τ]

open RuleStore.Lawful (Holds)
open RuleStore.Counted (lasts)

section

variable {count : Nat} {registry : Registry σ} {timed : Prop} {directories : List Directory} {rules : List Rule}
variable {path dir pattern : String} {timing : Timing} {batch : List (String × Rule)} {set : RuleSet}

theorem directory_le (kept : Holds count registry.store directories rules)
    (recorded : Recorded timed directories rules registry.atlas.rules) {directory : Directory}
    (known : registry.atlas.rules.directory? path = some directory) :
    directory.id ≤ (lasts registry.store).directory :=
  RuleStore.Counted.bounded kept directory (recorded.mem_of_known known)

theorem rule_le (kept : Holds count registry.store directories rules)
    (recorded : Recorded timed directories rules registry.atlas.rules) {rule : Rule}
    (known : registry.atlas.rules.rule? dir pattern = some rule) :
    rule.directoryId ≤ (lasts registry.store).directory := by
  obtain ⟨owner, claimed, owns⟩ := recorded.owned dir pattern rule known
  exact owns ▸ directory_le kept recorded claimed

/-- Only the numbers of ids that have been given out matter. -/
theorem renumbered_eq (kept : Holds count registry.store directories rules)
    (recorded : Recorded timed directories rules registry.atlas.rules) {number other : Int → Int}
    (same : ∀ n ≤ (lasts registry.store).directory, number n = other n) :
    registry.atlas.renumbered number = registry.atlas.renumbered other :=
  congrArg (fun rules => { registry.atlas with rules }) (RuleSet.renumbered_congr
    (fun _ _ known => same _ (directory_le kept recorded known)) fun _ _ _ known => same _ (rule_le kept recorded known))

/-- A directory that nobody has claimed gets the next id. -/
theorem createDirectory_unclaimed (kept : Holds count registry.store directories rules)
    (recorded : Recorded timed directories rules registry.atlas.rules)
    (room : (lasts registry.store).directory < Database.maxId) (unclaimed : registry.atlas.directory? path = none)
    (now : Int) (claimedBy : String) :
    ∃ store, RuleStore.createDirectory now { path, claimedBy } registry.store =
        .ok (Directory.stamped ((lasts registry.store).directory + 1) now { path, claimedBy }) store ∧
      lasts store = ⟨(lasts registry.store).directory + 1, (lasts registry.store).rule⟩ :=
  RuleStore.Counted.createDirectory kept room now _ fun d member same => by
    have known := (recorded.claims d).mp member
    rw [show d.path = path from same, RuleSet.directory?, show registry.atlas.rules.get? path = none from unclaimed]
      at known
    cases known

/-- A claim that is passed on keeps its id, also when this is taken back. -/
theorem updateDirectory_counted (kept : Holds count registry.store directories rules)
    (recorded : Recorded timed directories rules registry.atlas.rules) {claim : Claim}
    (found : registry.atlas.directory? path = some claim) (now : Int) (claimedBy : String) :
    ∃ store, RuleStore.updateDirectory now { claim.directory with claimedBy } registry.store =
        .ok { claim.directory with claimedBy, modified := now } store ∧ lasts store = lasts registry.store ∧
      ∀ now', Unmoved lasts store (RuleStore.updateDirectory now' claim.directory store) := by
  have member := recorded.mem_of_known (RuleSet.directory?_eq found)
  obtain ⟨store, _, updated, keptNext, rows⟩ :=
    RuleStore.Lawful.updateDirectory kept claim.directory member now claimedBy
  refine ⟨store, updated, ?_, fun now' => ?_⟩
  · exact (RuleStore.Counted.updateDirectory kept _ member now { claim.directory with claimedBy } rfl).of_ok updated
  · exact RuleStore.Counted.updateDirectory keptNext _ ((rows _).mpr (Or.inl rfl)) now' claim.directory rfl

/-- The row of a directory that is given up is removed. -/
theorem removeDirectory_counted (kept : Holds count registry.store directories rules)
    (recorded : Recorded timed directories rules registry.atlas.rules) {gone : Directory} {atlas : Atlas}
    (revoked : Atlas.revoke path registry.atlas = .ok gone atlas) :
    gone ∈ directories ∧ ∃ store, RuleStore.removeDirectory gone.id registry.store = .ok () store ∧
      lasts store = lasts registry.store := by
  obtain ⟨member, _⟩ := recorded.afterRevoke ((Atlas.revoke_ends path).of_ok revoked).1
  obtain ⟨store, removed, _⟩ := RuleStore.Lawful.removeDirectory kept gone member
  exact ⟨member, store, removed, (RuleStore.Counted.removeDirectory gone.id registry.store).of_ok removed⟩

/-- A rule that is removed, and put back, gives out no id. -/
theorem removeRule_counted (kept : Holds count registry.store directories rules)
    (recorded : Recorded timed directories rules registry.atlas.rules) {rule : Rule}
    (known : registry.atlas.rules.rule? dir pattern = some rule) :
    ∃ store, RuleStore.removeRule rule.id registry.store = .ok () store ∧ lasts store = lasts registry.store ∧
      Unmoved lasts store (RuleStore.restoreRule rule store) := by
  obtain ⟨row, member, alike⟩ := recorded.stored dir pattern rule known
  obtain ⟨store, removed, _⟩ := removeRule_stored kept recorded known
  refine ⟨store, removed, (RuleStore.Counted.removeRule rule.id registry.store).of_ok removed, ?_⟩
  exact RuleStore.Counted.restoreRule kept row member store rule (by rw [alike.fields.1, removed]) alike.fields.1.symm

/-- A rule that is changed, and changed back, gives out no id. -/
theorem updateRule_counted (kept : Holds count registry.store directories rules)
    (recorded : Recorded timed directories rules registry.atlas.rules) {claim : Claim} {rule previous changed : Rule}
    (found : registry.atlas.directory? dir = some claim)
    (listed : claim.rules.values.find? (·.id == rule.id) = some previous)
    (free : ¬ (rule.pattern ≠ previous.pattern ∧ claim.rules.contains rule.pattern)) (now : Int)
    (changes : changed = { rule with directoryId := previous.directoryId, created := previous.created }) :
    ∃ store, RuleStore.updateRule now changed registry.store = .ok { changed with modified := now } store ∧
      lasts store = lasts registry.store ∧ changed.directoryId ≤ (lasts registry.store).directory ∧
      ∀ now', Unmoved lasts store (RuleStore.updateRule now' previous store) := by
  obtain ⟨store, _, updated, keptNext, rows, _⟩ := updateRule_stored kept recorded found listed free now changes
  obtain ⟨known, sameId⟩ := recorded.sound.rule?_of_find? found listed
  obtain ⟨row, member, alike⟩ := recorded.stored dir previous.pattern previous known
  have changedId : changed.id = previous.id := by rw [changes, sameId]
  have below := rule_le kept recorded known
  refine ⟨store, updated, ?_, by rwa [changes], fun now' => ?_⟩
  · exact (RuleStore.Counted.updateRule kept row member now changed (changedId.trans alike.fields.1.symm)).of_ok updated
  · exact RuleStore.Counted.updateRule keptNext _ ((rows _).mpr (Or.inl rfl)) now' previous changedId.symm

/-- A batch of rules that can be inserted, one after another, beside those that are there. -/
structure Insertable (directories : List Directory) (rules : List Rule) (batch : List (String × Rule)) : Prop where
  owned : ∀ entry ∈ batch, ∃ d ∈ directories, d.id = entry.2.directoryId
  free : ∀ entry ∈ batch, ∀ r ∈ rules, ¬ (r.directoryId = entry.2.directoryId ∧ r.pattern = entry.2.pattern)
  apart : batch.Pairwise fun a b => ¬ (a.2.directoryId = b.2.directoryId ∧ a.2.pattern = b.2.pattern)

theorem Fits.insertable (fits : Fits set batch) (recorded : Recorded timed directories rules set) :
    Insertable directories rules batch where
  owned entry member := by
    obtain ⟨owner, claimed, owns⟩ := fits.owned entry member
    exact ⟨owner, recorded.mem_of_known claimed, owns⟩
  free entry member := by
    obtain ⟨owner, claimed, owns⟩ := fits.owned entry member
    exact recorded.ne_of_free claimed owns (fits.free entry member)
  apart := by
    refine fits.apart.imp_of_mem fun {a b} memberA memberB apart ⟨sameDirectory, samePattern⟩ => ?_
    obtain ⟨owner, claimed, owns⟩ := fits.owned a memberA
    obtain ⟨other, claimed', owns'⟩ := fits.owned b memberB
    exact apart ⟨recorded.path_unique claimed claimed' (owns.trans (sameDirectory.trans owns'.symm)), samePattern⟩

/-- A batch of rules with their ids, counted from the last one so far, and their times. -/
def numbered (now last : Int) : List (String × Rule) → List (String × Rule)
  | [] => []
  | (dir, rule) :: batch =>
    (dir, rule.stamped (last + 1).toNat now) :: numbered now (last + 1) batch

/-- What can be inserted is stored. -/
theorem storeAll_ok (timing : Timing) (kept : Holds (batch.length + count) registry.store directories rules)
    (insertable : Insertable directories rules batch)
    (room : (lasts registry.store).rule + batch.length ≤ Database.maxId) (stored : List (String × Rule)) :
    ∃ store, storeAll timing stored batch registry =
        .ok (stored ++ numbered timing.seconds (lasts registry.store).rule batch) { registry with store } ∧
      lasts store = ⟨(lasts registry.store).directory, (lasts registry.store).rule + batch.length⟩ := by
  induction batch generalizing registry rules stored with
  | nil =>
    refine ⟨registry.store, ?_, ?_⟩
    · rw [storeAll, numbered, List.append_nil]
      rfl
    · rw [List.length_nil, Int.natCast_zero, Int.add_zero]
  | cons entry batch ih =>
    obtain ⟨dir, rule⟩ := entry
    obtain ⟨owned, free, apart⟩ := insertable
    obtain ⟨notLater, apartRest⟩ := List.pairwise_cons.mp apart
    rw [List.length_cons] at room ⊢
    rw [List.length_cons, Nat.add_comm batch.length, Nat.add_assoc] at kept
    obtain ⟨store, created, counted⟩ := RuleStore.Counted.createRule kept (by omega) timing.seconds rule
      (owned _ List.mem_cons_self) (free _ List.mem_cons_self)
    obtain ⟨_, _, rules', keptNext, rows⟩ := (RuleStore.Lawful.createRule kept timing.seconds rule).of_ok created
    have rest : Insertable directories rules' batch := by
      refine ⟨fun next member => owned next (List.mem_cons_of_mem _ member), fun next member r inRules => ?_, apartRest⟩
      rcases (rows r).mp inRules with rfl | old
      · exact notLater next member
      · exact free next (List.mem_cons_of_mem _ member) r old
    have keptHere : Holds (batch.length + count) ({ registry with store } : Registry σ).store directories rules' :=
      keptNext
    obtain ⟨last, others, countedLast⟩ := ih keptHere rest (by
      rw [counted]
      dsimp only
      omega) (stored ++ [(dir, rule.stamped ((lasts registry.store).rule + 1).toNat timing.seconds)])
    refine ⟨last, ?_, ?_⟩
    · rw [storeAll, bind_eq, undoing_ok (onStore_ok created)]
      simp only [others, counted, numbered, List.append_assoc, List.singleton_append]
    · rw [countedLast, counted, Int.natCast_succ, Int.add_assoc, Int.add_comm 1]

theorem numbered_le {now last bound : Int} (below : ∀ entry ∈ batch, entry.2.directoryId ≤ bound) :
    ∀ entry ∈ numbered now last batch, entry.2.directoryId ≤ bound := by
  induction batch generalizing last with
  | nil => simp [numbered]
  | cons entry batch ih =>
    obtain ⟨dir, rule⟩ := entry
    rw [numbered, List.forall_mem_cons]
    exact ⟨below (dir, rule) List.mem_cons_self, ih fun next member => below next (List.mem_cons_of_mem _ member)⟩

theorem renumbered_stamped {number other : Int → Int} {rule rule' : Rule}
    (same : rule.renumbered number = rule'.renumbered other) (id : Nat) (now now' : Int) :
    (rule.stamped id now).renumbered number = (rule'.stamped id now').renumbered other :=
  congrArg (fun rule : Rule => { rule with id }) same

theorem renumberedAll_numbered {number other : Int → Int} {batch' : List (String × Rule)}
    (same : renumberedAll number batch = renumberedAll other batch') (now now' last : Int) :
    renumberedAll number (numbered now last batch) = renumberedAll other (numbered now' last batch') := by
  induction batch generalizing batch' last with
  | nil =>
    rw [List.map_eq_nil_iff.mp same.symm]
    rfl
  | cons entry batch ih =>
    obtain ⟨dir, rule⟩ := entry
    cases batch' with
    | nil => cases same
    | cons entry' batch' =>
      obtain ⟨dir', rule'⟩ := entry'
      obtain ⟨first, rest⟩ := List.cons.inj same
      obtain ⟨rfl, equal⟩ := Prod.mk.inj first
      rw [numbered, numbered]
      exact congrArg₂ (· :: ·) (congrArg (Prod.mk dir) (renumbered_stamped equal _ now now')) (ih rest (last + 1))

end

variable {number : Int → Int} {floor : Int} {room : Nat} {m : Registry σ} {d : Registry τ}

/-- A snapshot is mounted. -/
theorem Near.addTree_abreast (near : Near number floor room m d) (timing timing' : Timing) (path : String)
    (sameDisk : m.disk = d.disk) :
    Abreast (fun a m b d => Alike number floor room (.mount a) m (.mount b) d)
      (fun _ m d => Near number floor room m d) (addTree timing path m) (addTree timing' path d) := by
  rw [addTree, addTree]
  refine (Abreast.bind_ok get_eq get_eq).mpr ?_
  have applied : seen id (Atlas.renumbered number) (Atlas.addTreeFile m.disk path m.atlas) =
      seen id (Atlas.renumbered id) (Atlas.addTreeFile d.disk path d.atlas) := by
    rw [← Atlas.addTreeFile_renumbered, near.atlas, sameDisk, Atlas.addTreeFile_renumbered]
  refine Abreast.bind ((near.onAtlas_abreast applied).imp (fun _ _ _ _ here => here) fun _ _ _ failed => failed.1) ?_
  rintro build _ build' _ ⟨same, left, _, _⟩
  exact Alike.noted .mount .mount ⟨left, congrArg Answer.mount same, trivial⟩ _ _ _ _

namespace Twins

/-- A directory that nobody has claimed is claimed on both, and their new ids go with each other. -/
theorem claim_abreast {path : String} (twins : Twins number floor (1 + room) m d)
    (unclaimed : m.atlas.directory? path = none) (timing timing' : Timing) (claimedBy : String) :
    Abreast (fun a m b d => Alike number floor room (.claim a) m (.claim b) d)
      (fun _ m d => Near number floor room m d) (claim timing path claimedBy m) (claim timing' path claimedBy d) := by
  obtain ⟨near, ⟨directories, rules, kept, recorded, _⟩, directories', rules', kept', recorded', _⟩ := twins
  have unclaimed' : d.atlas.directory? path = none := by
    rcases near.claims path with ⟨_, there⟩ | ⟨_, _, here, _⟩
    · exact there
    · cases unclaimed.symm.trans here
  have space := near.paced.directories
  have behind := near.paced.behind
  obtain ⟨store, created, counted⟩ :=
    createDirectory_unclaimed kept recorded (by omega) unclaimed timing.seconds claimedBy
  obtain ⟨store', created', counted'⟩ :=
    createDirectory_unclaimed kept' recorded' (by omega) unclaimed' timing'.seconds claimedBy
  have next : Near number floor room { m with store } { d with store := store' } :=
    ⟨near.atlas, by rw [counted, counted']; exact near.paced.afterDirectory⟩
  generalize madeEq : Directory.stamped _ timing.seconds { path, claimedBy } = made at created
  generalize madeEq' : Directory.stamped _ timing'.seconds { path, claimedBy } = made' at created'
  have same : made.renumbered number = made'.renumbered id := by
    rw [← madeEq, ← madeEq']
    exact congrArg (fun id => Directory.mk id path claimedBy 0 0) near.paced.next_directory
  rw [claim, claim]
  refine (Abreast.bind_ok (onStore_ok created) (onStore_ok created')).mpr ?_
  have applied : seen id (Atlas.renumbered number) (Atlas.claim made m.atlas) =
      seen id (Atlas.renumbered id) (Atlas.claim made' d.atlas) := by
    rw [← Atlas.claim_renumbered, near.atlas, same, Atlas.claim_renumbered]
  refine Abreast.bind (undoing_abreast (next.onAtlas_abreast applied) (fun _ _ _ => takesBack_quietly ?_)
    fun _ _ _ => takesBack_quietly ?_) ?_
  · exact RuleStore.Counted.removeDirectory _ _
  · exact RuleStore.Counted.removeDirectory _ _
  · rintro _ _ _ _ ⟨_, left, ⟨_, _, rfl⟩, _, _, rfl⟩
    refine Alike.noted .claim .claim ⟨left, congrArg Answer.claim same, ?_⟩ _ _ _ _
    rw [← madeEq, counted]
    exact Int.le_refl _

/-- A claim is passed on. -/
theorem passClaim_abreast (twins : Twins number floor room m d) (timing timing' : Timing) (path claimedBy : String) :
    Abreast (fun a m b d => Alike number floor room (.claim a) m (.claim b) d) (fun _ m d => Near number floor room m d)
      (passClaim timing path claimedBy m) (passClaim timing' path claimedBy d) := by
  obtain ⟨near, ⟨directories, rules, kept, recorded, _⟩, directories', rules', kept', recorded', _⟩ := twins
  rw [passClaim, passClaim]
  refine Abreast.bind (near.stays (near.claimed_abreast path)) ?_
  rintro claim m claim' d ⟨rfl, rfl, found, found', equal⟩
  obtain ⟨store, updated, counted, undoes⟩ := updateDirectory_counted kept recorded found timing.seconds claimedBy
  obtain ⟨store', updated', counted', undoes'⟩ :=
    updateDirectory_counted kept' recorded' found' timing'.seconds claimedBy
  refine (Abreast.bind_ok (onStore_ok updated) (onStore_ok updated')).mpr ?_
  generalize passedEq : ({ claim.directory with claimedBy, modified := timing.seconds } : Directory) = passed
  generalize passedEq' : ({ claim'.directory with claimedBy, modified := timing'.seconds } : Directory) = passed'
  have same : passed.renumbered number = passed'.renumbered id := by
    rw [← passedEq, ← passedEq']
    exact congrArg (fun claim => { claim.directory with claimedBy }) equal
  have applied : seen id (Atlas.renumbered number) (Atlas.updateDirectory passed m.atlas) =
      seen id (Atlas.renumbered id) (Atlas.updateDirectory passed' d.atlas) := by
    rw [← Atlas.updateDirectory_renumbered, near.atlas, same, Atlas.updateDirectory_renumbered]
  refine Abreast.bind (undoing_abreast ((near.kept counted counted').onAtlas_abreast applied)
    (fun _ _ here => takesBack_quietly ?_) fun _ _ here => takesBack_quietly ?_) ?_
  · rw [here]
    exact undoes _
  · rw [here]
    exact undoes' _
  · rintro _ _ _ _ ⟨_, left, ⟨_, _, rfl⟩, _, _, rfl⟩
    have below := directory_le kept recorded (RuleSet.directory?_eq found)
    refine Alike.noted .claim .claim ⟨left, congrArg Answer.claim same, ?_⟩ _ _ _ _
    rwa [counted, ← passedEq]

/-- A claim is given up. -/
theorem revoke_abreast (twins : Twins number floor room m d) (timing timing' : Timing) (path : String) :
    Abreast (fun a m b d => Alike number floor room (.claim a) m (.claim b) d) (fun _ m d => Near number floor room m d)
      (revoke timing path m) (revoke timing' path d) := by
  obtain ⟨near, ⟨directories, rules, kept, recorded, _⟩, directories', rules', kept', recorded', _⟩ := twins
  rw [revoke, revoke]
  have applied : seen (Directory.renumbered number) (Atlas.renumbered number) (Atlas.revoke path m.atlas) =
      seen (Directory.renumbered id) (Atlas.renumbered id) (Atlas.revoke path d.atlas) := by
    rw [← Atlas.revoke_renumbered, near.atlas, Atlas.revoke_renumbered]
  refine Abreast.bind ((near.onAtlas_abreast applied).imp (fun _ _ _ _ here => here) fun _ _ _ failed => failed.1) ?_
  rintro gone _ gone' _ ⟨same, left, ⟨atlas, ran, rfl⟩, atlas', ran', rfl⟩
  obtain ⟨member, store, removed, counted⟩ := removeDirectory_counted kept recorded ran
  obtain ⟨_, store', removed', counted'⟩ := removeDirectory_counted kept' recorded' ran'
  have stored : onStore (RuleStore.removeDirectory gone.id) { m with atlas } = .ok () { m with store, atlas } :=
    onStore_ok removed
  have stored' : onStore (RuleStore.removeDirectory gone'.id) { d with atlas := atlas' } =
    .ok () { d with store := store', atlas := atlas' } := onStore_ok removed'
  refine (Abreast.bind_ok (undoing_ok stored) (undoing_ok stored')).mpr ?_
  refine Alike.noted .claim .claim ⟨left.kept counted counted', congrArg Answer.claim same, ?_⟩ _ _ _ _
  rw [counted]
  exact RuleStore.Counted.bounded kept gone member

/-- A rule is added. -/
theorem createRule_abreast (twins : Twins number floor (1 + room) m d) (timing timing' : Timing) (dir : String)
    (rule : Rule) :
    Abreast (fun a m b d => Alike number floor room (.change a) m (.change b) d)
      (fun _ m d => Near number floor room m d) (createRule timing dir rule m) (createRule timing' dir rule d) := by
  obtain ⟨near, ⟨directories, rules, kept, recorded, _⟩, directories', rules', kept', recorded', _⟩ := twins
  rw [createRule, createRule]
  have nothing : renumberedAll number [] = renumberedAll id [] := rfl
  refine Abreast.bind (near.spent.stays ((near.admitted_abreast nothing dir rule).and_ends (admitted_ends [] dir rule)
    (admitted_ends [] dir rule))) ?_
  rintro asked m asked' d ⟨⟨rfl, rfl, same⟩, ⟨_, ⟨owner, claimed, owns⟩, free, _⟩, _, ⟨owner', claimed', owns'⟩, free', _⟩
  have space := near.paced.rules
  have sameLast := near.paced.rule
  obtain ⟨store, created, counted⟩ := RuleStore.Counted.createRule kept (by omega) timing.seconds asked
    ⟨owner, recorded.mem_of_known claimed, by rw [owns]⟩
    (recorded.ne_of_free claimed (by rw [owns]) (by rwa [owns]))
  obtain ⟨store', created', counted'⟩ := RuleStore.Counted.createRule kept' (by omega) timing'.seconds asked'
    ⟨owner', recorded'.mem_of_known claimed', by rw [owns']⟩
    (recorded'.ne_of_free claimed' (by rw [owns']) (by rwa [owns']))
  refine (Abreast.bind_ok (onStore_ok created) (onStore_ok created')).mpr ?_
  have next : Near number floor room { m with store } { d with store := store' } :=
    ⟨near.atlas, by rw [counted, counted']; exact near.paced.afterRules⟩
  have stamped := renumbered_stamped same ((lasts m.store).rule + 1).toNat timing.seconds timing'.seconds
  rw [← sameLast]
  generalize madeEq : asked.stamped ((lasts m.store).rule + 1).toNat timing.seconds = made at stamped ⊢
  generalize madeEq' : asked'.stamped ((lasts m.store).rule + 1).toNat timing'.seconds = made' at stamped ⊢
  have applied : seen id (Atlas.renumbered number) (Atlas.addRule dir made m.atlas) =
      seen id (Atlas.renumbered id) (Atlas.addRule dir made' d.atlas) := by
    rw [← Atlas.addRule_renumbered, near.atlas, stamped, Atlas.addRule_renumbered]
  refine Abreast.bind (undoing_abreast (next.onAtlas_abreast applied) (fun e _ _ => takesBack_noted ?_ _ _ _ e)
    fun e _ _ => takesBack_noted ?_ _ _ _ e) ?_
  · exact RuleStore.Counted.removeRule _ _
  · exact RuleStore.Counted.removeRule _ _
  · rintro builds _ builds' _ ⟨sameBuilds, left, ⟨_, _, rfl⟩, _, _, rfl⟩
    refine Alike.noted .change .change ⟨left, ?_, ?_⟩ _ _ _ _
    · exact congrArg₂ (fun rule builds => Answer.change (rule, builds)) stamped sameBuilds
    · rw [counted, ← madeEq]
      change asked.directoryId ≤ _
      rw [owns]
      exact directory_le kept recorded claimed

/-- Many rules are added. -/
theorem createRules_abreast {batch : List (String × Rule)} (twins : Twins number floor (batch.length + room) m d)
    (timing timing' : Timing) :
    Abreast (fun a m b d => Alike number floor room (.batch a.1 a.2) m (.batch b.1 b.2) d)
      (fun _ m d => Near number floor room m d) (createRules timing batch m) (createRules timing' batch d) := by
  obtain ⟨near, ⟨directories, rules, kept, recorded, _⟩, directories', rules', kept', recorded', _⟩ := twins
  rw [createRules, createRules]
  have nothing : renumberedAll number [] = renumberedAll id [] := rfl
  refine Abreast.bind (near.spent.stays ((near.admittedAll_abreast batch nothing).and_ends
    (admittedAll_ends batch (Fits.nil _)) (admittedAll_ends batch (Fits.nil _)))) ?_
  rintro asked m asked' d ⟨⟨rfl, rfl, same⟩, ⟨_, fits, length⟩, _, fits', length'⟩
  rw [List.length_nil, Nat.zero_add] at length length'
  rw [← length] at kept
  rw [← length'] at kept'
  have space := near.paced.rules
  have sameLast := near.paced.rule
  obtain ⟨store, stored, counted⟩ := storeAll_ok timing kept (fits.insertable recorded) (by omega) []
  obtain ⟨store', stored', counted'⟩ := storeAll_ok timing' kept' (fits'.insertable recorded') (by omega) []
  refine (Abreast.bind_ok stored stored').mpr ?_
  have next : Near number floor room { m with store } { d with store := store' } :=
    ⟨near.atlas, by rw [counted, counted', length, length']; exact near.paced.afterRules⟩
  have numberedAlike := renumberedAll_numbered same timing.seconds timing'.seconds (lasts m.store).rule
  rw [← sameLast, List.nil_append, List.nil_append]
  generalize madeEq : numbered timing.seconds (lasts m.store).rule asked = made at numberedAlike ⊢
  generalize madeEq' : numbered timing'.seconds (lasts m.store).rule asked' = made' at numberedAlike ⊢
  have applied : seen id (Atlas.renumbered number) (Atlas.addRules made m.atlas) =
      seen id (Atlas.renumbered id) (Atlas.addRules made' d.atlas) := by
    rw [← Atlas.addRules_renumbered, near.atlas, numberedAlike, Atlas.addRules_renumbered]
  refine Abreast.bind (undoing_abreast (next.onAtlas_abreast applied)
    (fun e _ _ => takesBack_forM fun entry _ => takesBack_noted ?_ _ _ _ e)
    fun e _ _ => takesBack_forM fun entry _ => takesBack_noted ?_ _ _ _ e) ?_
  · exact RuleStore.Counted.removeRule _ _
  · exact RuleStore.Counted.removeRule _ _
  · rintro builds _ builds' _ ⟨sameBuilds, left, ⟨_, _, rfl⟩, _, _, rfl⟩
    have below : ∀ entry ∈ asked, entry.2.directoryId ≤ (lasts m.store).directory := fun entry member => by
      obtain ⟨owner, claimed, owns⟩ := fits.owned entry member
      exact owns ▸ directory_le kept recorded claimed
    let wrap : List (String × Rule) × List MountBuild → Answer := fun a => .batch a.1 a.2
    refine Alike.noted wrap wrap ⟨left, ?_, ?_⟩ _ _ _ _
    · exact congrArg₂ Answer.batch numberedAlike sameBuilds
    · rw [counted, ← madeEq]
      exact numbered_le below

/-- A rule is removed. -/
theorem removeRule_abreast (twins : Twins number floor room m d) (timing timing' : Timing) (dir pattern : String) :
    Abreast (fun a m b d => Alike number floor room (.change a) m (.change b) d)
      (fun _ m d => Near number floor room m d) (removeRule timing dir pattern m)
      (removeRule timing' dir pattern d) := by
  obtain ⟨near, ⟨directories, rules, kept, recorded, _⟩, directories', rules', kept', recorded', _⟩ := twins
  rw [removeRule, removeRule]
  refine Abreast.bind (near.stays (near.claimed_abreast dir)) ?_
  rintro claim m claim' d ⟨rfl, rfl, found, found', equal⟩
  obtain ⟨here, there⟩ | ⟨rule, rule', here, there, same⟩ :=
    both_or_neither (Claim.get?_of_renumbered equal pattern)
  · rw [here, there]
    exact .error near
  · rw [here, there]
    have known : m.atlas.rules.rule? dir pattern = some rule := by rw [RuleSet.rule?_eq found, here]
    have known' : d.atlas.rules.rule? dir pattern = some rule' := by rw [RuleSet.rule?_eq found', there]
    obtain ⟨store, removed, counted, undoes⟩ := removeRule_counted kept recorded known
    obtain ⟨store', removed', counted', undoes'⟩ := removeRule_counted kept' recorded' known'
    refine (Abreast.bind_ok (onStore_ok removed) (onStore_ok removed')).mpr ?_
    have applied : seen (fun answer => (answer.1.renumbered number, answer.2)) (Atlas.renumbered number)
          (Atlas.removeRule dir pattern m.atlas) =
        seen (fun answer => (answer.1.renumbered id, answer.2)) (Atlas.renumbered id)
          (Atlas.removeRule dir pattern d.atlas) := by
      rw [← Atlas.removeRule_renumbered, near.atlas, Atlas.removeRule_renumbered]
    refine Abreast.bind (undoing_abreast ((near.kept counted counted').onAtlas_abreast applied)
      (fun e _ back => takesBack_noted ?_ _ _ _ e) fun e _ back => takesBack_noted ?_ _ _ _ e) ?_
    · rwa [back]
    · rwa [back]
    · rintro ⟨_, builds⟩ _ ⟨_, builds'⟩ _ ⟨sameAnswer, left, ⟨_, _, rfl⟩, _, _, rfl⟩
      refine Alike.noted .change .change ⟨left, ?_, ?_⟩ _ _ _ _
      · exact congrArg₂ (fun rule builds => Answer.change (rule, builds)) same (Prod.mk.inj sameAnswer).2
      · rw [counted]
        exact rule_le kept recorded known

/-- A rule is changed. -/
theorem updateRule_abreast (twins : Twins number floor room m d) (timing timing' : Timing) (dir : String)
    (rule : Rule) :
    Abreast (fun a m b d => Alike number floor room (.change a) m (.change b) d)
      (fun _ m d => Near number floor room m d) (updateRule timing dir rule m) (updateRule timing' dir rule d) := by
  obtain ⟨near, ⟨directories, rules, kept, recorded, _⟩, directories', rules', kept', recorded', _⟩ := twins
  rw [updateRule, updateRule]
  refine Abreast.bind (near.stays (Near.validate_abreast m d rule.pattern)) ?_
  rintro _ m _ d ⟨rfl, rfl⟩
  refine Abreast.bind (near.stays (near.claimed_abreast dir)) ?_
  rintro claim m claim' d ⟨rfl, rfl, found, found', equal⟩
  obtain ⟨here, there⟩ | ⟨previous, previous', here, there, same⟩ :=
    both_or_neither (Claim.find?_of_renumbered equal rule.id)
  · rw [here, there]
    exact .error near
  · rw [here, there]
    have samePattern : previous.pattern = previous'.pattern :=
      show (previous.renumbered number).pattern = (previous'.renumbered id).pattern from congrArg Rule.pattern same
    have alike : (rule.pattern ≠ previous'.pattern ∧ claim'.rules.contains rule.pattern) ↔
        rule.pattern ≠ previous.pattern ∧ claim.rules.contains rule.pattern := by
      rw [← samePattern, Claim.contains_of_renumbered equal rule.pattern]
    dsimp only
    by_cases taken : rule.pattern ≠ previous.pattern ∧ claim.rules.contains rule.pattern
    · rw [if_pos taken, if_pos (alike.mpr taken)]
      exact .error near
    rw [if_neg taken, if_neg (mt alike.mp taken)]
    have asked : ({ rule with directoryId := previous.directoryId, created := previous.created } : Rule).renumbered
          number =
        ({ rule with directoryId := previous'.directoryId, created := previous'.created } : Rule).renumbered id :=
      congrArg (fun old : Rule => { rule.untimed with directoryId := old.directoryId }) same
    generalize changes : ({ rule with directoryId := previous.directoryId, created := previous.created } : Rule) =
      changed at asked ⊢
    generalize changes' : ({ rule with directoryId := previous'.directoryId, created := previous'.created } : Rule) =
      changed' at asked ⊢
    obtain ⟨store, updated, counted, below, undoes⟩ :=
      updateRule_counted kept recorded found here taken timing.seconds changes.symm
    obtain ⟨store', updated', counted', _, undoes'⟩ :=
      updateRule_counted kept' recorded' found' there (mt alike.mp taken) timing'.seconds changes'.symm
    refine (Abreast.bind_ok (onStore_ok updated) (onStore_ok updated')).mpr ?_
    have written : ({ changed with modified := timing.seconds } : Rule).renumbered number =
      ({ changed' with modified := timing'.seconds } : Rule).renumbered id := asked
    have applied : seen id (Atlas.renumbered number)
          (Atlas.updateRule dir { changed with modified := timing.seconds } m.atlas) =
        seen id (Atlas.renumbered id) (Atlas.updateRule dir { changed' with modified := timing'.seconds } d.atlas) := by
      rw [← Atlas.updateRule_renumbered, near.atlas, written, Atlas.updateRule_renumbered]
    refine Abreast.bind (undoing_abreast ((near.kept counted counted').onAtlas_abreast applied)
      (fun e _ back => takesBack_noted ?_ _ _ _ e) fun e _ back => takesBack_noted ?_ _ _ _ e) ?_
    · rw [back]
      exact undoes _
    · rw [back]
      exact undoes' _
    · rintro builds _ builds' _ ⟨sameBuilds, left, ⟨_, _, rfl⟩, _, _, rfl⟩
      refine Alike.noted .change .change ⟨left, ?_, ?_⟩ _ _ _ _
      · exact congrArg₂ (fun rule builds => Answer.change (rule, builds)) written sameBuilds
      · rwa [counted]

/-- A directory that is claimed already is refused on both, and the database loses an id. -/
theorem claim_refused {m : Registry MemoryStore} {d : Registry Database} {path : String}
    (twins : Twins number floor (1 + room) m d) {claim : Claim} (claimed : m.atlas.directory? path = some claim)
    (timing timing' : Timing) (claimedBy : String) :
    ∃ left, Registry.claim timing path claimedBy m = .error (.alreadyClaimed path) m ∧
      Registry.claim timing' path claimedBy d = .error (.alreadyClaimed path) left ∧
      Near (shifted number (lasts m.store).directory) floor room m left := by
  obtain ⟨near, ⟨directories, rules, kept, recorded, _⟩, directories', rules', kept', recorded', _⟩ := twins
  obtain ⟨claim', claimed'⟩ : ∃ claim', d.atlas.directory? path = some claim' := by
    rcases near.claims path with ⟨here, _⟩ | ⟨_, claim', _, there, _⟩
    · cases claimed.symm.trans here
    · exact ⟨claim', there⟩
  have known := RuleSet.directory?_eq claimed
  have known' := RuleSet.directory?_eq claimed'
  have behind := near.paced.behind
  have space := near.paced.directories
  have refused : RuleStore.createDirectory timing.seconds { path, claimedBy } m.store = .error _ m.store :=
    MemoryStore.createDirectory_taken kept timing.seconds _
      ⟨_, recorded.mem_of_known known, recorded.sound.path_eq known⟩
  obtain ⟨store, refused', counted⟩ := Database.createDirectory_taken kept' (show (lasts d.store).directory < _ by omega)
    timing'.seconds { path, claimedBy } ⟨_, recorded'.mem_of_known known', recorded'.sound.path_eq known'⟩
  have stored' : RuleStore.createDirectory timing'.seconds { path, claimedBy } d.store = .error _ store := refused'
  refine ⟨{ d with store }, ?_, ?_, ?_, ?_⟩
  · rw [Registry.claim, bind_eq, onStore_error refused]
  · rw [Registry.claim, bind_eq, onStore_error stored']
  · rw [renumbered_eq kept recorded fun n below => shifted_of_le below]
    exact near.atlas
  · have left : lasts store = ⟨(lasts d.store).directory + 1, (lasts d.store).rule⟩ := counted
    rw [left]
    exact near.paced.afterLoss

end Twins

end Registry
end BackupAtlas
