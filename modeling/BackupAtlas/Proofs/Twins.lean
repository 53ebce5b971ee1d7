import BackupAtlas.Proofs.Counters
import BackupAtlas.Proofs.RegistryRuns
import BackupAtlas.Proofs.Renumbering

namespace BackupAtlas

section

variable {ε σ τ α β γ δ : Type}

/-- Two computations end alike: both succeed, or both fail with the same error. -/
inductive Abreast (good : α → σ → β → τ → Prop) (bad : ε → σ → τ → Prop) :
    EStateM.Result ε σ α → EStateM.Result ε τ β → Prop
  | ok {a : α} {s : σ} {b : β} {t : τ} (here : good a s b t) : Abreast good bad (.ok a s) (.ok b t)
  | error {e : ε} {s : σ} {t : τ} (here : bad e s t) : Abreast good bad (.error e s) (.error e t)

variable {good good' : α → σ → β → τ → Prop} {bad bad' : ε → σ → τ → Prop} {ends : γ → σ → δ → τ → Prop}
variable {step : EStateM ε σ α} {step' : EStateM ε τ β} {next : α → EStateM ε σ γ} {next' : β → EStateM ε τ δ}
variable {s : σ} {t : τ}

namespace Abreast

theorem imp {result : EStateM.Result ε σ α} {result' : EStateM.Result ε τ β} (abreast : Abreast good bad result result')
    (ok : ∀ a s b t, good a s b t → good' a s b t) (error : ∀ e s t, bad e s t → bad' e s t) :
    Abreast good' bad' result result' := by
  cases abreast with
  | ok here => exact .ok (ok _ _ _ _ here)
  | error here => exact .error (error _ _ _ here)

theorem bind (first : Abreast good bad (step s) (step' t))
    (second : ∀ a s b t, good a s b t → Abreast ends bad (next a s) (next' b t)) :
    Abreast ends bad ((step >>= next) s) ((step' >>= next') t) := by
  rw [bind_eq, bind_eq]
  generalize step s = result at first
  generalize step' t = result' at first
  cases first with
  | ok here => exact second _ _ _ _ here
  | error here => exact .error here

/-- What is known of each of them is known of both. -/
theorem and_ends {result : EStateM.Result ε σ α} {result' : EStateM.Result ε τ β} {p : α → σ → Prop} {q : ε → σ → Prop}
    {p' : β → τ → Prop} {q' : ε → τ → Prop} (abreast : Abreast good bad result result') (here : Ends p q result)
    (there : Ends p' q' result') : Abreast (fun a s b t => good a s b t ∧ p a s ∧ p' b t) bad result result' := by
  cases abreast with
  | ok same => exact .ok ⟨same, here, there⟩
  | error failed => exact .error failed

theorem bind_ok {a : α} {b : β} {after : σ} {after' : τ} (ran : step s = .ok a after) (ran' : step' t = .ok b after') :
    Abreast ends bad ((step >>= next) s) ((step' >>= next') t) ↔
      Abreast ends bad (next a after) (next' b after') := by rw [bind_eq, bind_eq, ran, ran']

theorem bind_error {e : ε} {after : σ} {after' : τ} (ran : step s = .error e after) (ran' : step' t = .error e after')
    (here : bad e after after') : Abreast ends bad ((step >>= next) s) ((step' >>= next') t) := by
  rw [bind_eq, bind_eq, ran, ran']
  exact .error here

end Abreast

end

/-- What looks the same on both sides is on both, or on neither. -/
theorem both_or_neither {α β γ : Type} {f : α → γ} {g : β → γ} {here : Option α} {there : Option β}
    (same : here.map f = there.map g) :
    (here = none ∧ there = none) ∨ ∃ a b, here = some a ∧ there = some b ∧ f a = g b := by
  cases here with
  | none =>
    rw [Option.map_none, eq_comm, Option.map_eq_none_iff] at same
    exact Or.inl ⟨rfl, same⟩
  | some a =>
    rw [Option.map_some, eq_comm, Option.map_eq_some_iff] at same
    obtain ⟨b, there, equal⟩ := same
    exact Or.inr ⟨a, b, rfl, there, equal.symm⟩

/-- Numbers come in the order of the ids that they go with. -/
def Increasing (number : Int → Int) : Prop := ∀ a b, a < b → number a < number b

/-- The numbers above the last one move on by one. -/
def shifted (number : Int → Int) (last n : Int) : Int := if n ≤ last then number n else number n + 1

theorem shifted_of_le {number : Int → Int} {last n : Int} (known : n ≤ last) : shifted number last n = number n :=
  if_pos known

theorem Increasing.shifted {number : Int → Int} (increasing : Increasing number) (last : Int) :
    Increasing (shifted number last) := by
  intro a b less
  have before := increasing a b less
  rw [BackupAtlas.shifted, BackupAtlas.shifted]
  split <;> split <;> omega

/-- Numbers move on, but by no more than so many. -/
def Delayed (number number' : Int → Int) (count : Nat) : Prop :=
  ∀ n, number n ≤ number' n ∧ number' n ≤ number n + count

theorem Delayed.eq_of_zero {number number' : Int → Int} (delayed : Delayed number number' 0) : number' = number := by
  funext n
  have here := delayed n
  omega

/-- Numbers that are still those of the ids up to the last one, and have moved on by no more than so many. -/
structure Continues (number : Int → Int) (last : Int) (count : Nat) (number' : Int → Int) : Prop where
  increasing : Increasing number'
  known : ∀ n ≤ last, number' n = number n
  delayed : Delayed number number' count

namespace Continues

variable {number number' number'' : Int → Int} {last later : Int} {count more : Nat}

theorem refl (increasing : Increasing number) (last : Int) (count : Nat) : Continues number last count number :=
  ⟨increasing, fun _ _ => rfl, fun n => by omega⟩

theorem trans (first : Continues number last count number') (second : Continues number' later more number'')
    (reached : last ≤ later) : Continues number last (more + count) number'' := by
  refine ⟨second.increasing, fun n below => ?_, fun n => ?_⟩
  · exact (second.known n (below.trans reached)).trans (first.known n below)
  · have here := first.delayed n
    have there := second.delayed n
    omega

/-- One id has been lost. -/
theorem shifted (increasing : Increasing number) (last : Int) :
    Continues number last 1 (shifted number last) := by
  refine ⟨increasing.shifted last, fun n => shifted_of_le, fun n => ?_⟩
  rw [BackupAtlas.shifted]
  split <;> omega

end Continues

namespace Lasts

/-- Ids that have been given out side by side. Those of rules are the same; those of directories still to come go
with each other in turn. There is room for so many records more. -/
structure Paced (number : Int → Int) (floor : Int) (room : Nat) (lasts lasts' : Lasts) : Prop where
  rule : lasts.rule = lasts'.rule
  reached : floor ≤ lasts.directory
  behind : lasts.directory ≤ lasts'.directory
  later : ∀ n, lasts.directory < n → number n = n + (lasts'.directory - lasts.directory)
  directories : lasts'.directory + room ≤ Database.maxId
  rules : lasts'.rule + room ≤ Database.maxId

namespace Paced

variable {number : Int → Int} {floor : Int} {room count : Nat} {lasts lasts' : Lasts}

theorem lower {least : Int} (paced : Paced number floor room lasts lasts') (below : least ≤ floor) :
    Paced number least room lasts lasts' :=
  ⟨paced.rule, below.trans paced.reached, paced.behind, paced.later, paced.directories, paced.rules⟩

theorem spent (paced : Paced number floor (count + room) lasts lasts') : Paced number floor room lasts lasts' := by
  obtain ⟨rule, reached, behind, later, directories, rules⟩ := paced
  exact ⟨rule, reached, behind, later, by omega, by omega⟩

/-- The next directory is numbered by the next number. -/
theorem next_directory (paced : Paced number floor (1 + room) lasts lasts') :
    number (lasts.directory + 1) = lasts'.directory + 1 := by
  rw [paced.later _ (by omega)]
  omega

/-- Both have numbered a directory. -/
theorem afterDirectory (paced : Paced number floor (1 + room) lasts lasts') :
    Paced number floor room ⟨lasts.directory + 1, lasts.rule⟩ ⟨lasts'.directory + 1, lasts'.rule⟩ := by
  obtain ⟨rule, reached, behind, later, directories, rules⟩ := paced
  refine ⟨rule, ?_, ?_, fun n less => ?_, ?_, ?_⟩
  · dsimp only
    omega
  · dsimp only
    omega
  · dsimp only at less ⊢
    rw [later n (by omega)]
    omega
  · dsimp only
    omega
  · dsimp only
    omega

/-- Both have numbered some rules. -/
theorem afterRules (paced : Paced number floor (count + room) lasts lasts') :
    Paced number floor room ⟨lasts.directory, lasts.rule + count⟩ ⟨lasts'.directory, lasts'.rule + count⟩ := by
  obtain ⟨rule, reached, behind, later, directories, rules⟩ := paced
  refine ⟨?_, reached, behind, later, ?_, ?_⟩
  · dsimp only
    omega
  · dsimp only
    omega
  · dsimp only
    omega

/-- One of them has lost the id of a directory. -/
theorem afterLoss (paced : Paced number floor (1 + room) lasts lasts') :
    Paced (shifted number lasts.directory) floor room lasts ⟨lasts'.directory + 1, lasts'.rule⟩ := by
  obtain ⟨rule, reached, behind, later, directories, rules⟩ := paced
  refine ⟨rule, reached, ?_, fun n less => ?_, ?_, ?_⟩
  · dsimp only
    omega
  · rw [shifted, if_neg (by omega), later n less]
    dsimp only
    omega
  · dsimp only
    omega
  · dsimp only
    omega

end Paced
end Lasts

namespace Registry

variable {σ τ α β : Type}

def Answer.renumbered (number : Int → Int) : Answer → Answer
  | claim directory => claim (directory.renumbered number)
  | .change c => .change (c.1.renumbered number, c.2)
  | batch rules builds => batch (renumberedAll number rules) builds
  | mount build => mount build

/-- The directories in an answer have ids up to this one. -/
def Answer.Within (last : Int) : Answer → Prop
  | claim directory => directory.id ≤ last
  | .change c => c.1.directoryId ≤ last
  | batch rules _ => ∀ entry ∈ rules, entry.2.directoryId ≤ last
  | mount _ => True

/-- Only numbers of directories that are there matter. -/
theorem Answer.Within.renumbered_eq {answer : Answer} {last : Int} {number other : Int → Int}
    (within : answer.Within last) (same : ∀ n ≤ last, number n = other n) :
    answer.renumbered number = answer.renumbered other := by
  cases answer with
  | claim directory => rw [renumbered, renumbered, Directory.renumbered, Directory.renumbered, same _ within]
  | change c => rw [renumbered, renumbered, Rule.renumbered, Rule.renumbered, same _ within]
  | batch rules builds =>
    refine congrArg (batch · builds) (List.map_congr_left fun entry member => ?_)
    rw [Rule.renumbered, Rule.renumbered, same _ (within entry member)]
  | mount build => rfl

variable [RuleStore σ] [RuleStore.Lawful σ] [RuleStore.Counted σ] [RuleStore τ] [RuleStore.Lawful τ] [RuleStore.Counted τ]

open RuleStore.Lawful (Holds)
open RuleStore.Counted (lasts)

/-- Registries that apply the same rules to the same snapshots, but for the numbers of directories and for times, and
whose stores have given out ids side by side. -/
structure Near (number : Int → Int) (floor : Int) (room : Nat) (m : Registry σ) (d : Registry τ) : Prop where
  atlas : m.atlas.renumbered number = d.atlas.renumbered id
  paced : (lasts m.store).Paced number floor room (lasts d.store)

/-- The same answers, but for the numbers of directories and for times. -/
structure Alike (number : Int → Int) (floor : Int) (room : Nat) (answer : Answer) (m : Registry σ) (answer' : Answer)
    (d : Registry τ) : Prop extends Near number floor room m d where
  same : answer.renumbered number = answer'.renumbered id
  within : answer.Within (lasts m.store).directory

/-- Registries whose stores agree with them. -/
structure Twins (number : Int → Int) (floor : Int) (room : Nat) (m : Registry σ) (d : Registry τ) : Prop
    extends Near number floor room m d where
  agrees : Agrees room False (fun _ => True) m.store m.atlas
  agrees' : Agrees room False (fun _ => True) d.store d.atlas

variable {number : Int → Int} {floor : Int} {room count : Nat} {m : Registry σ} {d : Registry τ}

namespace Near

theorem rules (near : Near number floor room m d) :
    m.atlas.rules.renumbered number = d.atlas.rules.renumbered id := congrArg Atlas.rules near.atlas

theorem spent (near : Near number floor (count + room) m d) : Near number floor room m d :=
  ⟨near.atlas, near.paced.spent⟩

/-- Nothing has happened. -/
theorem stays (near : Near number floor room m d) {good : α → Registry σ → β → Registry τ → Prop}
    {result : EStateM.Result Error (Registry σ) α} {result' : EStateM.Result Error (Registry τ) β}
    (abreast : Abreast good (fun _ m' d' => m' = m ∧ d' = d) result result') :
    Abreast good (fun _ m' d' => Near number floor room m' d') result result' := by
  refine abreast.imp (fun _ _ _ _ here => here) ?_
  rintro _ _ _ ⟨rfl, rfl⟩
  exact near

/-- The stores have changed, but have not given out an id. -/
theorem kept (near : Near number floor room m d) {store : σ} {store' : τ} (counted : lasts store = lasts m.store)
    (counted' : lasts store' = lasts d.store) : Near number floor room { m with store } { d with store := store' } :=
  ⟨near.atlas, by rw [counted, counted']; exact near.paced⟩

/-- A directory is claimed on both sides or on neither. -/
theorem claims (near : Near number floor room m d) (path : String) :
    (m.atlas.directory? path = none ∧ d.atlas.directory? path = none) ∨
    ∃ claim claim', m.atlas.directory? path = some claim ∧ d.atlas.directory? path = some claim' ∧
      claim.renumbered number = claim'.renumbered id := by
  refine both_or_neither ?_
  rw [Atlas.directory?, Atlas.directory?, ← RuleSet.get?_renumbered, near.rules, RuleSet.get?_renumbered]

theorem claimed_abreast (near : Near number floor room m d) (path : String) :
    Abreast (fun claim m' claim' d' => m' = m ∧ d' = d ∧ m.atlas.directory? path = some claim ∧
        d.atlas.directory? path = some claim' ∧ claim.renumbered number = claim'.renumbered id)
      (fun _ m' d' => m' = m ∧ d' = d) (claimed path m) (claimed path d) := by
  rcases near.claims path with ⟨here, there⟩ | ⟨claim, claim', here, there, same⟩
  · rw [claimed_none here, claimed_none there]
    exact .error ⟨rfl, rfl⟩
  · rw [claimed_some here, claimed_some there]
    exact .ok ⟨rfl, rfl, here, there, same⟩

omit [RuleStore σ] [RuleStore.Lawful σ] [RuleStore.Counted σ] [RuleStore τ] [RuleStore.Lawful τ] [RuleStore.Counted τ] in
theorem validate_abreast (m : Registry σ) (d : Registry τ) (pattern : String) :
    Abreast (fun _ m' _ d' => m' = m ∧ d' = d) (fun _ m' d' => m' = m ∧ d' = d) (validate pattern m)
      (validate pattern d) := by
  rw [validate, validate, Pattern.validate]
  cases Pattern.objection? pattern with
  | none => exact .ok ⟨rfl, rfl⟩
  | some reason => exact .error ⟨rfl, rfl⟩

/-- A rule is new on both beside the same rules. -/
theorem admitted_abreast (near : Near number floor room m d) {before before' : List (String × Rule)}
    (same : renumberedAll number before = renumberedAll id before') (dir : String) (rule : Rule) :
    Abreast (fun made m' made' d' => m' = m ∧ d' = d ∧ made.renumbered number = made'.renumbered id)
      (fun _ m' d' => m' = m ∧ d' = d) (admitted before dir rule m) (admitted before' dir rule d) := by
  rw [admitted, admitted]
  refine Abreast.bind (validate_abreast m d rule.pattern) ?_
  rintro _ _ _ _ ⟨rfl, rfl⟩
  refine Abreast.bind (near.claimed_abreast dir) ?_
  rintro claim _ claim' _ ⟨rfl, rfl, _, _, equal⟩
  have known : claim.rules.contains rule.pattern = claim'.rules.contains rule.pattern :=
    Claim.contains_of_renumbered equal rule.pattern
  have owner : number claim.directory.id = claim'.directory.id := congrArg (·.directory.id) equal
  rw [known, any_of_renumberedAll same]
  · split
    · exact .error ⟨rfl, rfl⟩
    · refine .ok ⟨rfl, rfl, ?_⟩
      simp only [Rule.renumbered, owner, Rule.untimed, id]
  · exact fun _ _ => rfl

theorem admittedAll_abreast (near : Near number floor room m d) (batch : List (String × Rule))
    {before before' : List (String × Rule)} (same : renumberedAll number before = renumberedAll id before') :
    Abreast (fun all m' all' d' => m' = m ∧ d' = d ∧ renumberedAll number all = renumberedAll id all')
      (fun _ m' d' => m' = m ∧ d' = d) (admittedAll before batch m) (admittedAll before' batch d) := by
  induction batch generalizing before before' with
  | nil => exact .ok ⟨rfl, rfl, same⟩
  | cons entry batch ih =>
    obtain ⟨dir, rule⟩ := entry
    refine Abreast.bind (near.admitted_abreast same dir rule) ?_
    rintro made _ made' _ ⟨rfl, rfl, equal⟩
    have both : renumberedAll number (before ++ [(dir, made)]) = renumberedAll id (before' ++ [(dir, made')]) := by
      rw [renumberedAll, renumberedAll, List.map_append, List.map_append]
      exact congrArg₂ (· ++ ·) same (congrArg (fun rule => [(dir, rule)]) equal)
    exact ih both

/-- A change of the atlas that does the same whatever directories are numbered. -/
theorem onAtlas_abreast (near : Near number floor room m d) {change : Atlas.Change α} {change' : Atlas.Change β}
    {γ : Type} {f : α → γ} {g : β → γ}
    (same : seen f (Atlas.renumbered number) (change m.atlas) = seen g (Atlas.renumbered id) (change' d.atlas)) :
    Abreast (fun a m' b d' => f a = g b ∧ Near number floor room m' d' ∧
        (∃ atlas, change m.atlas = .ok a atlas ∧ m' = { m with atlas }) ∧
        ∃ atlas, change' d.atlas = .ok b atlas ∧ d' = { d with atlas })
      (fun _ m' d' => Near number floor room m' d' ∧ m'.store = m.store ∧ d'.store = d.store)
      (onAtlas change m) (onAtlas change' d) := by
  rw [onAtlas, onAtlas]
  cases here : change m.atlas with
  | ok a atlas =>
    cases there : change' d.atlas with
    | ok b atlas' =>
      rw [here, there] at same
      obtain ⟨answers, atlases⟩ := EStateM.Result.ok.inj same
      exact .ok ⟨answers, ⟨atlases, near.paced⟩, ⟨atlas, rfl, rfl⟩, atlas', rfl, rfl⟩
    | error e atlas' =>
      rw [here, there] at same
      cases same
  | error e atlas =>
    cases there : change' d.atlas with
    | ok b atlas' =>
      rw [here, there] at same
      cases same
    | error e' atlas' =>
      rw [here, there] at same
      obtain ⟨rfl, atlases⟩ := EStateM.Result.error.inj same
      exact .error ⟨⟨atlases, near.paced⟩, rfl, rfl⟩

end Near

theorem Twins.spent (twins : Twins number floor (count + room) m d) : Twins number floor room m d :=
  ⟨twins.toNear.spent, twins.agrees.spent, twins.agrees'.spent⟩

theorem Twins.lower {least : Int} (twins : Twins number floor room m d) (below : least ≤ floor) :
    Twins number least room m d :=
  ⟨⟨twins.atlas, twins.paced.lower below⟩, twins.agrees, twins.agrees'⟩

theorem Twins.fromHere (twins : Twins number floor room m d) :
    Twins number (lasts m.store).directory room m d := by
  obtain ⟨⟨atlas, rule, _, behind, later, directories, rules⟩, agrees, agrees'⟩ := twins
  exact ⟨⟨atlas, rule, Int.le_refl _, behind, later, directories, rules⟩, agrees, agrees'⟩

/-- A change ends with a note and an answer. -/
theorem Alike.noted {a : α} {b : β} (wrap : α → Answer) (wrap' : β → Answer)
    (alike : Alike number floor room (wrap a) m (wrap' b) d) (timing timing' : Timing) (event event' : JournalEvent)
    {bad : Error → Registry σ → Registry τ → Prop} :
    Abreast (fun a m b d => Alike number floor room (wrap a) m (wrap' b) d) bad
      ((do note timing event; return a : Change σ α) m) ((do note timing' event'; return b : Change τ β) d) :=
  .ok ⟨⟨alike.atlas, alike.paced⟩, alike.same, alike.within⟩

/-- A step that takes something back, as far as it can: it always succeeds, gives out no ids, and leaves the atlas
alone. -/
def TakesBack (step : Change σ Unit) (registry : Registry σ) : Prop :=
  ∃ next, step registry = .ok () next ∧ lasts next.store = lasts registry.store ∧ next.atlas = registry.atlas

variable {registry : Registry σ}

theorem takesBack_quietly {call : StoreCall σ α} (unmoved : Unmoved lasts registry.store (call registry.store)) :
    TakesBack (quietly (onStore call)) registry := by
  rw [TakesBack, quietly_eq, onStore]
  cases ran : call registry.store with
  | ok a store =>
    rw [ran] at unmoved
    exact ⟨{ registry with store }, rfl, unmoved, rfl⟩
  | error e store =>
    rw [ran] at unmoved
    exact ⟨{ registry with store }, rfl, unmoved, rfl⟩

theorem takesBack_noted {call : StoreCall σ α} (unmoved : Unmoved lasts registry.store (call registry.store))
    (timing : Timing) (dir pattern : String) (e : Error) :
    TakesBack (do quietly (onStore call); noteFailure timing dir pattern e) registry := by
  obtain ⟨next, taken, sameLasts, sameAtlas⟩ := takesBack_quietly unmoved
  obtain ⟨last, noted, sameStore, beside⟩ := noteFailure_ok timing dir pattern e next
  exact ⟨last, by rw [bind_eq, taken]; exact noted, by rw [sameStore, sameLasts], by rw [beside.atlas, sameAtlas]⟩

theorem takesBack_forM {items : List α} {step : α → Change σ Unit}
    (each : ∀ item (registry : Registry σ), TakesBack (step item) registry) : TakesBack (items.forM step) registry := by
  induction items generalizing registry with
  | nil => exact ⟨registry, rfl, rfl, rfl⟩
  | cons item items ih =>
    obtain ⟨next, taken, sameLasts, sameAtlas⟩ := each item registry
    have rest : TakesBack (items.forM step) next := ih
    obtain ⟨last, others, stillLasts, stillAtlas⟩ := rest
    exact ⟨last, by rw [List.forM, bind_eq, taken]; exact others, stillLasts.trans sameLasts,
      stillAtlas.trans sameAtlas⟩

/-- What is taken back on both leaves them near each other. -/
theorem undoing_abreast {change : Change σ α} {change' : Change τ β} {undo : Error → Change σ Unit}
    {undo' : Error → Change τ Unit} {good : α → Registry σ → β → Registry τ → Prop} {store : σ} {store' : τ}
    (ends : Abreast good (fun _ m' d' => Near number floor room m' d' ∧ m'.store = store ∧ d'.store = store') (change m)
      (change' d))
    (undoes : ∀ e (next : Registry σ), next.store = store → TakesBack (undo e) next)
    (undoes' : ∀ e (next : Registry τ), next.store = store' → TakesBack (undo' e) next) :
    Abreast good (fun _ m' d' => Near number floor room m' d') (undoing change undo m) (undoing change' undo' d) := by
  rw [undoing_eq, undoing_eq]
  generalize change m = result at ends
  generalize change' d = result' at ends
  cases ends with
  | ok here => exact .ok here
  | @error e next next' failed =>
    obtain ⟨near, here, there⟩ := failed
    obtain ⟨last, taken, sameLasts, sameAtlas⟩ := undoes e next here
    obtain ⟨last', taken', sameLasts', sameAtlas'⟩ := undoes' e next' there
    simp only [taken, taken']
    exact .error ⟨by rw [sameAtlas, sameAtlas', near.atlas], by rw [sameLasts, sameLasts']; exact near.paced⟩

end Registry
end BackupAtlas
