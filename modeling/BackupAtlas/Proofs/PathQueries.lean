import BackupAtlas.Proofs.Contents
import BackupAtlas.Proofs.Layouts
import BackupAtlas.Proofs.PlannedIds

namespace BackupAtlas

open TreePath

namespace TreePath

/-- A path is made of its pieces. -/
theorem flatten_pieces (path : List Char) : (pieces path).flatten = path := by
  induction path with
  | nil => rfl
  | cons c path ih =>
    rw [pieces]
    split
    · rename_i slash
      rw [List.flatten_cons, ih, slash, List.singleton_append]
    · split
      · rename_i nothing
        rw [nothing] at ih
        rw [← ih]
        rfl
      · rename_i piece others same
        rw [same, List.flatten_cons] at ih
        rw [List.flatten_cons, List.cons_append, ih]

theorem relative_eq {path : List Char} (noSlash : path.head? ≠ some '/') : relative path = path := by
  rw [relative]
  rintro more rfl
  exact noSlash rfl

/-- Segments make up a path but for its first slash. -/
theorem flatten_segments (path : String) : ((segments path).map String.toList).flatten = relative path.toList := by
  rw [segments, List.map_map]
  have same : (String.toList ∘ String.ofList) = id := funext fun _ => String.toList_ofList
  rw [same, List.map_id, flatten_pieces]

/-- What is behind the bytes of a path's beginning is the rest of the path. -/
theorem behindBytes_append (front rest : List Char) (size : Nat) :
    behindBytes ((String.ofList front).utf8ByteSize + size) (front ++ rest) = behindBytes size rest := by
  induction front with
  | nil =>
    rw [String.ofList_nil, String.utf8ByteSize_empty, Nat.zero_add, List.nil_append]
  | cons c front ih =>
    have wide := c.utf8Size_pos
    rw [String.ofList_cons, String.utf8ByteSize_append, String.utf8ByteSize_singleton, Nat.add_assoc, List.cons_append]
    obtain ⟨more, same⟩ : ∃ more, c.utf8Size + ((String.ofList front).utf8ByteSize + size) = more + 1 :=
      ⟨_, (Nat.succ_pred (by omega)).symm⟩
    rw [same, behindBytes, if_pos (by omega), ← same, Nat.add_sub_cancel_left, ih]

/-- Nothing is left behind one byte of nothing, or of something that starts with more than a byte. -/
theorem behindBytes_one {path : List Char} :
    behindBytes 1 path = none ↔ path = [] ∨ ∃ c rest, path = c :: rest ∧ 1 < c.utf8Size := by
  cases path with
  | nil => simp [behindBytes]
  | cons c rest =>
    have wide := c.utf8Size_pos
    rw [behindBytes]
    split
    · rename_i narrow
      have same : 0 + 1 - c.utf8Size = 0 := by omega
      rw [same, behindBytes]
      simp only [reduceCtorEq, false_or, false_iff, not_exists, not_and]
      rintro d more equal
      obtain ⟨rfl, _⟩ := List.cons.inj equal
      omega
    · simp only [reduceCtorEq, false_or, true_iff]
      exact ⟨c, rest, rfl, by omega⟩

end TreePath

namespace Sites

variable {sites : Sites} {names : List String} {overlay : Overlay}

/-- Segments lead into a snapshot if it is mounted under the first ones. -/
theorem locate_inside : sites.locate names = some (.inside overlay) ↔
    ∃ front rest, names = front ++ rest ∧ sites.at? front = some overlay := by
  induction names generalizing sites with
  | nil =>
    simp only [locate, Option.some.injEq, reduceCtorEq, List.nil_eq, List.append_eq_nil_iff, false_iff]
    rintro ⟨front, rest, ⟨rfl, rfl⟩, found⟩
    exact absurd found (by simp [at?])
  | cons name names ih =>
    rw [locate]
    constructor
    · intro located
      split at located
      · exact absurd located (by simp)
      · rename_i below known
        obtain ⟨front, rest, rfl, found⟩ := ih.mp located
        exact ⟨name :: front, rest, rfl, by rw [at?_cons, known]; exact found⟩
      · rename_i mounted known
        obtain rfl := Located.inside.inj (Option.some.inj located)
        exact ⟨[name], names, rfl, by rw [at?_cons, known]; rfl⟩
    · rintro ⟨front, rest, same, found⟩
      cases front with
      | nil => exact absurd found (by simp [at?])
      | cons first front =>
        obtain ⟨rfl, rfl⟩ := List.cons.inj same
        rw [at?_cons] at found
        cases known : sites.find? name with
        | none => simp [known] at found
        | some site =>
          rw [known, Option.bind_some] at found
          cases site with
          | dir below => exact ih.mpr ⟨front, rest, rfl, found⟩
          | mount mounted =>
            rw [Site.at?] at found
            split at found
            · rw [Option.some.inj found]
            · exact absurd found (by simp)

/-- What holds of all snapshots holds of those in a directory. -/
theorem Every.located {below : Sites} {holds : List String → Overlay → Prop}
    (every : sites.Every holds) (located : sites.locate names = some (.above below)) :
    below.Neat ∧ ∀ more overlay, below.at? more = some overlay → holds (names ++ more) overlay := by
  refine ⟨?_, fun more overlay found => every.each _ _ ((locate_above located more).2 ▸ found)⟩
  by_cases nothing : names = []
  · subst nothing
    exact Located.above.inj (Option.some.inj located) ▸ every.neat
  · exact ((locate_above located []).1 nothing every.neat).2

/-- Figures can be added up if all snapshots have some. -/
theorem exists_digests (neat : sites.Neat)
    (each : ∀ names overlay, sites.at? names = some overlay → ∃ digest, overlay.view.digest = .ok digest) :
    ∃ digests, sites.digests = .ok digests := by
  induction sites using consInduction with
  | nil => exact ⟨[], rfl⟩
  | cons name site rest ihSite ih =>
    obtain ⟨_, here, neatRest⟩ := neat_cons.mp neat
    obtain ⟨others, behind⟩ := ih neatRest fun names overlay found => each names overlay (neat.at?_of_rest found)
    cases site with
    | dir below =>
      obtain ⟨inner, inside⟩ := ihSite below rfl here.2 fun names overlay found =>
        each (name :: names) overlay ((at?_first names).trans found)
      refine ⟨(name, total inner) :: others, ?_⟩
      simp only [cons, digests, inside, behind, bind, Except.bind, pure, Except.pure]
    | mount overlay =>
      obtain ⟨digest, shown⟩ := each [name] overlay (at?_first [])
      refine ⟨(name, digest) :: others, ?_⟩
      simp only [cons, digests, shown, behind, bind, Except.bind, pure, Except.pure]

end Sites

namespace Overlay

variable {rule : List String → List Char → Nat} {names : List String} {uid gid : Nat} {inventory : Inventory}
variable {view : View}

/-- What a path may lead to in a snapshot. -/
inductive Finds (rule : List String → List Char → Nat) : Option Item → Prop
  | nothing : Finds rule none
  | file (stat : FileStat) : Finds rule (some (.file stat))
  | dir {names : List String} {uid gid : Nat} {inventory : Inventory} {view : View}
      (shows' : view.Shows rule names uid gid inventory) : Finds rule (some (.dir view))

/-- Every path leads somewhere or to nothing. -/
theorem find?_finds (shows' : view.Shows rule names uid gid inventory) (segments : List String) :
    ∃ found, find? view segments = .ok found ∧ Finds rule found := by
  obtain ⟨found, led, shown⟩ := find?_shown shows' segments
  refine ⟨found, led, ?_⟩
  generalize Inventory.Content.find? segments (.dir uid gid inventory) = content at shown
  cases shown with
  | none => exact .nothing
  | some here =>
    cases here with
    | file stat => exact .file stat
    | dir below => exact .dir below

/-- A snapshot that has a tagged tree, both of which can be read throughout. -/
structure Served (names : List String) (overlay : Overlay) : Prop extends overlay.Seat names where
  someNames : names ≠ []
  charged : ∃ uid gid inventory, inventory.IsTop uid gid overlay.top ∧ inventory.Mountable uid gid ∧ inventory.Named ∧
    ∃ tree, overlay.upper = some tree ∧ tree.Charges names inventory

variable {overlay : Overlay}

/-- A served snapshot shows its files under some rules. -/
theorem Served.shows (served : overlay.Served names) :
    ∃ rule uid gid inventory, overlay.view.Shows rule names uid gid inventory ∧ inventory.Named := by
  obtain ⟨_, _, uid, gid, inventory, isTop, mountable, named, tree, upper, rule, _, right⟩ := served
  refine ⟨rule, uid, gid, inventory, ⟨mountable.proper, isTop, ?_⟩, named⟩
  rw [view, upper]
  exact right

/-- A build leaves a snapshot that can be read. -/
theorem Served.of_build {uid gid : Nat} {inventory : Inventory} {plan : Plan} {dispatch : Dispatch} {upper : StoredTree}
    {report : Report} (seat : overlay.Seat names) (someNames : names ≠ []) (isTop : inventory.IsTop uid gid overlay.top)
    (mountable : inventory.Mountable uid gid) (named : inventory.Named) (idsFit : plan.IdsFit) (ready : Dispatch.ofPlan plan = .ok dispatch)
    (earlier : ∀ tree ∈ overlay.upper, tree.Charges names inventory)
    (built : build overlay.top overlay.root dispatch overlay.upper = .ok (upper, report)) :
    Served names { overlay with upper := some upper } := by
  obtain ⟨tree, _, also, _, charges⟩ := build_charging isTop mountable idsFit ready earlier
  rw [seat.root, also] at built
  obtain ⟨rfl, _⟩ := Prod.mk.inj (Except.ok.inj built)
  exact ⟨⟨seat.steps, seat.root⟩, someNames, uid, gid, inventory, isTop, mountable, named, tree, rfl, charges⟩

end Overlay

namespace Atlas

/-- Snapshots have been written from a census, and ids of rules are words of 64 bits. -/
def Call.Plain : Call → Prop
  | addTree lower _ => ∃ census : Census, census.Reached ∧ census.Fits ∧
    StoredTree.ofBytes census.toBytes = .ok lower
  | addRule _ rule | updateRule _ rule => rule.id < 2 ^ 64
  | addRules batch => ∀ entry ∈ batch, entry.2.id < 2 ^ 64
  | claim _ | updateDirectory _ | revoke _ | removeRule _ _ => True

/-- All mounted snapshots can be read, and so will be those that are built again. -/
structure Readable (atlas : Atlas) : Prop where
  idsFit : atlas.rules.IdsFit
  served : atlas.sites.Every fun names overlay => overlay.Served names

variable {atlas next : Atlas}

theorem addRules_idsFit {set after : RuleSet} {batch : List (String × Rule)} (fits : set.IdsFit)
    (words : ∀ entry ∈ batch, entry.2.id < 2 ^ 64)
    (ran : batch.forM (fun entry => RuleSet.addRule entry.1 entry.2) set = .ok () after) : after.IdsFit := by
  induction batch generalizing set with
  | nil =>
    obtain ⟨_, rfl⟩ := EStateM.Result.ok.inj ran
    exact fits
  | cons entry batch ih =>
    rw [List.forM, bind_eq] at ran
    split at ran
    · rename_i middle added
      have effect := (RuleSet.Edit.addRule entry.1 entry.2).effect added
      have word : (RuleSet.Edit.addRule entry.1 entry.2).IdFits := words entry List.mem_cons_self
      exact ih (fits.edit word effect) (fun other member => words other (List.mem_cons_of_mem _ member)) ran
    · exact absurd ran (by simp)

/-- Ids stay words. -/
theorem Call.Plain.idsFit {call : Call} (plain : call.Plain) (fits : atlas.rules.IdsFit)
    (ran : call.run atlas = .ok () next) : next.rules.IdsFit := by
  have edited : ∀ edit : RuleSet.Edit, edit.IdFits → edit.run atlas.rules = .ok () next.rules → next.rules.IdsFit :=
    fun edit small done => fits.edit small (RuleSet.Edit.effect done)
  cases call with
  | addTree lower source =>
    obtain ⟨_, done⟩ := discard_ok ran
    have ends : Ends _ _ (Atlas.addTree lower source atlas) := addTree_ends lower source
    rw [done] at ends
    exact ends.1 ▸ fits
  | claim directory =>
    have ends : Ends _ _ (Atlas.claim directory atlas) := claim_ends directory
    rw [show Atlas.claim directory atlas = .ok () next from ran] at ends
    exact edited (.claim directory) trivial ends.1
  | updateDirectory directory =>
    have ends : Ends _ _ (Atlas.updateDirectory directory atlas) := updateDirectory_ends directory
    rw [show Atlas.updateDirectory directory atlas = .ok () next from ran] at ends
    exact edited (.updateDirectory directory) trivial ends.1
  | revoke path =>
    obtain ⟨_, done⟩ := discard_ok ran
    have ends : Ends _ _ (Atlas.revoke path atlas) := revoke_ends path
    rw [done] at ends
    exact edited (.revoke path) trivial (by rw [RuleSet.Edit.run_revoke, ends.1])
  | addRule dir rule =>
    obtain ⟨_, done⟩ := discard_ok ran
    have ends : Ends _ _ (Atlas.addRule dir rule atlas) := addRule_ends dir rule
    rw [done] at ends
    exact edited (.addRule dir rule) plain ends.1
  | addRules batch =>
    obtain ⟨_, done⟩ := discard_ok ran
    have ends : Ends _ _ (Atlas.addRules batch atlas) := addRules_ends batch
    rw [done] at ends
    exact addRules_idsFit fits plain ends.1
  | removeRule dir pattern =>
    obtain ⟨gone, done⟩ := discard_ok ran
    have ends : Ends _ _ (Atlas.removeRule dir pattern atlas) := removeRule_ends dir pattern
    rw [done] at ends
    exact edited (.removeRule dir pattern) trivial (by rw [RuleSet.Edit.run_removeRule, ends.1])
  | updateRule dir rule =>
    obtain ⟨_, done⟩ := discard_ok ran
    have ends : Ends _ _ (Atlas.updateRule dir rule atlas) := updateRule_ends dir rule
    rw [done] at ends
    obtain ⟨previous, updated, _⟩ := ends
    exact edited (.updateRule dir rule) plain (by rw [RuleSet.Edit.run_updateRule, updated])

/-- Calls keep an atlas readable, whether they succeed or fail. -/
theorem Readable.after_call (readable : atlas.Readable) {call : Call} (plain : call.Plain) :
    (after call.run atlas).Readable := by
  rw [after]
  cases ran : call.run atlas with
  | error e next =>
    obtain rfl := Call.unchanged ran
    exact readable
  | ok _ next =>
    have fits := plain.idsFit readable.idsFit ran
    refine ⟨fits, Call.every ran readable.served (fun _ _ here => here.toSeat) ?_ ?_⟩
    · rintro changed names overlay rebuilt report ⟨seat, someNames, uid, gid, inventory, isTop, mountable, named, tree,
        has, charges⟩ done
      obtain ⟨dispatch, upper, inner, planned, built, rfl, _⟩ := rebuild_ok done
      refine Overlay.Served.of_build seat someNames isTop mountable named (Plan.compile_idsFit fits _ _) planned ?_ built
      rintro previous same
      obtain rfl := Option.some.inj (has.symm.trans same)
      exact charges
    · rintro lower source overlay dispatch upper report rfl mounts below planned built
      obtain ⟨census, recorded, censusFits, opened⟩ := plain
      obtain ⟨_, top, also, opens, isTop⟩ := censusFits.opens recorded.sound
      obtain rfl := Except.ok.inj (opened.symm.trans also)
      obtain rfl := Except.ok.inj (mounts.symm.trans (opens source))
      obtain ⟨names, seat⟩ := Overlay.exists_seat (Overlay.ofTree_ok mounts).2.2.1
      rw [seat.segments]
      refine Overlay.Served.of_build seat ?_ isTop (censusFits.mountable recorded.sound) recorded.sound.named
        (Plan.compile_idsFit readable.idsFit _ _) planned (fun tree known => by cases known) built
      rintro rfl
      exact below (seat.root.trans ofList_dirOf_nil)

/-- An atlas stays readable whatever calls are made. -/
theorem Readable.afterCalls (readable : atlas.Readable) {calls : List Call} (plain : ∀ call ∈ calls, call.Plain) :
    (atlas.afterCalls calls).Readable := by
  induction calls generalizing atlas with
  | nil => exact readable
  | cons call calls ih =>
    exact ih (readable.after_call (plain call List.mem_cons_self)) fun next member =>
      plain next (List.mem_cons_of_mem _ member)

/-- A path without a slash at the front names the root of a mounted snapshot, and behind it nothing or what does not
start with a single byte. -/
def Overruns (atlas : Atlas) (path : String) : Prop :=
  path.toList.head? ≠ some '/' ∧ ∃ root ∈ atlas.mounts, ∃ rest, '/' :: path.toList = root.toList ++ rest ∧
    (rest = [] ∨ ∃ c more, rest = c :: more ∧ 1 < c.utf8Size)

/-- What a path that does not overrun may lead to. -/
inductive Leads (path : String) : Target → Prop
  | above {below : Sites} {summary : Summary} (added : below.summary = .ok summary)
      (ends : path ≠ "" → isDir path) : Leads path (.above below)
  | absent : Leads path .absent
  | file (stat : FileStat) : Leads path (.item (.file stat))
  | dir {rule : List String → List Char → Nat} {names : List String} {uid gid : Nat} {inventory : Inventory} {view : View}
      (shows' : view.Shows rule names uid gid inventory) : Leads path (.item (.dir view))

variable {path : String}

/-- A path that leads into a snapshot, cut behind as many bytes as its root has. -/
theorem Readable.behind_root (readable : atlas.Readable) {front rest : List String} {overlay : Overlay}
    (same : segments path = front ++ rest) (found : atlas.sites.at? front = some overlay) :
    behindBytes overlay.root.utf8ByteSize path.toList =
      if path.toList.head? = some '/' then some (rest.map String.toList).flatten
      else behindBytes 1 (rest.map String.toList).flatten := by
  have seat := (readable.served.each _ _ found).toSeat
  have whole := flatten_segments path
  rw [same, List.map_append, List.flatten_append] at whole
  have size : overlay.root.utf8ByteSize =
      (String.ofList (front.map String.toList).flatten).utf8ByteSize + 1 := by
    rw [seat.root, dirOf, String.ofList_cons, String.utf8ByteSize_append, String.utf8ByteSize_singleton, Nat.add_comm]
    rfl
  split
  · rename_i slash
    obtain ⟨more, absolute⟩ : ∃ more, path.toList = '/' :: more := List.head?_eq_some_iff.mp slash
    have cut := behindBytes_append (dirOf front) (rest.map String.toList).flatten 0
    rw [absolute, relative] at whole
    rw [absolute, ← whole]
    rw [Nat.add_zero, ← seat.root, behindBytes, dirOf, List.cons_append] at cut
    exact cut
  · rename_i noSlash
    rw [relative_eq noSlash] at whole
    rw [← whole, size, behindBytes_append]

/-- A path overruns if it leads into a snapshot of which the root is longer than the path, or ends within one of its
characters. -/
theorem Readable.overruns_iff (readable : atlas.Readable) : atlas.Overruns path ↔ ∃ front rest overlay,
    segments path = front ++ rest ∧ atlas.sites.at? front = some overlay ∧
      behindBytes overlay.root.utf8ByteSize path.toList = none := by
  constructor
  · rintro ⟨noSlash, root, listed, more, whole, cut⟩
    obtain ⟨overlay, member, rfl⟩ := mem_mounts.mp listed
    obtain ⟨front, found⟩ := (Sites.mem_overlays readable.served.neat).mp member
    have seat := (readable.served.each _ _ found).toSeat
    rw [seat.root, String.toList_ofList, dirOf, List.cons_append, List.cons.injEq] at whole
    have led : segments path = front ++ (pieces more).map String.ofList := by
      rw [segments, relative_eq noSlash, whole.2, pieces_flatten_append seat.steps.toList, List.map_append, List.map_map]
      simp [Function.comp_def]
    refine ⟨front, _, overlay, led, found, ?_⟩
    rw [readable.behind_root led found, if_neg noSlash, List.map_map]
    have same : String.toList ∘ String.ofList = id := funext fun _ => String.toList_ofList
    rw [same, List.map_id, flatten_pieces]
    exact behindBytes_one.mpr cut
  · rintro ⟨front, rest, overlay, same, found, cut⟩
    rw [readable.behind_root same found] at cut
    split at cut
    · exact absurd cut (by simp)
    · rename_i noSlash
      have seat := (readable.served.each _ _ found).toSeat
      have whole := flatten_segments path
      rw [same, List.map_append, List.flatten_append, relative_eq noSlash] at whole
      refine ⟨noSlash, overlay.root, mem_mounts.mpr ⟨_, (Sites.mem_overlays readable.served.neat).mpr ⟨_, found⟩, rfl⟩,
        (rest.map String.toList).flatten, ?_, behindBytes_one.mp cut⟩
      rw [seat.root, String.toList_ofList, dirOf, ← whole, List.cons_append]

/-- A path that is cut short by the root it leads into has no target. -/
theorem Readable.target_of_overruns (readable : atlas.Readable) (overruns : atlas.Overruns path) :
    atlas.target path = .error .outOfRange := by
  obtain ⟨front, rest, overlay, same, found, cut⟩ := readable.overruns_iff.mp overruns
  rw [target, Sites.locate_inside.mpr ⟨front, rest, same, found⟩]
  simp only [cut]

/-- The segments of a directory above the snapshots are steps. -/
theorem Readable.isDir_above (readable : atlas.Readable) {below : Sites} (someSegments : segments path ≠ [])
    (located : atlas.sites.locate (segments path) = some (.above below)) : isDir path := by
  obtain ⟨someBelow, neatBelow⟩ := (Sites.locate_above located []).1 someSegments readable.served.neat
  obtain ⟨more, overlay, found⟩ := neatBelow.exists_at? someBelow
  rw [(Sites.locate_above located more).2] at found
  have steps := AreSteps.of_prefix (readable.served.each _ _ found).steps (List.prefix_append _ _)
  obtain ⟨front, last, same⟩ := List.eq_nil_or_concat (segments path) |>.resolve_left someSegments
  have ends : (relative path.toList).getLast? = some '/' := by
    rw [← flatten_segments, same, List.concat_eq_append, List.map_append, List.flatten_append, List.getLast?_append]
    have step := steps last (by simp [same])
    simp [step.getLast?]
  rw [isDir, beq_iff_eq]
  cases characters : path.toList with
  | nil => simp [characters, relative] at ends
  | cons c rest =>
    by_cases slash : c = '/'
    · rw [characters, slash, relative] at ends
      rw [List.getLast?_cons, ends]
      rfl
    · rwa [relative_eq (by simp [characters, slash]), characters] at ends

/-- Every other path has a target. -/
theorem Readable.target_leads (readable : atlas.Readable) (inRange : ¬ atlas.Overruns path) :
    ∃ target, atlas.target path = .ok target ∧ Leads path target := by
  rw [target]
  cases located : atlas.sites.locate (segments path) with
  | none => exact ⟨_, rfl, .absent⟩
  | some place =>
    cases place with
    | above below =>
      obtain ⟨neat, each⟩ := readable.served.located located
      obtain ⟨digests, added⟩ := Sites.exists_digests neat fun more overlay found => by
        obtain ⟨rule, uid, gid, inventory, shown, _⟩ := (each more overlay found).shows
        exact ⟨_, shown.digest⟩
      have summed : below.summary = .ok { digest := Sites.total digests, children := .ofList digests } := by
        rw [Sites.summary, added]
        rfl
      refine ⟨_, rfl, .above summed fun somePath => ?_⟩
      by_cases nothing : segments path = []
      · have whole : [] = relative path.toList := (congrArg (fun names => (names.map String.toList).flatten) nothing).symm.trans
          (flatten_segments path)
        by_cases slash : path.toList.head? = some '/'
        · obtain ⟨rest, absolute⟩ := List.head?_eq_some_iff.mp slash
          rw [absolute, relative] at whole
          rw [isDir, absolute, ← whole]
          rfl
        · rw [relative_eq slash] at whole
          exact absurd (String.toList_inj.mp whole.symm) somePath
      · exact readable.isDir_above nothing located
    | inside overlay =>
      obtain ⟨front, rest, same, found⟩ := Sites.locate_inside.mp located
      obtain ⟨rule, uid, gid, inventory, shown, _⟩ := (readable.served.each _ _ found).shows
      cases cut : behindBytes overlay.root.utf8ByteSize path.toList with
      | none => exact absurd (readable.overruns_iff.mpr ⟨front, rest, overlay, same, found, cut⟩) inRange
      | some relative =>
        obtain ⟨item, led, finds⟩ := Overlay.find?_finds shown (segments (String.ofList relative))
        have looked : overlay.lookup (String.ofList relative) = .ok item := led
        simp only [cut, looked, liftM, monadLift, MonadLift.monadLift, bind, Except.bind, pure, Except.pure]
        cases finds with
        | nothing => exact ⟨_, rfl, .absent⟩
        | file stat => exact ⟨_, rfl, .file stat⟩
        | dir shows' => exact ⟨_, rfl, .dir shows'⟩

/-- How queries for a path are answered: with a value, or not found. An owner is known exactly of what has a kind, and
figures exactly of directories. -/
structure Responds (atlas : Atlas) (naming : Naming) (path : String) : Prop where
  summary : (∃ summary, atlas.summary naming path = .ok summary) ∨ atlas.summary naming path = missing path
  owner : (∃ owner, atlas.owner path = .ok owner) ∨ atlas.owner path = missing path
  isDirectory : (∃ isDir, atlas.isDirectory path = .ok isDir) ∨ atlas.isDirectory path = missing path
  owner_iff : path ≠ "" → ((∃ owner, atlas.owner path = .ok owner) ↔ ∃ isDir, atlas.isDirectory path = .ok isDir)
  summary_iff : (∃ summary, atlas.summary naming path = .ok summary) ↔ atlas.isDirectory path = .ok true

variable {naming : Naming}

theorem summary_of_figures {summary : Summary} (known : atlas.figures path = .ok summary) :
    ∃ shown, atlas.summary naming path = .ok shown := by
  rw [Atlas.summary, known]
  exact ⟨_, rfl⟩

theorem summary_of_fault {fault : QueryFault} (failed : atlas.figures path = .error fault) :
    atlas.summary naming path = .error fault := by
  rw [Atlas.summary, failed]
  rfl

theorem responds_dir {owner : Owner} {summary : Summary} (isDirectory : atlas.isDirectory path = .ok true)
    (owned : atlas.owner path = .ok owner) (known : atlas.figures path = .ok summary) : atlas.Responds naming path where
  summary := Or.inl (summary_of_figures known)
  owner := Or.inl ⟨owner, owned⟩
  isDirectory := Or.inl ⟨true, isDirectory⟩
  owner_iff _ := ⟨fun _ => ⟨true, isDirectory⟩, fun _ => ⟨owner, owned⟩⟩
  summary_iff := ⟨fun _ => isDirectory, fun _ => summary_of_figures known⟩

/-- Where there are no figures, there is no directory. -/
theorem responds_plain (unknown : atlas.figures path = missing path)
    (isDirectory : atlas.isDirectory path = .ok false ∨ atlas.isDirectory path = missing path)
    (owned : (∃ owner, atlas.owner path = .ok owner) ∨ atlas.owner path = missing path)
    (agree : path ≠ "" → ((∃ owner, atlas.owner path = .ok owner) ↔ ∃ isDir, atlas.isDirectory path = .ok isDir)) :
    atlas.Responds naming path where
  summary := Or.inr (summary_of_fault unknown)
  owner := owned
  isDirectory := isDirectory.imp_left fun known => ⟨false, known⟩
  owner_iff := agree
  summary_iff := by
    rw [summary_of_fault unknown]
    rcases isDirectory with known | known <;> simp [known, missing]

/-- What a path leads to responds to all queries alike. -/
theorem Leads.responds {target : Target} (leads : Leads path target) (led : atlas.target path = .ok target) :
    atlas.Responds naming path := by
  cases leads with
  | @above below summary added ends =>
    by_cases dirPath : isDir path
    · have known : atlas.figures path = .ok summary := by
        simp only [figures, led, bind, Except.bind, if_pos dirPath, added]
        rfl
      have owned : atlas.owner path = .ok ⟨0, 0⟩ := by
        simp only [Atlas.owner, led, bind, Except.bind, if_pos dirPath]
        rfl
      have isDirectory : atlas.isDirectory path = .ok true := by
        simp only [Atlas.isDirectory, led, bind, Except.bind, dirPath]
        rfl
      exact responds_dir isDirectory owned known
    · have unknown : atlas.figures path = missing path := by
        simp only [figures, led, bind, Except.bind, if_neg dirPath]
      have nobody : atlas.owner path = missing path := by
        simp only [Atlas.owner, led, bind, Except.bind, if_neg dirPath]
      have isDirectory : atlas.isDirectory path = .ok false := by
        simp only [Atlas.isDirectory, led, bind, Except.bind, dirPath]
        rfl
      exact responds_plain unknown (Or.inl isDirectory) (Or.inr nobody) fun somePath => absurd (ends somePath) dirPath
  | absent =>
    have unknown : atlas.figures path = missing path := by simp only [figures, led, bind, Except.bind]
    have nobody : atlas.owner path = missing path := by simp only [Atlas.owner, led, bind, Except.bind]
    have nothing : atlas.isDirectory path = missing path := by simp only [Atlas.isDirectory, led, bind, Except.bind]
    exact responds_plain unknown (Or.inr nothing) (Or.inr nobody) fun _ => by simp [nobody, nothing, missing]
  | file stat =>
    have unknown : atlas.figures path = missing path := by simp only [figures, led, bind, Except.bind]
    have owned : atlas.owner path = .ok ⟨stat.uid, stat.gid⟩ := by
      simp only [Atlas.owner, led, bind, Except.bind]
      rfl
    have isFile : atlas.isDirectory path = .ok false := by
      simp only [Atlas.isDirectory, led, bind, Except.bind]
      rfl
    exact responds_plain unknown (Or.inl isFile) (Or.inl ⟨_, owned⟩) fun _ => by simp [owned, isFile]
  | @dir rule names uid gid inventory view shows' =>
    have known : atlas.figures path = .ok (inventory.summary rule names uid gid) := by
      simp only [figures, led, bind, Except.bind, shows'.summary]
      rfl
    have owned : atlas.owner path = .ok ⟨uid, gid⟩ := by
      simp only [Atlas.owner, led, bind, Except.bind, shows'.owner]
      rfl
    have isDirectory : atlas.isDirectory path = .ok true := by
      simp only [Atlas.isDirectory, led, bind, Except.bind]
      rfl
    exact responds_dir isDirectory owned known

/-- An atlas that has just been made is readable. -/
theorem readable_of_ofRules {rules : RuleSet} {start : Atlas} (idsFit : rules.IdsFit)
    (loaded : ofRules rules = .ok start) : start.Readable := by
  obtain ⟨same, empty⟩ := ofRules_eq loaded
  exact ⟨same ▸ idsFit, empty ▸ .nil⟩

/-- No query has an answer for a path that overruns. -/
theorem Readable.unanswered (readable : atlas.Readable) (overruns : atlas.Overruns path) (naming : Naming) :
    atlas.summary naming path = .error .outOfRange ∧ atlas.owner path = .error .outOfRange ∧
      atlas.isDirectory path = .error .outOfRange := by
  have stops := readable.target_of_overruns overruns
  have figures : atlas.figures path = .error .outOfRange := by simp only [figures, stops, bind, Except.bind]
  refine ⟨summary_of_fault figures, ?_, ?_⟩
  · simp only [Atlas.owner, stops, bind, Except.bind]
  · simp only [Atlas.isDirectory, stops, bind, Except.bind]

/-- Every path that does not overrun is answered with a value or is not found, whatever has been done to the atlas, and
the answers agree unless the path is empty. For paths that overrun there are no answers, and the empty path has a kind
but no owner. -/
theorem path_queries_agree {rules : RuleSet} {start : Atlas} (idsFit : rules.IdsFit) (loaded : ofRules rules = .ok start)
    {calls : List Call} (plain : ∀ call ∈ calls, call.Plain) (naming : Naming) (path : String) :
    (¬ (start.afterCalls calls).Overruns path → (start.afterCalls calls).Responds naming path) ∧
      ((start.afterCalls calls).Overruns path → (start.afterCalls calls).summary naming path = .error .outOfRange ∧
        (start.afterCalls calls).owner path = .error .outOfRange ∧
        (start.afterCalls calls).isDirectory path = .error .outOfRange) ∧
      (start.afterCalls calls).isDirectory "" = .ok false ∧ (start.afterCalls calls).owner "" = missing "" := by
  have readable := (readable_of_ofRules idsFit loaded).afterCalls plain
  generalize start.afterCalls calls = atlas at readable
  refine ⟨fun inRange => ?_, fun overruns => readable.unanswered overruns naming, rfl, rfl⟩
  obtain ⟨target, led, leads⟩ := readable.target_leads inRange
  exact leads.responds led

/-- A path below a mounted snapshot. -/
theorem path_queries_agree_below : ∃ (start : Atlas) (lower : StoredTree), ofRules .empty = .ok start ∧
    (start.afterCalls [.addTree lower "tree"]).mounts = ["/a/"] ∧
    ¬ (start.afterCalls [.addTree lower "tree"]).Overruns "/a/b/c" ∧
    (start.afterCalls [.addTree lower "tree"]).Responds ({} : NameTable).name "/a/b/c" := by
  obtain ⟨census, start, lower, recorded, fits, _, _, begun, opened, listed⟩ := exists_single_mount
  have inRange : ¬ (start.afterCalls [.addTree lower "tree"]).Overruns "/a/b/c" := fun overruns =>
    overruns.1 (by decide)
  refine ⟨start, lower, begun, listed, inRange, ?_⟩
  refine (path_queries_agree RuleSet.regular_empty.idsFit begun (fun call member => ?_) ({} : NameTable).name
    "/a/b/c").1 inRange
  obtain rfl := List.mem_singleton.mp member
  exact ⟨census, recorded, fits, opened⟩

/-- The root of a mounted snapshot without its first slash has no answer, though it is not unknown. And the empty path
has a kind but no owner. -/
theorem root_without_slash_overruns : ∃ (start : Atlas) (lower : StoredTree), ofRules .empty = .ok start ∧
    (Call.addTree lower "tree").Plain ∧ (start.afterCalls [.addTree lower "tree"]).mounts = ["/a/"] ∧
    (start.afterCalls [.addTree lower "tree"]).owner "a/" = .error .outOfRange ∧
    (start.afterCalls [.addTree lower "tree"]).isDirectory "a/" = .error .outOfRange ∧
    (start.afterCalls [.addTree lower "tree"]).isDirectory "" = .ok false ∧
    (start.afterCalls [.addTree lower "tree"]).owner "" = missing "" := by
  obtain ⟨census, start, lower, recorded, fits, _, _, begun, opened, listed⟩ := exists_single_mount
  have plain : (Call.addTree lower "tree").Plain := ⟨census, recorded, fits, opened⟩
  have readable : (start.afterCalls [.addTree lower "tree"]).Readable :=
    (readable_of_ofRules RuleSet.regular_empty.idsFit begun).after_call plain
  have overruns : (start.afterCalls [.addTree lower "tree"]).Overruns "a/" :=
    ⟨by decide, "/a/", by simp [listed], [], by decide, Or.inl rfl⟩
  have stops := readable.unanswered overruns ({} : NameTable).name
  exact ⟨start, lower, begun, plain, listed, stops.2.1, stops.2.2, rfl, rfl⟩

end Atlas
end BackupAtlas
