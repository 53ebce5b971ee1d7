import BackupAtlas.Proofs.DeepestClaim
import BackupAtlas.Proofs.RecordedFiles

namespace BackupAtlas

open TreePath

/-- The rule of a path is below every bound on the rules there are. -/
theorem RuleMap.Proper.ruleOf_lt {map : RuleMap} (proper : map.Proper) {bound : Nat} (positive : 0 < bound)
    (each : ∀ names, ∀ entry ∈ map names, entry.2 < bound) (names : List String) (rest : List Char) :
    map.ruleOf names rest < bound := by
  rw [ruleOf]
  generalize dirOf names ++ rest = path
  generalize names.reverse = trail
  have own : ∀ names rule, map.own path names = some rule → rule < bound := by
    intro names rule found
    rw [RuleMap.own] at found
    rcases pick_spec (proper.distinct names) (path.drop (dirOf names).length) with ⟨none, _⟩ |
      ⟨text, _, picked, member, _⟩
    · rw [none] at found
      exact absurd found (by simp)
    · rw [picked] at found
      obtain rfl := Option.some.inj found
      exact each names _ member
  induction trail with
  | nil =>
    rw [upTo]
    cases found : map.own path [] with
    | none => exact positive
    | some rule => exact own _ _ found
  | cons name trail ih =>
    rw [upTo]
    cases found : map.own path (name :: trail).reverse with
    | none => exact ih
    | some rule => exact own _ _ found

namespace RuleSet

/-- Ids of rules are words of 64 bits. -/
def IdsFit (set : RuleSet) : Prop :=
  ∀ path claim pattern rule, set.get? path = some claim → claim.rules.get? pattern = some rule → rule.id < 2 ^ 64

variable {set : RuleSet}

/-- Whether the ids of all rules that are listed are words. -/
def allIdsFit (set : RuleSet) : Bool :=
  set.claims.entries.all fun entry => entry.2.rules.entries.all fun listed => listed.2.id < 2 ^ 64

theorem idsFit_of_allIdsFit (small : set.allIdsFit) : set.IdsFit := by
  intro path claim pattern rule claimed known
  simp only [allIdsFit, List.all_eq_true, decide_eq_true_eq] at small
  exact small _ (Catalog.get?_eq_some.mp claimed) _ (Catalog.get?_eq_some.mp known)

theorem exists_ofRecords_idsFit {α : Type} {directories : List Directory} {rules : List Rule} {names : List String}
    {view : RuleSet → α} {seen : α}
    (known : (ofRecords directories rules).toOption.map (fun set => (set.claims.names, set.allIdsFit, view set)) =
      some (names, true, seen)) (plain : ∀ path ∈ names, '*' ∉ path.toList) :
    ∃ set, ofRecords directories rules = .ok set ∧ set.Reached ∧ set.Starless ∧ set.IdsFit ∧ view set = seen := by
  obtain ⟨set, loaded, reached, starless, found⟩ := exists_ofRecords known plain
  obtain ⟨small, value⟩ := Prod.mk.inj found
  exact ⟨set, loaded, reached, starless, idsFit_of_allIdsFit small, value⟩

/-- Files are governed by rules with ids that fit. -/
theorem IdsFit.ruleOf_lt (idsFit : set.IdsFit) (sound : set.Sound) (starless : set.Starless) (names : List String)
    (rest : List Char) : set.rulesAt.ruleOf names rest < 2 ^ 64 := by
  refine (sound.proper starless).ruleOf_lt (by decide) (fun names entry member => ?_) names rest
  obtain ⟨claim, rule, claimed, listed, same⟩ := mem_rulesAt.mp member
  rw [← same]
  exact idsFit _ _ _ _ (sound.claimAt_eq_some.mp claimed).2 listed

end RuleSet

namespace Dispatch

variable {set : RuleSet}

/-- What is found for any path is the governing rule; a path that is not absolute has none. -/
structure Answers (dispatch : Dispatch) (map : RuleMap) : Prop where
  relative : ∀ path, path.head? ≠ some '/' → dispatch.ruleFor path = 0
  absolute : ∀ names rest, AreSteps names → '/' ∉ rest → dispatch.ruleFor (dirOf names ++ rest) = map.ruleOf names rest

/-- Two ways to find the governing rules find the same. -/
theorem Answers.unique {map : RuleMap} {first second : Dispatch} (answers : first.Answers map)
    (also : second.Answers map)
    (path : List Char) : first.ruleFor path = second.ruleFor path := by
  by_cases absolute : path.head? = some '/'
  · obtain ⟨names, rest, areSteps, plain, rfl⟩ := exists_dirOf absolute
    rw [answers.absolute names rest areSteps plain, also.absolute names rest areSteps plain]
  · rw [answers.relative path absolute, also.relative path absolute]

/-- All rules together find the governing rule of every file. -/
theorem ruleFor_all (sound : set.Sound) (starless : set.Starless) : ∃ all, Dispatch.all set = .ok all ∧
    all.Answers set.rulesAt := by
  obtain ⟨all, ready, compiled, _⟩ := ofPlan_spec sound starless areSteps_nil (by simp) Terrain.properDirs_none
  obtain ⟨files, also, relative, absolute⟩ := files_spec sound starless [] none
  obtain rfl := Except.ok.inj (also.symm.trans compiled)
  rw [ofList_dirOf_nil] at ready
  refine ⟨all, ready, ⟨fun path unrooted => ?_, fun names rest areSteps plain => ?_⟩⟩
  · rw [ruleFor, relative path unrooted, Option.getD_none]
  · rw [ruleFor, absolute names rest areSteps plain List.nil_prefix, RuleMap.ruleOf]

/-- The rule of a file by the search that remembers nothing, which can be run in a proof, unlike that of a lookup. -/
def searchedRule? (set : RuleSet) (names : List String) (rest : List Char) : Option Nat :=
  (all set).toOption.map fun all => (all.files.top.search (dirOf names ++ rest)).getD 0

theorem ruleOf_of_search (sound : set.Sound) (starless : set.Starless) {names : List String} {rest : List Char}
    {rule : Nat} (areSteps : AreSteps names) (plain : '/' ∉ rest)
    (known : searchedRule? set names rest = some rule) : set.rulesAt.ruleOf names rest = rule := by
  obtain ⟨all, ready, answers⟩ := ruleFor_all sound starless
  rw [searchedRule?, ready] at known
  rw [← answers.absolute names rest areSteps plain, ruleFor, Matcher.lookup_eq_search]
  exact Option.some.inj known

end Dispatch

section

variable {set : RuleSet} {scope : List String} {changed : Option (List String)} {old : RuleMap}
variable {uid gid : Nat} {inventory : Inventory} {top : Node} {previous : Option StoredTree}

/-- Rules are compiled for a snapshot and a tagged tree is built, from the previous one if there is one. -/
theorem compiled_build (sound : set.Sound) (starless : set.Starless) (idsFit : set.IdsFit) (areSteps : AreSteps scope)
    (plainScope : '*' ∉ dirOf scope) (proper : Terrain.ProperDirs (changed.getD []))
    (same : ∀ names, Terrain.Comparable scope names →
      ((Terrain.survey set (String.ofList (dirOf scope)) changed).labelAt {} names).changed = false →
        old names = set.rulesAt names)
    (isTop : inventory.IsTop uid gid top) (mountable : inventory.Mountable uid gid)
    (right : (Counterpart.ofPrevious previous).Right old.ruleOf (changed = none) scope inventory) :
    ∃ dispatch tree report,
      Dispatch.ofPlan (Plan.compile set (String.ofList (dirOf scope)) changed) = .ok dispatch ∧
      build top (String.ofList (dirOf scope)) dispatch previous = .ok (tree, report) ∧
      (Counterpart.node tree.root).Right set.rulesAt.ruleOf False scope inventory := by
  obtain ⟨dispatch, ready, here, guide⟩ := Dispatch.guide_spec sound starless areSteps plainScope proper same
  obtain ⟨tree, report, built, _, after⟩ :=
    build_spec guide.leads (idsFit.ruleOf_lt sound starless) here isTop mountable right
  exact ⟨dispatch, tree, report, ready, built, after⟩

/-- The same without a previous tree. -/
theorem full_build (sound : set.Sound) (starless : set.Starless) (idsFit : set.IdsFit) (areSteps : AreSteps scope)
    (plainScope : '*' ∉ dirOf scope) (isTop : inventory.IsTop uid gid top) (mountable : inventory.Mountable uid gid) :
    ∃ dispatch tree report,
      Dispatch.ofPlan (Plan.compile set (String.ofList (dirOf scope)) none) = .ok dispatch ∧
      build top (String.ofList (dirOf scope)) dispatch none = .ok (tree, report) ∧
      (Counterpart.node tree.root).Right set.rulesAt.ruleOf False scope inventory := by
  exact compiled_build sound starless idsFit areSteps plainScope Terrain.properDirs_none
    (fun _ _ _ => rfl) isTop mountable (.absent rfl)

end

namespace View

/-- The shares of files, given the rule of each path. -/
def tally (ruleFor : List Char → Nat) (files : List (String × FileStat)) : List Share :=
  files.foldl (fun shares file => Share.addFile (ruleFor file.1.toList) file.2 shares) []

/-- What a view says of a directory, counted file by file. -/
theorem Shows.tally {rule : List String → List Char → Nat} {scope names : List String} {uid gid uid' gid' : Nat}
    {inner : Inventory}
    {view : View} {census : Census} {ruleFor : List Char → Nat} (sound : census.Sound) (areSteps : AreSteps scope)
    (rootEq : census.root = String.ofList (dirOf scope))
    (agree : ∀ names rest, AreSteps names → '/' ∉ rest → ruleFor (dirOf names ++ rest) = rule names rest)
    (led : Inventory.descend names (uid, gid, census.inventory) = some (uid', gid', inner))
    (shows' : view.Shows rule (scope ++ names) uid' gid' inner) {files : List (String × FileStat)}
    (order : files.Perm (census.filesWithin names)) : view.shares = .ok (View.tally ruleFor files) := by
  obtain ⟨areNames, _⟩ := Inventory.filter_of_descend sound.proper led census.root
  have listed := order.trans (Census.filesWithin_descend sound led).symm
  have charged : inner.charges rule (scope ++ names) =
      (inner.files.map fun file => (file.path (below census.root names), file.stat)).map
        fun file => (ruleFor file.1.toList, file.2) := by
    rw [Inventory.charges, List.map_map]
    refine List.map_congr_left fun file member => ?_
    obtain ⟨areDirs, plain, _⟩ := shows'.proper.file file member
    rw [Function.comp_apply, Inventory.File.path, String.toList_append, rootEq, Inventory.toList_below,
      Inventory.toList_below_dirOf, ← dirOf_append, agree _ _ ((areSteps.append areNames).append areDirs) plain]
  have folded : View.tally ruleFor files = Share.tabulate (files.map fun file => (ruleFor file.1.toList, file.2)) := by
    rw [View.tally, Share.tabulate, List.foldl_map]
  rw [shows'.shares, charged, folded]
  exact congrArg Except.ok (Share.tabulate_perm (listed.map _).symm)

end View

theorem Census.exists_single_whole : ∃ census : Census, census.Reached ∧ census.Fits ∧ census.root = "/a/" ∧
    census.files = [("/a/b/c", { size := 3 })] ∧
    census.whole = .dir "/a/" 1 2 (.dir "b/" 1 2 (.file "c" { size := 3 } .done) .done) .done := by
  have taken : ((Census.start "/a/" 1 2).toOption.bind fun census =>
    census.recordAll [.file "/a/b/c" { size := 3 }]).map
      (fun census => (census.root, census.files, census.whole)) =
      some ("/a/", [("/a/b/c", { size := 3 })],
        .dir "/a/" 1 2 (.dir "b/" 1 2 (.file "c" { size := 3 } .done) .done) .done) := by decide +kernel
  obtain ⟨census, recorded, found⟩ := Option.map_eq_some_iff.mp taken
  obtain ⟨first, begins, ran⟩ := Option.bind_eq_some_iff.mp recorded
  obtain ⟨first, begun, rfl⟩ := exists_ok_of_map (by rwa [Option.map_id])
  rw [Prod.mk.injEq, Prod.mk.injEq] at found
  obtain ⟨root, files, whole⟩ := found
  have fits : census.Fits := by
    constructor <;> rw [whole] <;> decide +kernel
  exact ⟨census, (Census.Reached.start begun).recordAll ran, fits, root, files, whole⟩

/-- There is a snapshot with one file. -/
theorem Census.exists_single : ∃ census : Census, census.Reached ∧ census.Fits ∧ census.root = "/a/" ∧
    census.files = [("/a/b/c", { size := 3 })] := by
  obtain ⟨census, recorded, fits, root, files, _⟩ := exists_single_whole
  exact ⟨census, recorded, fits, root, files⟩

/-- Every directory of a snapshot that is built without a previous tree has the shares of the files at or
below it, each charged to the rule that all rules together find for its path, in whatever order. -/
theorem build_charges {set : RuleSet} (reached : set.Reached) (starless : set.Starless) (idsFit : set.IdsFit)
    {census : Census}
    (recorded : census.Reached) (fits : census.Fits) (plainRoot : '*' ∉ census.root.toList) (source : String) :
    ∃ all lower overlay dispatch tree report, Dispatch.all set = .ok all ∧
      StoredTree.ofBytes census.toBytes = .ok lower ∧ Overlay.ofTree lower source = .ok overlay ∧
      Dispatch.ofPlan (Plan.compile set overlay.root none) = .ok dispatch ∧
      build overlay.top overlay.root dispatch none = .ok (tree, report) ∧
      ∀ names view, View.Reaches { overlay with upper := some tree }.view names view →
        (∀ name, ∃ next, view.child? name = .ok next) ∧
        ∀ files, files.Perm (census.filesWithin names) → view.shares = .ok (View.tally all.ruleFor files) := by
  have sound := reached.sound
  have census_sound := recorded.sound
  obtain ⟨scope, areSteps, rootEq⟩ := exists_dirOf_of_isAbsoluteDir census_sound.absolute
  rw [rootEq, String.toList_ofList] at plainRoot
  obtain ⟨all, ready, answers⟩ := Dispatch.ruleFor_all sound starless
  obtain ⟨lower, top, opened, mounted, isTop⟩ := fits.opens census_sound
  obtain ⟨dispatch, tree, report, compiled, built, right⟩ :=
    full_build sound starless idsFit areSteps plainRoot isTop (fits.mountable census_sound)
  rw [← rootEq] at compiled built
  refine ⟨all, lower, _, dispatch, tree, report, ready, opened, mounted source, compiled, built, ?_⟩
  intro names view reaches
  obtain ⟨uid, gid, inner, led, here⟩ := reaches.shows ⟨census_sound.proper, isTop, right⟩
  refine ⟨fun name => ?_, fun files order => here.tally census_sound areSteps rootEq answers.absolute led order⟩
  rcases here.child? name with ⟨_, _, _, child, _, found, _⟩ | ⟨_, missing⟩
  · exact ⟨_, found⟩
  · exact ⟨_, missing⟩

/-- A full build of a snapshot with one file under a claimed directory. -/
theorem build_charges_file_below : ∃ (set : RuleSet) (census : Census),
    RuleSet.ofRecords [{ id := 1, path := "/a/" }] [{ id := 7, directoryId := 1, pattern := "*" }] = .ok set ∧
    set.Reached ∧ set.Starless ∧ set.IdsFit ∧ census.Reached ∧ census.Fits ∧ '*' ∉ census.root.toList ∧
    census.files = [("/a/b/c", { size := 3 })] ∧ ∃ lower overlay dispatch tree report,
      StoredTree.ofBytes census.toBytes = .ok lower ∧ Overlay.ofTree lower "tree" = .ok overlay ∧
      Dispatch.ofPlan (Plan.compile set overlay.root none) = .ok dispatch ∧
      build overlay.top overlay.root dispatch none = .ok (tree, report) ∧
      View.shares { overlay with upper := some tree }.view = .ok (Share.addFile 7 { size := 3 } []) := by
  have known : (RuleSet.ofRecords [{ id := 1, path := "/a/" }]
    [{ id := 7, directoryId := 1, pattern := "*" }]).toOption.map
      (fun set => (set.claims.names, set.allIdsFit,
        (Dispatch.all set).toOption.map fun all => all.files.top.search "/a/b/c".toList)) =
      some (["/a/"], true, some (some 7)) := by decide +kernel
  obtain ⟨census, recorded, fits, root, files⟩ := Census.exists_single
  obtain ⟨set, loaded, reached, starless, idsFit, answers⟩ := RuleSet.exists_ofRecords_idsFit known (by decide +kernel)
  have plainRoot : '*' ∉ census.root.toList := by
    rw [root]
    decide +kernel
  have within : census.filesWithin [] = [("/a/b/c", { size := 3 })] := by
    rw [Census.filesWithin, root, files]
    decide +kernel
  obtain ⟨all, lower, overlay, dispatch, tree, report, ready, opened, mounted, compiled, built, shown⟩ :=
    build_charges reached starless idsFit recorded fits plainRoot "tree"
  refine ⟨set, census, loaded, reached, starless, idsFit, recorded, fits, plainRoot, files, lower, overlay,
    dispatch, tree, report, opened, mounted, compiled, built, ?_⟩
  have searched := map_eq_of_ok ready answers
  rw [(shown [] _ .root).2 _ (.refl _), within, View.tally, List.foldl_cons, List.foldl_nil,
    Dispatch.ruleFor_of_search searched]

end BackupAtlas
