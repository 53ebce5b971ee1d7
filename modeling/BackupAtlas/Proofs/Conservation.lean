import BackupAtlas.Proofs.FullBuilds

namespace BackupAtlas

open TreePath

namespace Share

/-- The tallies of one kind of all shares, added up. -/
def pool (part : Share → List Tally) (shares : List Share) : List Tally :=
  shares.foldl (fun tallies share => Tally.merge tallies (part share)) []

/-- One of the two lists of tallies that a share has. -/
structure IsPart (part : Share → List Tally) (id : FileStat → Nat) : Prop where
  normal : ∀ {share}, ledger.good share → Tally.ledger.Normal (part share)
  join : ∀ share other, part (ledger.join share other) = Tally.merge (part share) (part other)
  single : ∀ rule file, part (ofFiles rule [file]) = (Tally.gather id [file]).entries

theorem isPart_users : IsPart (·.users) (·.uid) := ⟨fun good => good.1, fun _ _ => rfl, fun _ _ => rfl⟩

theorem isPart_groups : IsPart (·.groups) (·.gid) := ⟨fun good => good.2, fun _ _ => rfl, fun _ _ => rfl⟩

section

variable {part : Share → List Tally} {id : FileStat → Nat}

/-- A share that has been added counts as if its tallies had been there first. -/
theorem IsPart.foldl_add (isPart : IsPart part id) {share : Share} {shares : List Share} (here : ledger.good share)
    (good : ∀ share ∈ shares, ledger.good share) (seen : Book Tally.ledger) :
    (ledger.add share shares).foldl (fun tallies share => Tally.merge tallies (part share)) seen.entries =
      shares.foldl (fun tallies share => Tally.merge tallies (part share))
        (seen + ⟨part share, isPart.normal here⟩).entries := by
  let own : Book Tally.ledger := ⟨part share, isPart.normal here⟩
  have step : ∀ book : Book Tally.ledger, Tally.merge book.entries (part share) = (book + own).entries :=
    fun book => Tally.merge_normal _ own.normal
  induction shares generalizing seen with
  | nil => exact step seen
  | cons head shares ih =>
    obtain ⟨goodHead, goodRest⟩ := List.forall_mem_cons.mp good
    let first : Book Tally.ledger := ⟨part head, isPart.normal goodHead⟩
    have stepHead : ∀ book : Book Tally.ledger, Tally.merge book.entries (part head) = (book + first).entries :=
      fun book => Tally.merge_normal _ first.normal
    rw [Ledger.add]
    split
    · rw [List.foldl_cons, step]
    · split
      · have joined : Tally.merge seen.entries (part (ledger.join head share)) = (seen + (first + own)).entries := by
          rw [isPart.join, step first]
          exact Tally.merge_normal _ (first + own).normal
        rw [List.foldl_cons, List.foldl_cons, joined, stepHead, ← add_assoc, add_right_comm]
      · rw [List.foldl_cons, List.foldl_cons, stepHead, stepHead, ih goodRest, add_right_comm]

/-- All rules together have the tallies of the files that have been charged, whatever the rules are. -/
theorem IsPart.foldl_tabulate (isPart : IsPart part id) (charges : List (Nat × FileStat)) (seen : Book Tally.ledger) :
    (tabulate charges).foldl (fun tallies share => Tally.merge tallies (part share)) seen.entries =
      (seen + Tally.gather id (charges.map (·.2))).entries := by
  induction charges using List.reverseRecOn generalizing seen with
  | nil =>
    rw [List.map_nil, Tally.gather_nil, add_zero]
    rfl
  | append_singleton charges charge ih =>
    obtain ⟨rule, file⟩ := charge
    let own : Book Tally.ledger := ⟨part (ofFiles rule [file]), isPart.normal (good_ofFiles rule [file])⟩
    have gathered : own = Tally.gather id [file] :=
      Book.ext fun k => congrArg (Tally.ledger.find? k) (isPart.single rule file)
    have added : tabulate (charges ++ [(rule, file)]) = ledger.add (ofFiles rule [file]) (tabulate charges) := by
      rw [← addFile_eq, tabulate, tabulate, List.foldl_append, List.foldl_cons, List.foldl_nil]
    rw [added, isPart.foldl_add (good_ofFiles rule [file]) (tabulate_normal charges).good, ih, List.map_append,
      Tally.gather_append]
    have moved : seen + own + Tally.gather id (charges.map (·.2)) =
        seen + (Tally.gather id (charges.map (·.2)) + Tally.gather id [file]) := by
      rw [gathered, add_right_comm, add_assoc]
    exact congrArg Book.entries moved

/-- Shares of files pool to the tallies of all of them. -/
theorem IsPart.pool_tabulate (isPart : IsPart part id) (charges : List (Nat × FileStat)) :
    pool part (tabulate charges) = (Tally.gather id (charges.map (·.2))).entries := by
  have pooled := isPart.foldl_tabulate charges 0
  rwa [zero_add] at pooled

end

end Share

/-- The id of a rule in a directive is a word of 64 bits. -/
def Directive.IdFits : Directive → Prop
  | .assign rule | .reuse rule => rule < 2 ^ 64
  | .process | .unmatched => True

/-- All ids of rules in a plan are words of 64 bits. -/
structure Plan.IdsFit (plan : Plan) : Prop where
  rules : ∀ entry ∈ plan.rules, entry.2 < 2 ^ 64
  directives : ∀ entry ∈ plan.directives, entry.2.IdFits

/-- What is looked up is the value of one of the patterns. -/
theorem Matcher.lookup_mem {α : Type} {patterns : List (List Char × α)} {matcher : Matcher α}
    (compiled : compile patterns = .ok matcher) {path : List Char} {value : α}
    (found : matcher.lookup path = some value) : ∃ text, (text, value) ∈ patterns := by
  obtain ⟨made, also, answers⟩ := lookup_spec (distinct_of_compile compiled)
  obtain rfl := Except.ok.inj (also.symm.trans compiled)
  rcases answers path with ⟨none, _⟩ | ⟨text, other, known, member, _⟩
  · cases none.symm.trans found
  · exact ⟨text, Option.some.inj (known.symm.trans found) ▸ member⟩

namespace Dispatch

variable {plan : Plan} {dispatch : Dispatch}

/-- Rules that are found for files have ids that fit. -/
theorem ruleFor_lt (ready : ofPlan plan = .ok dispatch) (idsFit : plan.IdsFit) (path : List Char) :
    dispatch.ruleFor path < 2 ^ 64 := by
  rw [ruleFor]
  cases found : dispatch.files.lookup path with
  | none => decide
  | some rule =>
    obtain ⟨text, member⟩ := Matcher.lookup_mem (compiled_of_ofPlan ready).1 found
    exact idsFit.rules _ member

theorem directiveFor_idFits (ready : ofPlan plan = .ok dispatch) (idsFit : plan.IdsFit) (path : List Char) :
    (dispatch.directiveFor path).IdFits := by
  rw [directiveFor]
  cases found : dispatch.dirs.lookup path with
  | none => trivial
  | some directive =>
    obtain ⟨text, member⟩ := Matcher.lookup_mem (compiled_of_ofPlan ready).2 found
    exact idsFit.directives _ member

/-- The rule to which a build charges a file. A build that walks the directory to which `names` lead comes to
the file through further directories; `old` says what the previous build charged it to, if there was one. -/
def charge (dispatch : Dispatch) (old : Option (List String → List Char → Nat)) (names : List String) :
    List String → List Char → Nat
  | [], file => dispatch.ruleFor (dirOf names ++ file)
  | name :: dirs, file =>
    match dispatch.directiveFor (dirOf (names ++ [name])) with
    | .process => charge dispatch old (names ++ [name]) dirs file
    | .assign rule => rule
    | .reuse rule => old.elim rule fun before => before (names ++ name :: dirs) file
    | .unmatched => old.elim 0 fun before => before (names ++ name :: dirs) file

/-- The rules to which a build of the directory `scope` charges files. -/
def charging (dispatch : Dispatch) (old : Option (List String → List Char → Nat)) (scope names : List String)
    (file : List Char) : Nat := dispatch.charge old scope (names.drop scope.length) file

/-- A walk comes to a directory if the files below it are charged as from there. -/
def ComesTo (dispatch : Dispatch) (old : Option (List String → List Char → Nat)) (scope names : List String) : Prop :=
  ∀ dirs file, dispatch.charging old scope (names ++ dirs) file = dispatch.charge old names dirs file

variable {old : Option (List String → List Char → Nat)} {scope names : List String}

/-- A walk comes to the top of its scope. -/
theorem comesTo_scope : dispatch.ComesTo old scope scope := fun dirs file => by
  rw [charging, List.drop_left]

/-- Files are charged to ids that fit. -/
theorem charge_lt (ready : ofPlan plan = .ok dispatch) (idsFit : plan.IdsFit)
    (small : ∀ before ∈ old, ∀ names file, before names file < 2 ^ 64) (names dirs : List String) (file : List Char) :
    dispatch.charge old names dirs file < 2 ^ 64 := by
  induction dirs generalizing names with
  | nil => exact ruleFor_lt ready idsFit _
  | cons name dirs ih =>
    have fits := directiveFor_idFits ready idsFit (dirOf (names ++ [name]))
    rw [charge]
    cases directive : dispatch.directiveFor (dirOf (names ++ [name])) with
    | process => exact ih (names ++ [name])
    | assign rule => rwa [directive] at fits
    | reuse rule =>
      cases old with
      | none => rwa [directive] at fits
      | some before => exact small before rfl _ _
    | unmatched =>
      cases old with
      | none => exact Nat.two_pow_pos 64
      | some before => exact small before rfl _ _

/-- A subdirectory that is kept has the rules of the previous build, or the given one if there was none. -/
theorem charging_carries (here : dispatch.ComesTo old scope names) {name : String} {rule : Nat}
    (kept : ∀ dirs file, dispatch.charge old names (name :: dirs) file =
      old.elim rule fun before => before (names ++ name :: dirs) file) :
    Directive.Carries (old = none) (old.getD (dispatch.charging old scope)) (dispatch.charging old scope)
      (names ++ [name]) rule := by
  have below : ∀ more file, dispatch.charging old scope (names ++ [name] ++ more) file =
      old.elim rule fun before => before (names ++ [name] ++ more) file := fun more file => by
    rw [List.append_assoc, List.singleton_append, here, kept]
  refine ⟨fun more file => ?_, fun absent more file => ?_⟩
  · cases old with
    | none => rfl
    | some before => exact (below more file).symm
  · rw [below, absent]
    rfl

/-- Every plan leads a walk, to the rules to which it charges files. -/
theorem charging_leads (dispatch : Dispatch) (old : Option (List String → List Char → Nat)) (scope : List String) :
    dispatch.Leads (dispatch.ComesTo old scope) (old = none) (old.getD (dispatch.charging old scope))
      (dispatch.charging old scope) where
  file names here name _ := by
    have own := here [] name
    rw [List.append_nil] at own
    rw [own, charge]
  keeps names here name _ := by
    have inside : ∀ more file, dispatch.charging old scope (names ++ [name] ++ more) file =
        dispatch.charge old names (name :: more) file := fun more file => by
      rw [List.append_assoc, List.singleton_append, here]
    cases directive : dispatch.directiveFor (dirOf (names ++ [name])) with
    | process => trivial
    | assign rule => exact fun more file => by rw [inside, charge, directive]
    | reuse rule => exact charging_carries here fun dirs file => by rw [charge, directive]
    | unmatched => exact charging_carries here fun dirs file => by rw [charge, directive]
  child names here name _ processed := fun dirs file => by
    rw [List.append_assoc, List.singleton_append, here, charge, processed]

end Dispatch

/-- The trees that chains of builds leave. Every build has a plan of its own, and starts from nothing or from a
tree that an earlier build of the chain has left. -/
inductive Overlay.Built (overlay : Overlay) : StoredTree → Prop
  | full {plan : Plan} {dispatch : Dispatch} {tree : StoredTree} {report : Report} (idsFit : plan.IdsFit)
      (ready : Dispatch.ofPlan plan = .ok dispatch)
      (built : build overlay.top overlay.root dispatch none = .ok (tree, report)) : Built overlay tree
  | onto {plan : Plan} {dispatch : Dispatch} {previous tree : StoredTree} {report : Report}
      (earlier : Built overlay previous) (idsFit : plan.IdsFit) (ready : Dispatch.ofPlan plan = .ok dispatch)
      (built : build overlay.top overlay.root dispatch (some previous) = .ok (tree, report)) : Built overlay tree

section

variable {scope : List String} {uid gid : Nat} {inventory : Inventory} {top : Node} {plan : Plan} {dispatch : Dispatch}

/-- A tree that charges each file of the snapshot to some rule. -/
def StoredTree.Charges (scope : List String) (inventory : Inventory) (tree : StoredTree) : Prop :=
  ∃ rule : List String → List Char → Nat, (∀ names file, rule names file < 2 ^ 64) ∧
    (Counterpart.node tree.root).Right rule False scope inventory

/-- Any plan builds a tree that charges each file to some rule, from nothing or from such a tree. -/
theorem build_charging (isTop : inventory.IsTop uid gid top) (mountable : inventory.Mountable uid gid)
    (idsFit : plan.IdsFit) (ready : Dispatch.ofPlan plan = .ok dispatch) {previous : Option StoredTree}
    (earlier : ∀ tree ∈ previous, tree.Charges scope inventory) : ∃ tree report,
      build top (String.ofList (dirOf scope)) dispatch previous = .ok (tree, report) ∧ tree.bytes.length < 2 ^ 64 ∧
      tree.Charges scope inventory := by
  have charged : ∀ old : Option (List String → List Char → Nat),
      (∀ before ∈ old, ∀ names file, before names file < 2 ^ 64) →
      (Counterpart.ofPrevious previous).Right (old.getD (dispatch.charging old scope)) (old = none) scope inventory →
      ∃ tree report, build top (String.ofList (dirOf scope)) dispatch previous = .ok (tree, report) ∧
        tree.bytes.length < 2 ^ 64 ∧ tree.Charges scope inventory := by
    intro old small right
    have fits : ∀ names file, dispatch.charging old scope names file < 2 ^ 64 :=
      fun names file => Dispatch.charge_lt ready idsFit small scope _ file
    obtain ⟨tree, report, built, short, after⟩ :=
      build_spec (dispatch.charging_leads old scope) fits Dispatch.comesTo_scope isTop mountable right
    exact ⟨tree, report, built, short, dispatch.charging old scope, fits, after⟩
  cases previous with
  | none => exact charged none (by simp) (.absent rfl)
  | some previous =>
    obtain ⟨before, small, right⟩ := earlier previous rfl
    exact charged (some before) (fun other known => Option.some.inj known ▸ small)
      (right.congr (fun _ _ => rfl) False.elim)

variable {overlay : Overlay}

/-- Whatever the plans of a chain of builds are, each tagged tree charges every file to some rule. -/
theorem Overlay.Built.charges (rooted : overlay.root = String.ofList (dirOf scope))
    (isTop : inventory.IsTop uid gid overlay.top) (mountable : inventory.Mountable uid gid) {tree : StoredTree}
    (chain : overlay.Built tree) : tree.Charges scope inventory := by
  have same : ∀ {dispatch previous} {tree made : StoredTree} {report reported : Report},
      build overlay.top overlay.root dispatch previous = .ok (tree, report) →
      build overlay.top (String.ofList (dirOf scope)) dispatch previous = .ok (made, reported) → made = tree := by
    intro dispatch previous tree made report reported built also
    rw [← rooted, built] at also
    exact (Prod.mk.inj (Except.ok.inj also)).1.symm
  induction chain with
  | full idsFit ready built =>
    obtain ⟨made, _, also, _, charges⟩ := build_charging isTop mountable idsFit ready
      fun tree (known : tree ∈ none) => nomatch known
    exact same built also ▸ charges
  | @onto plan dispatch previous tree report earlier idsFit ready built ih =>
    obtain ⟨made, _, also, _, charges⟩ :=
      build_charging isTop mountable idsFit ready fun tree (known : tree ∈ some previous) => Option.some.inj known ▸ ih
    exact same built also ▸ charges

/-- A chain of builds can be continued with any plan, from nothing or from any of its trees. -/
theorem Overlay.exists_built (rooted : overlay.root = String.ofList (dirOf scope))
    (isTop : inventory.IsTop uid gid overlay.top) (mountable : inventory.Mountable uid gid) (idsFit : plan.IdsFit)
    (ready : Dispatch.ofPlan plan = .ok dispatch) {previous : Option StoredTree}
    (chain : ∀ tree ∈ previous, overlay.Built tree) : ∃ tree report,
      build overlay.top overlay.root dispatch previous = .ok (tree, report) ∧ tree.bytes.length < 2 ^ 64 ∧
      overlay.Built tree := by
  obtain ⟨tree, report, built, short, _⟩ := build_charging isTop mountable idsFit ready
    fun tree known => (chain tree known).charges rooted isTop mountable
  rw [← rooted] at built
  refine ⟨tree, report, built, short, ?_⟩
  cases previous with
  | none => exact .full idsFit ready built
  | some previous => exact .onto (chain previous rfl) idsFit ready built

end

/-- The statistics that the snapshot has of a directory are those of the files at or below it. -/
theorem View.Shows.stat {rule : List String → List Char → Nat} {names : List String} {uid gid : Nat}
    {inventory : Inventory} {view : View} (shows' : view.Shows rule names uid gid inventory) :
    ∃ data, view.lower.data = .ok data ∧ DirStat.decode data = .ok (.ofFiles uid gid inventory.stats) := by
  obtain ⟨lower, upper⟩ := view
  obtain ⟨_, ⟨decoded, _, _⟩, _⟩ := shows'
  exact ⟨_, rfl, decoded⟩

/-- In every tree of a chain of builds, every directory of the snapshot has the same tallies as in the snapshot, if
those of all rules are added up. They are those of the files that have been recorded at or below it. -/
theorem built_conserves {census : Census} (recorded : census.Reached) (fits : census.Fits) (source : String) :
    ∃ lower overlay, StoredTree.ofBytes census.toBytes = .ok lower ∧ Overlay.ofTree lower source = .ok overlay ∧
      (∀ plan dispatch previous, Plan.IdsFit plan → Dispatch.ofPlan plan = .ok dispatch →
        (∀ tree ∈ previous, overlay.Built tree) →
        ∃ tree report, build overlay.top overlay.root dispatch previous = .ok (tree, report) ∧ overlay.Built tree) ∧
      ∀ tree, overlay.Built tree → ∀ names view, View.Reaches { overlay with upper := some tree }.view names view →
        (∀ name, ∃ next, view.child? name = .ok next) ∧
        ∃ data stat shares, view.lower.data = .ok data ∧ DirStat.decode data = .ok stat ∧ view.shares = .ok shares ∧
          Share.pool (·.users) shares = stat.users ∧ Share.pool (·.groups) shares = stat.groups ∧
          ∃ uid gid, stat = .ofFiles uid gid ((census.filesWithin names).map (·.2)) := by
  have sound := recorded.sound
  obtain ⟨scope, areSteps, rootEq⟩ := exists_dirOf_of_isAbsoluteDir sound.absolute
  obtain ⟨lower, top, opened, mounted, isTop⟩ := fits.opens sound
  have mountable := fits.mountable sound
  refine ⟨lower, ⟨census.root, lower, top, none⟩, opened, mounted source, ?_, ?_⟩
  · intro plan dispatch previous idsFit ready chain
    obtain ⟨tree, report, built, _, next⟩ := Overlay.exists_built rootEq isTop mountable idsFit ready chain
    exact ⟨tree, report, built, next⟩
  · intro tree chain names view reaches
    obtain ⟨rule, _, right⟩ := chain.charges rootEq isTop mountable
    obtain ⟨uid, gid, inner, led, here⟩ := reaches.shows ⟨sound.proper, isTop, right⟩
    refine ⟨fun name => ?_, ?_⟩
    · rcases here.child? name with ⟨_, _, _, child, _, found, _⟩ | ⟨_, missing⟩
      · exact ⟨_, found⟩
      · exact ⟨_, missing⟩
    · obtain ⟨data, same, decoded⟩ := here.stat
      have listed := (Census.filesWithin_descend sound led).map (·.2)
      rw [List.map_map] at listed
      refine ⟨data, _, _, same, decoded, here.shares, ?_, ?_, uid, gid, DirStat.ofFiles_perm uid gid listed⟩
      · rw [Share.isPart_users.pool_tabulate, Inventory.charges_stats, DirStat.ofFiles_eq]
      · rw [Share.isPart_groups.pool_tabulate, Inventory.charges_stats, DirStat.ofFiles_eq]

/-- A directory that goes to one rule in one build, and is kept as it is by the next. -/
theorem Overlay.exists_assigned_then_kept {overlay : Overlay}
    (builds : ∀ plan dispatch previous, Plan.IdsFit plan → Dispatch.ofPlan plan = .ok dispatch →
      (∀ tree ∈ previous, overlay.Built tree) →
      ∃ tree report, build overlay.top overlay.root dispatch previous = .ok (tree, report) ∧ overlay.Built tree) :
    ∃ first second earlier tree report report',
      Dispatch.ofPlan ⟨[], [("/a/b/".toList, .assign 5)]⟩ = .ok first ∧
      Dispatch.ofPlan ⟨[("/a/b/*".toList, 7)], [("/a/b/".toList, .reuse 9)]⟩ = .ok second ∧
      build overlay.top overlay.root first none = .ok (earlier, report) ∧
      build overlay.top overlay.root second (some earlier) = .ok (tree, report') ∧ overlay.Built tree := by
  obtain ⟨first, ready⟩ : ∃ first, Dispatch.ofPlan ⟨[], [("/a/b/".toList, .assign 5)]⟩ = .ok first := ⟨_, rfl⟩
  obtain ⟨second, also⟩ : ∃ second,
    Dispatch.ofPlan ⟨[("/a/b/*".toList, 7)], [("/a/b/".toList, .reuse 9)]⟩ = .ok second := ⟨_, rfl⟩
  obtain ⟨earlier, report, built, isFirst⟩ :=
    builds _ first none ⟨by simp, by simp [Directive.IdFits]⟩ ready (by simp)
  obtain ⟨tree, report', rebuilt, chain⟩ := builds _ second (some earlier) ⟨by simp, by simp [Directive.IdFits]⟩ also
    fun tree known => Option.some.inj known ▸ isFirst
  exact ⟨first, second, earlier, tree, report, report', ready, also, built, rebuilt, chain⟩

/-- A first build assigns a directory to a rule that no pattern has, and a second one takes it over. -/
theorem built_conserves_assigned_then_kept : ∃ census : Census, census.Reached ∧ census.Fits ∧
    census.files = [("/a/b/c", { size := 3 })] ∧ ∃ lower overlay first second earlier tree report report',
      StoredTree.ofBytes census.toBytes = .ok lower ∧ Overlay.ofTree lower "tree" = .ok overlay ∧
      Dispatch.ofPlan ⟨[], [("/a/b/".toList, .assign 5)]⟩ = .ok first ∧
      Dispatch.ofPlan ⟨[("/a/b/*".toList, 7)], [("/a/b/".toList, .reuse 9)]⟩ = .ok second ∧
      build overlay.top overlay.root first none = .ok (earlier, report) ∧
      build overlay.top overlay.root second (some earlier) = .ok (tree, report') ∧
      ∃ shares, View.shares { overlay with upper := some tree }.view = .ok shares ∧
        Share.pool (·.users) shares = [{ id := 0, mtime := 0, files := 1, size := 3 }] ∧
        Share.pool (·.groups) shares = [{ id := 0, mtime := 0, files := 1, size := 3 }] := by
  obtain ⟨census, recorded, fits, root, files⟩ := Census.exists_single
  obtain ⟨lower, overlay, opened, mounted, builds, conserves⟩ := built_conserves recorded fits "tree"
  have within : census.filesWithin [] = [("/a/b/c", { size := 3 })] := by
    rw [Census.filesWithin, root, files]
    decide +kernel
  obtain ⟨first, second, earlier, tree, report, report', ready, also, built, rebuilt, chain⟩ :=
    Overlay.exists_assigned_then_kept builds
  obtain ⟨_, data, stat, shares, _, _, shown, users, groups, uid, gid, same⟩ := conserves tree chain [] _ .root
  rw [same, within] at users groups
  exact ⟨census, recorded, fits, files, lower, overlay, first, second, earlier, tree, report, report', opened, mounted,
    ready, also, built, rebuilt, shares, shown, users, groups⟩

end BackupAtlas
