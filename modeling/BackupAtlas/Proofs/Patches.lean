import BackupAtlas.Proofs.Reach
import BackupAtlas.Proofs.Walks

namespace BackupAtlas

open TreePath

theorem exists_of_bind_eq_ok {α β : Type} {first : Except Error α} {next : α → Except Error β} {result : β}
    (ran : first >>= next = .ok result) : ∃ a, first = .ok a ∧ next a = .ok result := by
  cases first with
  | error reason => exact absurd ran (by simp [bind, Except.bind])
  | ok a => exact ⟨a, rfl, ran⟩

namespace Walk

variable {dispatch : Dispatch} {path : List Char} {name : String} {node : Node} {rest : Nodes} {rule : Nat}
variable {walk next after : Walk}

/-- A subdirectory has been taken over: nothing in it was walked or dispatched, and a node that the previous tree has
for it is copied. -/
structure TakenOver (name : String) (walk next : Walk) : Prop where
  processed : next.report.processed = walk.report.processed
  files : next.report.files = walk.report.files
  copied : ∀ previous prior visited, walk.prior.seek name = .ok (.node previous, prior, visited) →
    ∃ block, previous.block = .ok block ∧ next.pieces = walk.pieces ++ [⟨name, block⟩]

/-- A directory that is given one rule adds nothing to what is processed. -/
theorem uniform_report (ran : walk.uniform name node rule = .ok next) : next.report = walk.report := by
  rw [uniform] at ran
  obtain ⟨data, _, ran⟩ := exists_of_bind_eq_ok ran
  obtain ⟨dir, _, ran⟩ := exists_of_bind_eq_ok ran
  rw [← Except.ok.inj ran]

/-- A directory that is adopted has the node of the previous tree. -/
theorem adopt_node {previous : Node} (ran : walk.adopt name node rule (.node previous) = .ok next) :
    next.report = walk.report ∧ ∃ block, previous.block = .ok block ∧ next.pieces = walk.pieces ++ [⟨name, block⟩] := by
  rw [adopt] at ran
  obtain ⟨data, _, ran⟩ := exists_of_bind_eq_ok ran
  obtain ⟨dir, _, ran⟩ := exists_of_bind_eq_ok ran
  obtain ⟨block, known, ran⟩ := exists_of_bind_eq_ok ran
  rw [← Except.ok.inj ran]
  exact ⟨rfl, block, known, rfl⟩

theorem adopt_report {found : Counterpart} (ran : walk.adopt name node rule found = .ok next) :
    next.report = walk.report := by
  cases found with
  | node previous => exact (adopt_node ran).1
  | uniform previous => exact uniform_report ran
  | absent => exact uniform_report ran

/-- A directory that is reused is taken over as it was. -/
theorem reuse_takenOver (ran : walk.reuse name node rule = .ok next) : TakenOver name walk next := by
  have counted := ran
  rw [reuse] at counted
  obtain ⟨⟨found, mid⟩, sought, _⟩ := exists_of_bind_eq_ok counted
  rw [reuse_eq rule sought] at ran
  rw [seek] at sought
  obtain ⟨⟨here, prior, visited⟩, looked, made⟩ := exists_of_bind_eq_ok sought
  obtain ⟨rfl, rfl⟩ := Prod.mk.inj (Except.ok.inj made)
  have report := adopt_report ran
  refine ⟨by rw [report], by rw [report], fun previous prior visited known => ?_⟩
  obtain ⟨rfl, _⟩ := Prod.mk.inj (Except.ok.inj (looked.symm.trans known))
  exact (adopt_node ran).2

/-- A walk that comes to a directory whose directive is to reuse takes it over, whatever it holds, and goes on. -/
theorem nodes_takenOver (isDir : isDir name) (told : dispatch.directiveFor (path ++ name.toList) = .reuse rule)
    (ran : nodes dispatch path (.ofNode name node rest) walk = .ok after) :
    ∃ next, TakenOver name walk next ∧ nodes dispatch path rest next = .ok after := by
  have ran : walk.reuse name node rule >>= nodes dispatch path rest = .ok after := by
    cases node <;> simpa only [Nodes.ofNode, nodes, isDir, if_true, told] using ran
  obtain ⟨next, reused, later⟩ := exists_of_bind_eq_ok ran
  exact ⟨next, reuse_takenOver reused, later⟩

end Walk

namespace Dispatch

/-- The directories that a build looks at: those in the scope, and those in one that is walked. -/
inductive Consulted (dispatch : Dispatch) (scope : List String) : List String → Prop
  | first {name : String} (step : IsStep name.toList) : Consulted dispatch scope (scope ++ [name])
  | next {names : List String} {name : String} (above : Consulted dispatch scope names)
    (walked : dispatch.directiveFor (dirOf names) = .process) (step : IsStep name.toList) :
    Consulted dispatch scope (names ++ [name])

/-- A walk takes over the subdirectory `name` wherever it comes to it. -/
def TakesOver (dispatch : Dispatch) (names : List String) (name : String) : Prop :=
  ∀ node rest walk after, Walk.nodes dispatch (dirOf names) (.ofNode name node rest) walk = .ok after →
    ∃ next, Walk.TakenOver name walk next ∧ Walk.nodes dispatch (dirOf names) rest next = .ok after

variable {dispatch : Dispatch} {set : RuleSet} {scope names changed : List String}

theorem takesOver_of_reuse {name : String} {rule : Nat} (step : IsStep name.toList)
    (told : dispatch.directiveFor (dirOf (names ++ [name])) = .reuse rule) : dispatch.TakesOver names name := by
  intro node rest walk after ran
  rw [dirOf_snoc] at told
  exact Walk.nodes_takenOver step.isDir told ran

/-- Every directory that is looked at lies in one that is walked. -/
theorem Consulted.exists_station {old : RuleMap} {tree : DirTree Terrain.Ground}
    (surveyed : Terrain.Surveyed scope old set.rulesAt tree)
    (compiled : Matcher.compile ((Terrain.Stop.ofTree tree).directives ['/']) = .ok dispatch.dirs)
    (consulted : Consulted dispatch scope names) :
    ∃ front name, names = front ++ [name] ∧ IsStep name.toList ∧ scope <+: front ∧ Terrain.Station tree front := by
  induction consulted with
  | first step => exact ⟨scope, _, rfl, step, List.prefix_refl _, surveyed.station_scope⟩
  | @next names name _ walked step ih =>
    obtain ⟨front, last, rfl, lastStep, within, station⟩ := ih
    obtain ⟨directive, found, _, child, _⟩ := surveyed.station_child compiled within station lastStep
    rw [directiveFor, found] at walked
    exact ⟨front ++ [last], name, rfl, step, within.trans (List.prefix_append _ _), child walked⟩

/-- A change reaches only directories above and below a changed one. -/
theorem comparable_of_affected (affected : set.Affected changed names) :
    ∃ path ∈ changed, names <+: segments path ∨ segments path <+: names := by
  obtain ⟨other, areSteps, listed, reaches⟩ := affected
  refine ⟨_, listed, ?_⟩
  rw [segments_dirOf areSteps]
  exact reaches.imp_right And.left

/-- After a change of rules a build takes over every directory that it comes to, unless the change affects it, or a
rule above it with text behind its star leaves it open. -/
theorem patch_confined (reached : set.Reached) (starless : set.Starless) {root : String}
    (absolute : isAbsoluteDir root) (plainScope : '*' ∉ root.toList) (proper : Terrain.ProperDirs changed) :
    ∃ dispatch, ofPlan (Plan.compile set root (some changed)) = .ok dispatch ∧
      ∀ names name, Consulted dispatch (segments root) (names ++ [name]) →
        set.Affected changed (names ++ [name]) ∨
        set.Lingers (names ++ [name]) ∧ dispatch.directiveFor (dirOf (names ++ [name])) = .process ∨
        (∃ rule, dispatch.directiveFor (dirOf (names ++ [name])) = .reuse rule) ∧ dispatch.TakesOver names name := by
  have sound := reached.sound
  obtain ⟨scope, areSteps, rfl⟩ := exists_dirOf_of_isAbsoluteDir absolute
  rw [String.toList_ofList] at plainScope
  have listed : Terrain.ProperDirs ((some changed).getD []) := proper
  obtain ⟨dispatch, ready, _, dirs⟩ := ofPlan_spec sound starless areSteps plainScope listed
  have surveyed : Terrain.Surveyed scope set.rulesAt set.rulesAt _ :=
    Terrain.survey_surveyed sound starless areSteps plainScope listed fun _ _ _ => rfl
  refine ⟨dispatch, ready, fun names name consulted => ?_⟩
  rw [segments_dirOf areSteps] at consulted
  obtain ⟨front, key, same, step, within, station⟩ := consulted.exists_station surveyed dirs
  obtain ⟨rfl, last⟩ := List.append_inj' same rfl
  obtain rfl := List.singleton_inj.mp last
  obtain ⟨directive, found, confined⟩ :=
    surveyed.confined_child sound proper (segments_dirOf areSteps) dirs within station step
  have told : dispatch.directiveFor (dirOf (names ++ [name])) = directive := by
    rw [directiveFor, found]
    rfl
  rcases confined with affected | ⟨lingers, processed⟩ | ⟨rule, reused⟩
  · exact Or.inl affected
  · exact Or.inr (Or.inl ⟨lingers, told.trans processed⟩)
  · have reused := told.trans reused
    exact Or.inr (Or.inr ⟨⟨rule, reused⟩, takesOver_of_reuse step reused⟩)

/-- Of two claims beside each other one changes, and the other is taken over. -/
theorem patch_confined_sibling_claim : ∃ set,
    RuleSet.ofRecords [{ id := 1, path := "/x/" }, { id := 2, path := "/x/a/" }, { id := 3, path := "/x/b/" }]
      [{ id := 5, directoryId := 1, pattern := "*" }, { id := 6, directoryId := 2, pattern := "keep.txt" },
        { id := 7, directoryId := 3, pattern := "*" }] = .ok set ∧
    set.Reached ∧ set.Starless ∧ isAbsoluteDir "/x/" ∧ '*' ∉ "/x/".toList ∧ Terrain.ProperDirs ["/x/a/"] ∧
    ∃ dispatch, ofPlan (Plan.compile set "/x/" (some ["/x/a/"])) = .ok dispatch ∧
      Consulted dispatch (segments "/x/") ["x/", "b/"] ∧ dispatch.directiveFor "/x/b/".toList = .reuse 7 ∧
      dispatch.TakesOver ["x/"] "b/" := by
  have known : (RuleSet.ofRecords
      [{ id := 1, path := "/x/" }, { id := 2, path := "/x/a/" }, { id := 3, path := "/x/b/" }]
      [{ id := 5, directoryId := 1, pattern := "*" }, { id := 6, directoryId := 2, pattern := "keep.txt" },
        { id := 7, directoryId := 3, pattern := "*" }]).toOption.map
      (fun set => (set.claims.names, (ofPlan (Plan.compile set "/x/" (some ["/x/a/"]))).toOption.map fun dispatch =>
        dispatch.dirs.top.search "/x/b/".toList)) =
      some (["/x/", "/x/a/", "/x/b/"], some (some (.reuse 7))) := by decide +kernel
  obtain ⟨set, loaded, reached, starless, answers⟩ := RuleSet.exists_ofRecords known (by decide +kernel)
  have proper : Terrain.ProperDirs ["/x/a/"] := by
    simp only [Terrain.ProperDirs, List.mem_singleton, forall_eq]
    decide +kernel
  obtain ⟨dispatch, ready, confined⟩ := patch_confined reached starless
    (show isAbsoluteDir "/x/" by decide +kernel) (by decide +kernel) proper
  have searched := map_eq_of_ok ready answers
  have told : dispatch.directiveFor "/x/b/".toList = .reuse 7 := directiveFor_of_search searched
  have consulted : Consulted dispatch (segments "/x/") ["x/", "b/"] := .first ⟨['b'], by decide, by decide⟩
  refine ⟨set, loaded, reached, starless, by decide +kernel, by decide +kernel, proper, dispatch, ready, consulted,
    told, ?_⟩
  rcases confined ["x/"] "b/" consulted with affected | ⟨_, walked⟩ | ⟨_, kept⟩
  · obtain ⟨path, listed, comparable⟩ := comparable_of_affected affected
    obtain rfl := List.mem_singleton.mp listed
    exact absurd comparable (by decide +kernel)
  · exact absurd (told.symm.trans walked) (by simp)
  · exact kept

/-- A directory without claims that no change affects is walked again, because of an unchanged rule above it. -/
theorem open_sibling_walked_again : ∃ set,
    RuleSet.ofRecords [{ id := 1, path := "/r/" }, { id := 2, path := "/r/b/" }]
      [{ id := 1, directoryId := 1, pattern := "*.txt" }, { id := 2, directoryId := 2, pattern := "x" }] = .ok set ∧
    set.Reached ∧ set.Starless ∧ ∃ dispatch, ofPlan (Plan.compile set "/r/" (some ["/r/b/"])) = .ok dispatch ∧
      Consulted dispatch (segments "/r/") ["r/", "d/"] ∧ ¬ set.Affected ["/r/b/"] ["r/", "d/"] ∧
      dispatch.directiveFor "/r/d/".toList = .process := by
  have known : (RuleSet.ofRecords [{ id := 1, path := "/r/" }, { id := 2, path := "/r/b/" }]
      [{ id := 1, directoryId := 1, pattern := "*.txt" }, { id := 2, directoryId := 2, pattern := "x" }]).toOption.map
      (fun set => (set.claims.names, (ofPlan (Plan.compile set "/r/" (some ["/r/b/"]))).toOption.map fun dispatch =>
        dispatch.dirs.top.search "/r/d/".toList)) = some (["/r/", "/r/b/"], some (some .process)) := by decide +kernel
  obtain ⟨set, loaded, reached, starless, answers⟩ := RuleSet.exists_ofRecords known (by decide +kernel)
  obtain ⟨dispatch, ready, searched⟩ := exists_ok_of_map answers
  refine ⟨set, loaded, reached, starless, dispatch, ready, .first ⟨['d'], by decide, by decide⟩, fun affected => ?_,
    directiveFor_of_search searched⟩
  obtain ⟨path, listed, comparable⟩ := comparable_of_affected affected
  obtain rfl := List.mem_singleton.mp listed
  exact absurd comparable (by decide +kernel)

end Dispatch
end BackupAtlas
