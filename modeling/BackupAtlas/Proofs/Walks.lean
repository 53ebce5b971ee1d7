import BackupAtlas.Proofs.Counterparts
import BackupAtlas.Proofs.Plans

namespace BackupAtlas

open TreePath

/-- What is reused below a directory keeps its rules; if nothing may be known of it, they are the given one. -/
structure Directive.Carries (missing : Prop) (old new : List String → List Char → Nat) (names : List String)
    (rule : Nat) : Prop where
  same : ∀ more rest, old (names ++ more) rest = new (names ++ more) rest
  absent : missing → ∀ more rest, new (names ++ more) rest = rule

/-- What a directive for the directory to which names lead promises of the rules of the files below it. -/
def Directive.Keeps (missing : Prop) (old new : List String → List Char → Nat) (names : List String) : Directive → Prop
  | .process => True
  | .assign rule => ∀ more rest, new (names ++ more) rest = rule
  | .reuse rule => Carries missing old new names rule
  | .unmatched => Carries missing old new names 0

/-- Directives to which a walk can be left: in the directories that it comes to, files are charged to their rules,
and the directives of subdirectories keep their promises. -/
structure Dispatch.Leads (walked : List String → Prop) (missing : Prop) (old new : List String → List Char → Nat)
    (dispatch : Dispatch) : Prop where
  file : ∀ names, walked names → ∀ name, '/' ∉ name → dispatch.ruleFor (dirOf names ++ name) = new names name
  keeps : ∀ names, walked names → ∀ name : String, IsStep name.toList →
    (dispatch.directiveFor (dirOf (names ++ [name]))).Keeps missing old new (names ++ [name])
  child : ∀ names, walked names → ∀ name : String, IsStep name.toList →
    dispatch.directiveFor (dirOf (names ++ [name])) = .process → walked (names ++ [name])

theorem Guide.leads {walked : List String → Prop} {fresh : Prop} {old new : RuleMap} {dispatch : Dispatch}
    (guide : Guide walked fresh old new dispatch) : dispatch.Leads walked fresh old.ruleOf new.ruleOf where
  file := guide.file
  keeps names here name step := by
    have promise := guide.sound names here name step
    cases directive : dispatch.directiveFor (dirOf (names ++ [name])) with
    | process => trivial
    | assign rule => rwa [directive] at promise
    | reuse rule =>
      rw [directive] at promise
      exact ⟨promise, fun isFresh => absurd directive (guide.fresh isFresh names here name step rule)⟩
    | unmatched =>
      rw [directive] at promise
      exact absurd promise id
  child := guide.child

namespace Walk

variable {old new : List String → List Char → Nat} {missing : Prop} {names : List String} {name : String}
variable {uid gid : Nat} {below rest : Inventory} {before : List (Nat × FileStat)} {walk : Walk}

/-- A subdirectory has been dealt with: its files are charged, and the node that was made for it is right. -/
structure Passed (old new : List String → List Char → Nat) (missing : Prop) (names : List String) (name : String)
    (uid gid : Nat) (below rest : Inventory) (before : List (Nat × FileStat)) (walk next : Walk) : Prop where
  prior : next.prior.Right old missing names rest
  shares : next.shares = Share.tabulate (before ++ below.charges new (names ++ [name]))
  made : ∃ data block inner, next.pieces = walk.pieces ++ [⟨name, block⟩] ∧
    ∀ others, rest.Classified new names others →
      (Inventory.dir name uid gid below rest).Classified new names (.entry name data block inner others)

theorem Passed.of_pieces {start next : Walk}
    (passed : Passed old new missing names name uid gid below rest before start next)
    (same : start.pieces = walk.pieces) : Passed old new missing names name uid gid below rest before walk next := by
  refine ⟨passed.prior, passed.shares, ?_⟩
  rw [← same]
  exact passed.made

theorem length_uniform {dir : TaggedDir} (fits : dir.Fits) {r : Nat} (tagging : dir.tagging = .uniform r) :
    dir.encode.length ≤ 40 := by
  have bound : dir.encode.length ≤ 40 + 0 := TaggedDir.length_encode_le fits fun shares same => by
    rw [tagging] at same
    exact absurd same (by simp)
  exact bound

/-- Giving all files of a subdirectory to one rule, if that is their rule. -/
theorem uniform_passed {data : Bytes} (block : Block) (inner : Nodes) {r : Nat}
    (decoded : DirStat.decode data = .ok (.ofFiles uid gid below.stats)) (owner : uid < 2 ^ 32 ∧ gid < 2 ^ 32)
    (word : r < 2 ^ 64) (all : ∀ file ∈ below.files, new (names ++ [name] ++ file.dirs) file.name.toList = r)
    (right : walk.prior.Right old missing names rest) (shares : walk.shares = Share.tabulate before) :
    ∃ next, walk.uniform name (.sound data block inner) r = .ok next ∧
      Passed old new missing names name uid gid below rest before walk next := by
  have fits : ({ uid, gid, tagging := .uniform r } : TaggedDir).Fits := ⟨owner.1, owner.2, word⟩
  have short := Block.length_leaf_le (length_uniform fits rfl)
  have stat : DirStat.ofFiles uid gid below.stats = { DirStat.ofFiles uid gid below.stats with uid, gid } := by
    rw [DirStat.ofFiles_eq]
  refine ⟨{ walk with
    shares := Share.addDir r (.ofFiles uid gid below.stats) walk.shares
    pieces := walk.pieces ++ [⟨name, .ofNode (TaggedDir.encode { uid, gid, tagging := .uniform r }) []⟩] },
    ?_, right, ?_, ?_⟩
  · rw [uniform, Node.data]
    change (DirStat.decode data >>= _) = _
    rw [decoded, stat]
    rfl
  · rw [shares, Share.addDir_tabulate, Inventory.charges_uniform new (names ++ [name]) all]
  · exact ⟨_, _, _, rfl, fun others behind => .uniform fits rfl all (Block.leaf_reads _)
      (by rw [Inventory.span]; omega) behind⟩

/-- Looking for a directory in a tree that is right ends at a counterpart that is right. -/
theorem seek_right (right : walk.prior.Right old missing names (.dir name uid gid below rest)) :
    ∃ found next, walk.seek name = .ok (found, next) ∧ found.Right old missing (names ++ [name]) below ∧
      next.prior.Right old missing names rest ∧ next.shares = walk.shares ∧ next.pieces = walk.pieces := by
  obtain ⟨found, prior, count, sought, here, later⟩ := PriorChildren.seek_right right
  refine ⟨found, { walk with
    prior, report := { walk.report with priorVisited := walk.report.priorVisited + count } }, ?_, here, later, rfl, rfl⟩
  rw [seek, sought]
  rfl

/-- What becomes of a subdirectory that is kept, once its counterpart has been found. -/
def adopt (walk : Walk) (name : String) (node : Node) (rule : Nat) : Counterpart → Except Error Walk
  | .node previous => do
    let dir ← TaggedDir.decode (← previous.data)
    let shares := match dir.tagging with
      | .shares shares => Share.merge walk.shares shares
      | .uniform _ => walk.shares
    let block ← previous.block
    pure { walk with shares, pieces := walk.pieces ++ [⟨name, block⟩] }
  | .uniform previous => walk.uniform name node previous
  | .absent => walk.uniform name node rule

/-- Reusing a directory looks for it in the previous tree and takes on what is found. -/
theorem reuse_eq {node : Node} {found : Counterpart} {next : Walk} (rule : Nat)
    (sought : { walk with report := { walk.report with reused := walk.report.reused + 1 } }.seek name =
    .ok (found, next)) :
    walk.reuse name node rule = next.adopt name node rule found := by
  rw [reuse]
  simp only [sought]
  cases found <;> rfl

/-- Keeping what the previous tree says of a subdirectory whose files keep their rules. -/
theorem reuse_passed {data : Bytes} (block : Block) (inner : Nodes) {rule : Nat}
    (decoded : DirStat.decode data = .ok (.ofFiles uid gid below.stats)) (owner : uid < 2 ^ 32 ∧ gid < 2 ^ 32)
    (small : ∀ names rest, new names rest < 2 ^ 64)
    (carries : Directive.Carries missing old new (names ++ [name]) rule)
    (right : walk.prior.Right old missing names (.dir name uid gid below rest))
    (shares : walk.shares = Share.tabulate before) :
    ∃ next, walk.reuse name (.sound data block inner) rule = .ok next ∧
      Passed old new missing names name uid gid below rest before walk next := by
  let counted : Walk := { walk with report := { walk.report with reused := walk.report.reused + 1 } }
  have ready : counted.prior.Right old missing names (.dir name uid gid below rest) := right
  obtain ⟨found, next, sought, here, later, sharesEq, piecesEq⟩ := seek_right ready
  rw [reuse_eq rule sought]
  have sharesNext : next.shares = Share.tabulate before := sharesEq.trans shares
  have same : ∀ file ∈ below.files, old (names ++ [name] ++ file.dirs) file.name.toList =
      new (names ++ [name] ++ file.dirs) file.name.toList := fun file _ => carries.same file.dirs file.name.toList
  cases here with
  | absent allowed =>
    have word : rule < 2 ^ 64 := carries.absent allowed [] [] ▸ small _ _
    obtain ⟨last, ran, passed⟩ := uniform_passed block inner decoded owner word
      (fun file _ => carries.absent allowed file.dirs file.name.toList) later sharesNext
    exact ⟨last, ran, passed.of_pieces piecesEq⟩
  | uniform word all =>
    obtain ⟨last, ran, passed⟩ := uniform_passed block inner decoded owner word
      (fun file member => (same file member).symm.trans (all file member)) later sharesNext
    exact ⟨last, ran, passed.of_pieces piecesEq⟩
  | @node dir block nodes fits tagging reads short inside =>
    have charged : below.charges old (names ++ [name]) = below.charges new (names ++ [name]) :=
      List.map_congr_left fun file member => by rw [same file member]
    refine ⟨{ next with
      shares := Share.tabulate (before ++ below.charges new (names ++ [name]))
      pieces := next.pieces ++ [⟨name, block⟩] }, ?_, later, rfl, ?_⟩
    · simp only [adopt, Node.data, Node.block, inside.flawless, bind, Except.bind, TaggedDir.decode_encode fits,
        tagging, pure,
        Except.pure]
      rw [sharesNext, Share.merge_tabulate, charged]
    · exact ⟨_, block, nodes, by rw [piecesEq], fun others behind =>
        .shares fits (charged ▸ tagging) reads short (inside.congr same) behind⟩

/-- A directory that has been walked gets a node that is right. -/
theorem tagged_sealed {inventory : Inventory} {upper : Nodes} {inside : Walk} (proper : inventory.Proper)
    (small : inventory.span < 2 ^ 64) (fit : Share.ChargesFit (inventory.charges new names))
    (owner : uid < 2 ^ 32 ∧ gid < 2 ^ 32) (shares : inside.shares = Share.tabulate (inventory.charges new names))
    (pieces : inside.pieces = upper.pieces.map (·.1)) (classified : inventory.Classified new names upper) :
    ∃ dir : TaggedDir, dir.Fits ∧ dir.tagging = .shares (Share.tabulate (inventory.charges new names)) ∧
      inside.tagged ⟨uid, gid⟩ = dir.encode ∧
      (Block.ofNode dir.encode inside.pieces).Reads (.sound dir.encode (Block.ofNode dir.encode inside.pieces) upper) ∧
      (Block.ofNode dir.encode inside.pieces).bytes.length ≤ inventory.span := by
  have fits : ({ uid, gid, tagging := .shares (Share.tabulate (inventory.charges new names)) } : TaggedDir).Fits :=
    ⟨owner.1, owner.2, Share.tabulate_fits fit⟩
  have count : (inventory.charges new names).length = inventory.files.length := by
    rw [Inventory.charges, List.length_map]
  have short := TaggedDir.length_encode_le fits fun listed same => by
    obtain rfl := Tagging.shares.inj same
    exact Share.length_tabulate_le fit
  rw [count] at short
  refine ⟨_, fits, rfl, by rw [tagged, shares], ?_⟩
  rw [pieces]
  exact classified.sealed proper small short

theorem leave_passed {inside : Walk} {upper : Nodes} (fits : (Inventory.dir name uid gid below rest).Fits)
    (proper : below.Proper) (fit : Share.ChargesFit (below.charges new (names ++ [name])))
    (shares : inside.shares = Share.tabulate (below.charges new (names ++ [name])))
    (pieces : inside.pieces = upper.pieces.map (·.1)) (classified : below.Classified new (names ++ [name]) upper)
    (right : walk.prior.Right old missing names rest) (counted : walk.shares = Share.tabulate before) :
    Passed old new missing names name uid gid below rest before walk (walk.leave name ⟨uid, gid⟩ inside) := by
  obtain ⟨user, group, _⟩ := fits.owners
  obtain ⟨dir, dirFits, tagging, encoded, reads, short⟩ :=
    tagged_sealed proper fits.span fit ⟨user, group⟩ shares pieces classified
  refine ⟨right, ?_, ?_⟩
  · rw [leave, counted, shares, Share.merge_tabulate]
  · rw [leave, encoded]
    exact ⟨_, _, _, rfl, fun others behind => .shares dirFits tagging reads short classified behind⟩

section led

variable {walked : List String → Prop} {before after : List String → List Char → Nat} {dispatch : Dispatch}

theorem not_isDir {name : String} (plain : '/' ∉ name.toList) : isDir name = false := by
  rw [isDir, beq_eq_false_iff_ne]
  exact fun last => plain (List.mem_of_getLast? last)

/-- A walk through the contents of a directory ends well: it charges every file to its rule, and makes what is right. -/
def Succeeds (before after : List String → List Char → Nat) (missing : Prop) (dispatch : Dispatch) (names : List String)
    (inventory : Inventory) :
    Prop :=
  ∀ {lower : Nodes} {walk : Walk} {seen : List (Nat × FileStat)}, inventory.Stored lower →
    walk.prior.Right before missing names inventory → walk.shares = Share.tabulate seen →
    ∃ next upper, nodes dispatch (dirOf names) lower walk = .ok next ∧
      next.shares = Share.tabulate (seen ++ inventory.charges after names) ∧
      next.pieces = walk.pieces ++ upper.pieces.map (·.1) ∧ inventory.Classified after names upper

variable {lower inner : Nodes} {data : Bytes} {block : Block} {seen : List (Nat × FileStat)}

theorem succeeds_done : Succeeds before after missing dispatch names .done := by
  intro lower walk seen stored right shares
  cases stored
  exact ⟨walk, .done, by rw [nodes], by simpa [Inventory.charges, Inventory.files] using shares, by simp [Nodes.pieces],
    .done⟩

theorem succeeds_file {stat : FileStat} (leads : dispatch.Leads walked missing before after) (here : walked names)
    (plain : '/' ∉ name.toList) (ih : Succeeds before after missing dispatch names rest) :
    Succeeds before after missing dispatch names (.file name stat rest) := by
  intro lower walk seen stored right shares
  cases stored with
  | @file _ _ _ data block below others decoded behind =>
    let counted : Walk := { walk with
      shares := Share.tabulate (seen ++ [(after names name.toList, stat)])
      report := { walk.report with files := walk.report.files + 1 } }
    have ran : walk.file dispatch (dirOf names ++ name.toList) (.sound data block below) = .ok counted := by
      rw [Walk.file, Node.data]
      change (FileStat.decode data >>= _) = _
      rw [decoded, leads.file names here name.toList plain, shares]
      simp only [counted, bind, Except.bind, pure, Except.pure, Share.tabulate, List.foldl_append, List.foldl_cons,
        List.foldl_nil]
    have ready : counted.prior.Right before missing names rest := right.of_file
    obtain ⟨next, upper, ranRest, charged, pieces, classified⟩ := ih behind ready rfl
    refine ⟨next, upper, ?_, ?_, pieces, .file classified⟩
    · rw [nodes]
      simp only [not_isDir plain, Bool.false_eq_true, if_false, ran]
      exact ranRest
    · rw [charged, Inventory.charges_file, List.append_assoc, List.singleton_append]

/-- A subdirectory that is walked through is left with a node of its own. -/
theorem process_passed (small : ∀ names rest, after names rest < 2 ^ 64)
    (ih : Succeeds before after missing dispatch (names ++ [name]) below) (proper : below.Proper)
    (fits : (Inventory.dir name uid gid below rest).Fits) (stored : below.Stored inner)
    (right : walk.prior.Right before missing names (.dir name uid gid below rest))
    (shares : walk.shares = Share.tabulate seen) :
    ∃ found mid entered inside, walk.seek name = .ok (found, mid) ∧ enter found mid.report = .ok entered ∧
      nodes dispatch (dirOf (names ++ [name])) inner entered = .ok inside ∧
      Passed before after missing names name uid gid below rest seen walk
        (mid.leave name ⟨uid, gid⟩ inside) := by
  obtain ⟨found, mid, sought, foundRight, priorRight, sharesEq, piecesEq⟩ := seek_right right
  obtain ⟨prior, opened, priorReady⟩ := PriorChildren.ofCounterpart_right foundRight
  let entered : Walk := { prior, report := { mid.report with processed := mid.report.processed + 1 } }
  have ready : entered.prior.Right before missing (names ++ [name]) below := priorReady
  have sharesReady : entered.shares = Share.tabulate [] := rfl
  obtain ⟨inside, upper, ran, charged, pieces, classified⟩ := ih stored ready sharesReady
  have passed := leave_passed fits proper (fits.inside.charges _ _ small) charged pieces classified priorRight
    (sharesEq.trans shares)
  refine ⟨found, mid, entered, inside, sought, ?_, ran, passed.of_pieces piecesEq⟩
  rw [enter, opened]
  rfl

/-- Whatever the directive of a subdirectory, the walk goes on behind it once it has been dealt with. -/
theorem visit_passed (leads : dispatch.Leads walked missing before after)
    (small : ∀ names rest, after names rest < 2 ^ 64)
    (here : walked names) (step : IsStep name.toList) (proper : below.Proper)
    (fits : (Inventory.dir name uid gid below rest).Fits)
    (ih : walked (names ++ [name]) → Succeeds before after missing dispatch (names ++ [name]) below)
    (decoded : DirStat.decode data = .ok (.ofFiles uid gid below.stats))
    (owned : DirStat.decodeOwner data = .ok ⟨uid, gid⟩) (stored : below.Stored inner)
    (right : walk.prior.Right before missing names (.dir name uid gid below rest))
    (first : ∀ other ∈ rest.names, name < other) (shares : walk.shares = Share.tabulate seen) (others : Nodes) :
    ∃ mid, Passed before after missing names name uid gid below rest seen walk mid ∧
      nodes dispatch (dirOf names) (.entry name data block inner others) walk =
        nodes dispatch (dirOf names) others mid := by
  obtain ⟨user, group, _⟩ := fits.owners
  have promise := leads.keeps names here name step
  rw [nodes, ← dirOf_snoc]
  simp only [step.isDir, if_true]
  cases directive : dispatch.directiveFor (dirOf (names ++ [name])) with
  | process =>
    obtain ⟨found, mid, entered, inside, sought, opened, ran, passed⟩ :=
      process_passed small (ih (leads.child names here name step directive)) proper fits stored right shares
    refine ⟨_, passed, ?_⟩
    simp only [sought, owned, bind, Except.bind, opened, ran]
    rfl
  | assign rule =>
    rw [directive] at promise
    let counted : Walk := { walk with report := { walk.report with assigned := walk.report.assigned + 1 } }
    have ready : counted.prior.Right before missing names rest := right.of_dir first
    have word : rule < 2 ^ 64 := promise [] [] ▸ small _ _
    obtain ⟨mid, ran, passed⟩ := uniform_passed block inner decoded ⟨user, group⟩ word
      (fun file _ => promise file.dirs file.name.toList) ready shares
    refine ⟨mid, passed.of_pieces rfl, ?_⟩
    simp only [counted] at ran
    simp only [ran]
    rfl
  | reuse _ | unmatched =>
    rw [directive] at promise
    obtain ⟨mid, ran, passed⟩ := reuse_passed block inner decoded ⟨user, group⟩ small promise right shares
    refine ⟨mid, passed, ?_⟩
    simp only [ran]
    rfl

/-- A walk that is led charges every file to its rule, and what it makes is right. -/
theorem nodes_spec (leads : dispatch.Leads walked missing before after)
    (small : ∀ names rest, after names rest < 2 ^ 64)
    (inventory : Inventory) {names : List String} (here : walked names) (proper : inventory.Proper)
    (fits : inventory.Fits) :
    Succeeds before after missing dispatch names inventory := by
  induction inventory generalizing names with
  | done => exact succeeds_done
  | file name stat rest ih =>
    obtain ⟨plain, _, properRest⟩ := proper
    exact succeeds_file leads here plain (ih here properRest fits.of_file)
  | dir name uid gid below rest ihBelow ihRest =>
    obtain ⟨step, first, properBelow, properRest⟩ := proper
    intro lower walk seen stored right shares
    cases stored with
    | @dir _ _ _ _ _ data block inner others decoded owned inside behind =>
      obtain ⟨mid, passed, ran⟩ := visit_passed leads small here step properBelow fits
        (fun walkedBelow => ihBelow walkedBelow properBelow fits.inside) decoded owned inside right first shares others
      obtain ⟨made, block', inner', pieces, built⟩ := passed.made
      obtain ⟨next, upper, ranRest, charged, piecesRest, classified⟩ :=
        ihRest here properRest fits.of_dir behind passed.prior passed.shares
      refine ⟨next, .entry name made block' inner' upper, ran.trans ranRest, ?_, ?_, built upper classified⟩
      · rw [charged, Inventory.charges_dir, List.append_assoc]
      · rw [piecesRest, pieces, List.append_assoc]
        rfl

end led

end Walk
end BackupAtlas
