import BackupAtlas.Build
import BackupAtlas.Overlay
import BackupAtlas.Proofs.CompiledMatchers
import BackupAtlas.Proofs.OpenedTrees
import BackupAtlas.Proofs.RuleSets

namespace BackupAtlas

open StoredTree (Blames Decodes)

/-- A read that fails blames the bytes. -/
def Read.Blaming {α : Type} (read : Read α) : Prop :=
  ∀ cursor reason next, read cursor = .error reason next → Blames reason

namespace Read.Blaming

variable {α β : Type}

theorem pure (a : α) : Blaming (Pure.pure a : Read α) := fun _ _ _ failed => nomatch failed

theorem fail (details : String) : Blaming (Cursor.fail details : Read α) := by
  intro cursor reason next failed
  exact ⟨_, _, (EStateM.Result.error.inj failed).1.symm⟩

theorem bind {read : Read α} {next : α → Read β} (first : Blaming read) (later : ∀ a, Blaming (next a)) :
    Blaming (read >>= next) := by
  intro cursor reason last failed
  rw [bind_eq] at failed
  cases ran : read cursor with
  | error other middle =>
    rw [ran] at failed
    exact (EStateM.Result.error.inj failed).1 ▸ first cursor other middle ran
  | ok a middle =>
    rw [ran] at failed
    exact later a middle reason last failed

theorem varint : Blaming Cursor.varint := by
  intro cursor reason next failed
  rw [Cursor.varint] at failed
  cases decoded : Varint.decode cursor.rest with
  | ok read => simp [decoded] at failed
  | error fault =>
    rw [decoded] at failed
    cases fault <;> exact fail _ _ _ _ failed

theorem word : Blaming Cursor.word := by
  refine varint.bind fun n => ?_
  split
  · exact pure n
  · exact fail _

theorem length : Blaming Cursor.length := by
  refine varint.bind fun n => ?_
  intro cursor reason next failed
  rw [bind_eq, get_eq] at failed
  by_cases large : cursor.size < n
  · simp only [if_pos large] at failed
    exact fail _ _ _ _ failed
  · simp only [if_neg large] at failed
    exact pure n _ _ _ failed

theorem times {read : Read α} (each : Blaming read) (count : Nat) : Blaming (read.times count) := by
  induction count with
  | zero => exact pure []
  | succ count ih => exact each.bind fun first => ih.bind fun others => pure (first :: others)

/-- A read that blames the bytes decodes them or says what they should have been. -/
theorem decodes {read : Read α} (blaming : Blaming read) (bytes : Bytes) (context : String) :
    Decodes (read.run bytes context) := by
  intro reason failed
  rw [Read.run] at failed
  cases ran : read (Cursor.start bytes context) with
  | ok a next => simp [ran] at failed
  | error other next =>
    rw [ran] at failed
    exact Except.error.inj failed ▸ blaming _ _ _ ran

theorem owner : Blaming Owner.read := word.bind fun _ => word.bind fun _ => pure _

theorem tally : Blaming Tally.read :=
  word.bind fun _ => varint.bind fun _ => varint.bind fun _ => varint.bind fun _ => pure _

theorem tallies : Blaming Tally.readAll := length.bind fun count => tally.times count

theorem dirStat : Blaming DirStat.read :=
  owner.bind fun _ => tallies.bind fun _ => tallies.bind fun _ => pure _

theorem fileStat : Blaming FileStat.read :=
  word.bind fun _ => word.bind fun _ => varint.bind fun _ => varint.bind fun _ => pure _

end Read.Blaming

/-- Bytes are to blame for every reason that stands in for an entry or for a record below. -/
def Nodes.Blaming : Nodes → Prop
  | done => True
  | flaw reason rest | torn _ reason rest => Blames reason ∧ rest.Blaming
  | entry _ _ _ below rest => below.Blaming ∧ rest.Blaming

def Node.Blaming : Node → Prop
  | torn reason => Blames reason
  | sound _ _ below => below.Blaming

theorem Nodes.blaming_ofNode {name : String} {node : Node} {rest : Nodes} :
    (ofNode name node rest).Blaming ↔ node.Blaming ∧ rest.Blaming := by
  cases node <;> exact Iff.rfl

namespace StoredTree

variable {body : Bytes} {start : Nat} {node : Node}

/-- Children that are read from sensible records blame the bytes for what is wrong with them. -/
theorem nodesOf_blaming {entries : List (Except Error (RecordEntry start))} (sensible : ∀ entry ∈ entries, Sensible entry)
    (each : ∀ entry, .ok entry ∈ entries → (nodeAt body entry.position).Blaming) : (nodesOf body entries).Blaming := by
  induction entries with
  | nil =>
    rw [nodesOf]
    trivial
  | cons first rest ih =>
    have others := ih (fun entry listed => sensible entry (List.mem_cons_of_mem _ listed))
      fun entry listed => each entry (List.mem_cons_of_mem _ listed)
    rw [nodesOf.eq_def]
    cases first with
    | error reason => exact ⟨sensible _ List.mem_cons_self, others⟩
    | ok entry => exact Nodes.blaming_ofNode.mpr ⟨each entry List.mem_cons_self, others⟩

/-- Children stand in front of their parent, so this is by induction on the position. -/
theorem Stands.blaming (stands : Stands body start node) : node.Blaming := by
  induction start using Nat.strongRecOn generalizing node with
  | ind start ih =>
    have high := stands.high
    rcases stands.cases with ⟨reason, blames, rfl⟩ | ⟨record, _, sensible, rfl⟩
    · exact blames
    · refine nodesOf_blaming sensible fun entry listed => ?_
      have before := entry.position_lt
      exact ih entry.position before ⟨sensible _ listed, by omega, rfl⟩

/-- Bytes that are no tree are refused as such. -/
theorem ofBytes_decodes (bytes : Bytes) : Decodes (ofBytes bytes) := by
  intro reason failed
  rw [ofBytes_eq] at failed
  split at failed
  · exact ⟨_, _, (Except.error.inj failed).symm⟩
  · split at failed
    · exact absurd failed (by simp)
    · exact ⟨_, _, (Except.error.inj failed).symm⟩

end StoredTree

namespace Node.Blaming

variable {node : Node} (blaming : node.Blaming)

include blaming

theorem data : Decodes node.data := by
  cases node with
  | torn other => exact fun reason failed => Except.error.inj failed ▸ blaming
  | sound data block below => exact .ok data

theorem children : Decodes node.children := by
  cases node with
  | torn other => exact fun reason failed => Except.error.inj failed ▸ blaming
  | sound data block below => exact .ok below

theorem nodes {nodes : Nodes} (known : node.children = .ok nodes) : nodes.Blaming := by
  cases node with
  | torn other => exact absurd known (by simp [Node.children])
  | sound data block below => exact Except.ok.inj known ▸ blaming

end Node.Blaming

namespace Walk

/-- A walk without a previous tree that goes on, or ends because the bytes make no sense. -/
def Plain : Except Error Walk → Prop
  | .ok walk => walk.prior = .absent
  | .error reason => Blames reason

namespace Plain

variable {α : Type}

theorem bind {first : Except Error Walk} {next : Walk → Except Error Walk} (plain : Plain first)
    (later : ∀ walk, walk.prior = .absent → Plain (next walk)) : Plain (first >>= next) := by
  cases first with
  | error reason => exact plain
  | ok walk => exact later walk plain

theorem decoding {first : Except Error α} {next : α → Except Error Walk} (decodes : Decodes first)
    (later : ∀ a, Plain (next a)) : Plain (first >>= next) := by
  cases first with
  | error reason => exact decodes reason rfl
  | ok a => exact later a

end Plain

variable {walk : Walk} {node : Node} {dispatch : Dispatch}

/-- Without a previous tree there is no counterpart to be found. -/
theorem seek_absent (fresh : walk.prior = .absent) (name : String) : walk.seek name = .ok (.absent, walk) := by
  rw [seek, fresh]
  cases walk
  cases fresh
  rfl

theorem file_plain (fresh : walk.prior = .absent) (blaming : node.Blaming) (path : List Char) :
    Plain (walk.file dispatch path node) :=
  .decoding blaming.data fun data => .decoding (Read.Blaming.fileStat.decodes data _) fun _ => fresh

theorem uniform_plain (fresh : walk.prior = .absent) (blaming : node.Blaming) (name : String) (rule : Nat) :
    Plain (walk.uniform name node rule) :=
  .decoding blaming.data fun data => .decoding (Read.Blaming.dirStat.decodes data _) fun _ => fresh

theorem reuse_plain (fresh : walk.prior = .absent) (blaming : node.Blaming) (name : String) (rule : Nat) :
    Plain (walk.reuse name node rule) := by
  generalize next : { walk with report := { walk.report with reused := walk.report.reused + 1 } } = later
  have still : later.prior = .absent := next ▸ fresh
  rw [reuse, next, seek_absent still]
  exact uniform_plain still blaming name rule

/-- What is walked without a previous tree is walked to its end unless the bytes make no sense. -/
theorem nodes_plain (path : List Char) {nodes : Nodes} (blaming : nodes.Blaming) (fresh : walk.prior = .absent) :
    Plain (Walk.nodes dispatch path nodes walk) := by
  induction nodes generalizing path walk with
  | done => exact fresh
  | flaw reason rest ih => exact blaming.1
  | torn name reason rest ih =>
    have torn : (Node.torn reason).Blaming := blaming.1
    have onward : ∀ next : Walk, next.prior = .absent → Plain (Walk.nodes dispatch path rest next) :=
      fun next => ih path blaming.2
    rw [Walk.nodes]
    split
    · split
      · rw [seek_absent fresh]
        exact torn
      · exact torn
      · exact (reuse_plain fresh torn name _).bind onward
      · exact (reuse_plain fresh torn name 0).bind onward
    · exact torn
  | entry name data block below rest ihBelow ih =>
    have sound : (Node.sound data block below).Blaming := blaming.1
    have onward : ∀ next : Walk, next.prior = .absent → Plain (Walk.nodes dispatch path rest next) :=
      fun next => ih path blaming.2
    rw [Walk.nodes]
    split
    · split
      · rw [seek_absent fresh]
        have walked : Plain (DirStat.decodeOwner data >>= fun owner => Walk.nodes dispatch (path ++ name.toList) below
            { prior := .absent, report := { walk.report with processed := walk.report.processed + 1 } } >>= fun inside =>
              Walk.nodes dispatch path rest (walk.leave name owner inside)) :=
          .decoding (Read.Blaming.owner.decodes data _) fun owner =>
            (ihBelow _ blaming.1 rfl).bind fun inside _ => onward (walk.leave name owner inside) fresh
        exact walked
      · have still : Walk.prior { walk with report := { walk.report with assigned := walk.report.assigned + 1 } } =
          .absent := fresh
        exact (uniform_plain still sound name _).bind onward
      · exact (reuse_plain fresh sound name _).bind onward
      · exact (reuse_plain fresh sound name 0).bind onward
    · exact (file_plain fresh sound _).bind onward

end Walk

/-- A first build fails only if the bytes of the snapshot make no sense. -/
theorem build_decodes {top : Node} (blaming : top.Blaming) (root : String) (dispatch : Dispatch) :
    Decodes (build top root dispatch none) := by
  refine blaming.data.bind fun data _ => (Read.Blaming.owner.decodes data _).bind fun owner _ => ?_
  have entered : Walk.enter .absent {} = .ok { prior := .absent, report := { processed := 1 } } := rfl
  simp only [entered]
  refine blaming.children.bind fun nodes known => ?_
  have walked : Walk.Plain (Walk.nodes dispatch root.toList nodes { prior := .absent, report := { processed := 1 } }) :=
    Walk.nodes_plain root.toList (blaming.nodes known) rfl
  refine Decodes.bind ?_ fun walk _ => (StoredTree.ofBytes_decodes _).bind fun tree _ => .ok _
  intro reason failed
  rw [failed] at walked
  exact walked

/-- What is mounted has an absolute path and no tagged tree yet, and is part of the tree that has been opened. -/
theorem Overlay.ofTree_ok {lower : StoredTree} {source : String} {overlay : Overlay}
    (mounts : ofTree lower source = .ok overlay) :
    overlay.lower = lower ∧ overlay.upper = none ∧ TreePath.isAbsoluteDir overlay.root ∧
      (lower.root.Blaming → overlay.top.Blaming) := by
  rw [ofTree] at mounts
  cases known : lower.root.children with
  | error reason => simp [known, bind, Except.bind] at mounts
  | ok nodes =>
    have accepted : ∀ root top, (lower.root.Blaming → top.Blaming) →
        (if TreePath.isAbsoluteDir root then Except.ok { root, lower, top } else .error (Error.invalidRoot root)) =
          .ok overlay →
        overlay.lower = lower ∧ overlay.upper = none ∧ TreePath.isAbsoluteDir overlay.root ∧
          (lower.root.Blaming → overlay.top.Blaming) := by
      intro root top blamed made
      split at made
      · rename_i absolute
        obtain rfl := Except.ok.inj made
        exact ⟨rfl, rfl, absolute, blamed⟩
      · exact absurd made (by simp)
    simp only [known, bind, Except.bind] at mounts
    split at mounts
    · exact absurd mounts (by simp)
    · exact accepted _ (.torn _) (fun blaming => (blaming.nodes known).1) mounts
    · exact accepted _ (.sound _ _ _) (fun blaming => (blaming.nodes known).1) mounts
    · exact absurd mounts (by simp)

/-- Patterns fail to compile only if they conflict. -/
theorem Matcher.compile_error {α : Type} {patterns : List (List Char × α)} {reason : Error}
    (failed : compile patterns = .error reason) : ∃ pattern, reason = .patternConflict pattern := by
  obtain ⟨_, text, _, _, _, _, _, conflict⟩ := refused_of_compile failed
  exact ⟨_, conflict⟩

/-- A plan cannot be made ready only if its patterns conflict. -/
theorem Dispatch.ofPlan_error {plan : Plan} {reason : Error} (failed : ofPlan plan = .error reason) :
    ∃ pattern, reason = .patternConflict pattern := by
  rw [ofPlan] at failed
  cases files : Matcher.compile plan.rules with
  | error other =>
    rw [files] at failed
    exact Except.error.inj failed ▸ Matcher.compile_error files
  | ok fileMatcher =>
    cases dirs : Matcher.compile plan.directives with
    | error other =>
      rw [files, dirs] at failed
      exact Except.error.inj failed ▸ Matcher.compile_error dirs
    | ok dirMatcher =>
      rw [files, dirs] at failed
      exact absurd failed (by simp [bind, Except.bind, pure, Except.pure])

end BackupAtlas
