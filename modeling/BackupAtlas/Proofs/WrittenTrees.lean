import BackupAtlas.Proofs.Outlines

namespace BackupAtlas

/-- What calls have described so far: the nodes in the directories that are open, the innermost first, and those of the
topmost node. -/
structure Sketch where
  inner : List Outline := []
  top : Outline := .done

namespace Sketch

def attach (name : String) (part : Part) (sketch : Sketch) : Sketch :=
  match sketch.inner with
  | [] => { sketch with top := sketch.top.snoc name part }
  | outline :: outer => { sketch with inner := outline.snoc name part :: outer }

/-- A directory that is closed becomes a node of the one around it. With none open, nothing happens. -/
def close (name : String) (data : Bytes) (sketch : Sketch) : Sketch :=
  match sketch.inner with
  | [] => sketch
  | below :: outer => attach name { data, below } { sketch with inner := outer }

structure Faithful (sketch : Sketch) : Prop where
  inner : ∀ outline ∈ sketch.inner, outline.Faithful
  top : sketch.top.Faithful

variable {sketch : Sketch} {part : Part}

theorem faithful_nothing : Faithful {} := ⟨fun _ member => absurd member List.not_mem_nil, trivial⟩

theorem Faithful.attach (faithful : sketch.Faithful) (name : String) (here : part.Faithful) :
    (sketch.attach name part).Faithful := by
  obtain ⟨inner, top⟩ := sketch
  cases inner with
  | nil => exact ⟨faithful.inner, faithful.top.snoc name here⟩
  | cons outline outer =>
    obtain ⟨first, others⟩ := List.forall_mem_cons.mp faithful.inner
    exact ⟨List.forall_mem_cons.mpr ⟨first.snoc name here, others⟩, faithful.top⟩

theorem Faithful.close (faithful : sketch.Faithful) (name : String) (data : Bytes) :
    (sketch.close name data).Faithful := by
  obtain ⟨inner, top⟩ := sketch
  cases inner with
  | nil => exact faithful
  | cons below outer =>
    obtain ⟨first, others⟩ := List.forall_mem_cons.mp faithful.inner
    have rest : Faithful ⟨outer, top⟩ := ⟨others, faithful.top⟩
    exact rest.attach name (first.topmost data)

end Sketch

namespace Script

/-- What calls describe, on top of what has been described before. -/
def sketch : Script → Sketch → Sketch
  | done, before => before
  | openDir rest, before => rest.sketch { before with inner := .done :: before.inner }
  | closeDir name data rest, before => rest.sketch (before.close name data)
  | leaf name data rest, before => rest.sketch (before.attach name { data, below := .done })
  | copy name source data path rest, before =>
    rest.sketch <| match Part.descend? { data, below := (source.sketch {}).top } path with
      | some part => before.attach name { part with origin := some ⟨source, data, path⟩ }
      | none => before

/-- The topmost node that calls describe. -/
def part (script : Script) (data : Bytes) : Part := { data, below := (script.sketch {}).top }

/-- Calls after which a tree can be finished: every directory is closed, siblings have different names, and positions in
the tree fit in 64 bits. -/
structure Complete (script : Script) (data : Bytes) : Prop where
  balanced : (script.run {}).inner = []
  distinct : (script.part data).below.Distinct
  fits : ∀ bytes, (script.run {}).finish data = .ok bytes → bytes.length < 2 ^ 64

/-- Whatever is copied is a node of a tree that was written by calls like these. -/
def Proper : Script → Prop
  | done => True
  | openDir rest | closeDir _ _ rest | leaf _ _ rest => rest.Proper
  | copy _ source data path rest =>
    source.Proper ∧ source.Complete data ∧ ((source.part data).descend? path).isSome ∧ rest.Proper

end Script

/-- The pieces of a draft are those of the outlines in a sketch. -/
structure Draft.Matches (draft : Draft) (sketch : Sketch) : Prop where
  inner : draft.inner = sketch.inner.map Outline.pieces
  top : draft.top = sketch.top.pieces

namespace Draft.Matches

variable {draft : Draft} {sketch : Sketch} (is : draft.Matches sketch)

include is

theorem attach (name : String) (part : Part) : (draft.attach ⟨name, part.block⟩).Matches (sketch.attach name part) := by
  obtain ⟨inner, top⟩ := draft
  obtain ⟨outlines, outline⟩ := sketch
  obtain ⟨rfl, rfl⟩ := is
  cases outlines with
  | nil => exact ⟨rfl, (outline.pieces_snoc name part).symm⟩
  | cons first outer =>
    refine ⟨?_, rfl⟩
    change (first.pieces ++ [_]) :: _ = (first.snoc name part).pieces :: _
    rw [first.pieces_snoc]

theorem openDir : (draft.after Draft.openDir).Matches { sketch with inner := .done :: sketch.inner } := by
  obtain ⟨inner, top⟩ := draft
  obtain ⟨rfl, rfl⟩ := is
  exact ⟨rfl, rfl⟩

theorem close (name : String) (data : Bytes) :
    (draft.after (Draft.closeDir name data)).Matches (sketch.close name data) := by
  obtain ⟨inner, top⟩ := draft
  obtain ⟨outlines, outline⟩ := sketch
  obtain ⟨rfl, rfl⟩ := is
  cases outlines with
  | nil => exact ⟨rfl, rfl⟩
  | cons below outer =>
    have rest : Draft.Matches ⟨outer.map Outline.pieces, outline.pieces⟩ ⟨outer, outline⟩ := ⟨rfl, rfl⟩
    exact rest.attach name { data, below }

theorem leaf (name : String) (data : Bytes) :
    (draft.after (Draft.leaf name data)).Matches (sketch.attach name { data, below := .done }) := by
  obtain ⟨inner, top⟩ := draft
  exact is.attach name { data, below := .done }

theorem graft (name : String) (part : Part) :
    (draft.after (Draft.graft name part.node)).Matches (sketch.attach name part) := by
  have ran : Draft.graft name part.node draft = .ok () (draft.attach ⟨name, part.block⟩) := by
    rw [Draft.graft, part.block_node]
  rw [Draft.after, ran]
  exact is.attach name part

theorem finish (balanced : draft.inner = []) (data : Bytes) :
    draft.finish data = .ok (StoredTree.seal (Part.block { data, below := sketch.top })) := by
  rw [Draft.finish, balanced, is.top]
  rfl

/-- A balanced draft ends as the tree whose topmost node is the one that was described. -/
theorem tree (balanced : draft.inner = []) {data : Bytes}
    (fits : ∀ bytes, draft.finish data = .ok bytes → bytes.length < 2 ^ 64) :
    ∃ bytes, draft.finish data = .ok bytes ∧
      StoredTree.ofBytes bytes = .ok { bytes, root := Part.node { data, below := sketch.top } } := by
  have finished := is.finish balanced data
  exact ⟨_, finished, StoredTree.ofBytes_seal (Part.reads _) (fits _ finished)⟩

end Draft.Matches

namespace Script

/-- Calls do to a draft what they describe, and copied nodes are those that are said to be copied. -/
theorem run_spec (script : Script) {draft : Draft} {sketch : Sketch} (proper : script.Proper)
    (is : draft.Matches sketch) (faithful : sketch.Faithful) :
    (script.run draft).Matches (script.sketch sketch) ∧ (script.sketch sketch).Faithful := by
  induction script generalizing draft sketch with
  | done => exact ⟨is, faithful⟩
  | openDir rest ih =>
    exact ih proper is.openDir ⟨List.forall_mem_cons.mpr ⟨trivial, faithful.inner⟩, faithful.top⟩
  | closeDir name data rest ih => exact ih proper (is.close name data) (faithful.close name data)
  | leaf name data rest ih =>
    have empty : Outline.done.Faithful := trivial
    exact ih proper (is.leaf name data) (faithful.attach name (empty.topmost data))
  | copy name source data path rest ihSource ih =>
    obtain ⟨sourceProper, complete, leads, restProper⟩ := proper
    obtain ⟨part, found⟩ := Option.isSome_iff_exists.mp leads
    -- the source tree holds the node of the part to which `path` leads
    have empty : Draft.Matches {} {} := ⟨rfl, rfl⟩
    obtain ⟨written, truth⟩ := ihSource sourceProper empty Sketch.faithful_nothing
    obtain ⟨bytes, finished, opened⟩ := written.tree complete.balanced complete.fits
    have node : (do (← (source.run {}).tree data).root.descend? path) = .ok (some part.node) := by
      have descends := Part.descend?_node complete.distinct path
      rw [found] at descends
      rw [Draft.tree, finished]
      change (StoredTree.ofBytes bytes >>= _) = _
      rw [opened]
      exact descends
    have whole : (source.part data).Faithful := truth.top.topmost data
    let copied : Part := { part with origin := some ⟨source, data, path⟩ }
    have truthful : copied.Faithful := by
      refine ⟨fun origin same => ?_, (whole.descend? found).below⟩
      rw [← Option.some.inj same]
      exact node
    have described : Part.descend? { data, below := (source.sketch {}).top } path = some part := found
    simp only [run, Script.sketch, node, described]
    exact ih restProper (is.graft name copied) (faithful.attach name truthful)

/-- A script that is proper leaves the draft that its description matches. -/
theorem Proper.matches {script : Script} (proper : script.Proper) : (script.run {}).Matches (script.sketch {}) :=
  (script.run_spec proper ⟨rfl, rfl⟩ Sketch.faithful_nothing).1

/-- What calls write is a tree with the node at its top that they describe. -/
theorem Proper.tree {script : Script} {data : Bytes} (proper : script.Proper) (complete : script.Complete data) :
    ∃ bytes, (script.run {}).tree data = .ok { bytes, root := (script.part data).node } := by
  obtain ⟨bytes, finished, opened⟩ := proper.matches.tree complete.balanced complete.fits
  refine ⟨bytes, ?_⟩
  rw [Draft.tree, finished]
  exact opened

/-- Whether calls are complete can be told from what they describe. -/
theorem Proper.complete {script : Script} {data : Bytes} (proper : script.Proper)
    (balanced : (script.sketch {}).inner.length = 0) (distinct : (script.part data).below.Distinct)
    (fits : (StoredTree.seal (script.part data).block).length < 2 ^ 64) : script.Complete data := by
  have closed : (script.run {}).inner = [] := by
    rw [proper.matches.inner, List.eq_nil_of_length_eq_zero balanced]
    rfl
  refine ⟨closed, distinct, fun bytes finished => ?_⟩
  have same := proper.matches.finish closed data
  rw [Except.ok.inj (finished.symm.trans same)]
  exact fits

/-- Writing a tree and opening it again is the identity: a reader of the tree finds what the calls describe. A
directory that is closed while none is open is an error that leaves the draft as it was. -/
theorem written_reads_back {script : Script} {data : Bytes} (proper : script.Proper) (complete : script.Complete data) :
    (∃ bytes tree, (script.run {}).finish data = .ok bytes ∧ StoredTree.ofBytes bytes = .ok tree ∧
      tree.bytes = bytes ∧ tree.Depicts (script.part data)) ∧
    ∀ (draft : Draft) name data, draft.inner = [] → ∃ reason, Draft.closeDir name data draft = .error reason draft := by
  constructor
  · have empty : Draft.Matches {} {} := ⟨rfl, rfl⟩
    obtain ⟨written, truth⟩ := script.run_spec proper empty Sketch.faithful_nothing
    obtain ⟨bytes, finished, opened⟩ := written.tree complete.balanced complete.fits
    exact ⟨bytes, _, finished, opened, rfl, Part.depicts complete.distinct (truth.top.topmost data) opened⟩
  · rintro ⟨inner, top⟩ name data rfl
    exact ⟨_, rfl⟩

/-- A tree with a copy of a copy. -/
theorem written_reads_back_copied_copy :
    let source := openDir (leaf "x" [1] (closeDir "b/" [2] (leaf "a" [3] done)))
    let middle := copy "c/" source [] ["b/"] (leaf "first" [] done)
    let script := closeDir "none/" [] (openDir (copy "d/" middle [] ["c/"] (closeDir "e/" [4] done)))
    script.Proper ∧ script.Complete [5] ∧ ∃ bytes tree, (script.run {}).finish [5] = .ok bytes ∧
      StoredTree.ofBytes bytes = .ok tree ∧ tree.Depicts (script.part [5]) := by
  intro source middle script
  have sourceProper : source.Proper := trivial
  have first : source.Complete [] :=
    sourceProper.complete (by decide +kernel) (by decide +kernel) (by decide +kernel)
  have middleProper : middle.Proper := ⟨sourceProper, first, by decide +kernel, trivial⟩
  have second : middle.Complete [] :=
    middleProper.complete (by decide +kernel) (by decide +kernel) (by decide +kernel)
  have proper : script.Proper := ⟨middleProper, second, by decide +kernel, trivial⟩
  have complete : script.Complete [5] :=
    proper.complete (by decide +kernel) (by decide +kernel) (by decide +kernel)
  obtain ⟨⟨bytes, tree, finished, opened, _, depicts⟩, _⟩ := written_reads_back proper complete
  exact ⟨proper, complete, bytes, tree, finished, opened, depicts⟩

end Script
end BackupAtlas
