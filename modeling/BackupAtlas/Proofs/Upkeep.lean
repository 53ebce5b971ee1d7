import BackupAtlas.Proofs.Queries
import BackupAtlas.Proofs.RuleEdits

namespace BackupAtlas

open TreePath

/-- Only directories on the way to a file matter for it. -/
theorem RuleMap.ruleOf_congr {old new : RuleMap} {names : List String} (rest : List Char)
    (same : ∀ above, above <+: names → old above = new above) : old.ruleOf names rest = new.ruleOf names rest := by
  rw [ruleOf, ruleOf]
  generalize dirOf names ++ rest = path
  have along : ∀ trail : List String, trail.reverse <+: names → old.upTo path trail = new.upTo path trail := by
    intro trail
    induction trail with
    | nil =>
      intro held
      rw [upTo, upTo, own, own, same [] held]
    | cons name trail ih =>
      intro held
      have above : trail.reverse <+: names := by
        rw [List.reverse_cons] at held
        exact (List.prefix_append _ _).trans held
      rw [upTo, upTo, own, own, same _ held, ih above]
  rw [along names.reverse ⟨[], by rw [List.append_nil, List.reverse_reverse]⟩]

namespace Overlay

/-- A snapshot of the directory to which names lead, with the given owner and contents. -/
structure Mounted (names : List String) (uid gid : Nat) (inventory : Inventory) (overlay : Overlay) : Prop where
  root : overlay.root = String.ofList (dirOf names)
  steps : AreSteps names
  below : names ≠ []
  starless : '*' ∉ dirOf names
  opens : ∀ source, Overlay.ofTree overlay.lower source = .ok { overlay with upper := none }
  isTop : inventory.IsTop uid gid overlay.top
  mountable : inventory.Mountable uid gid

/-- A mounted snapshot has a tagged tree that is right for the rules. -/
structure Tagged (map : RuleMap) (names : List String) (uid gid : Nat) (inventory : Inventory) (overlay : Overlay) :
    Prop
    extends Mounted names uid gid inventory overlay where
  tagged : ∃ tree, overlay.upper = some tree ∧ (Counterpart.node tree.root).Right map.ruleOf False names inventory

variable {map map' : RuleMap} {names : List String} {uid gid : Nat} {inventory : Inventory} {overlay other : Overlay}

theorem Mounted.segments (mounted : overlay.Mounted names uid gid inventory) : segments overlay.root = names := by
  rw [mounted.root, segments_dirOf mounted.steps]

theorem Mounted.root_ne (mounted : overlay.Mounted names uid gid inventory) : overlay.root ≠ "/" := by
  rw [mounted.root, ← ofList_dirOf_nil]
  intro same
  exact mounted.below (dirOf_inj mounted.steps areSteps_nil (String.ofList_injective same))

/-- Rules far from a snapshot do not matter to it. -/
theorem Tagged.congr (tagged : overlay.Tagged map names uid gid inventory)
    (same : ∀ other, Terrain.Comparable names other → map other = map' other) :
    overlay.Tagged map' names uid gid inventory := by
  obtain ⟨mounted, tree, upper, right⟩ := tagged
  refine ⟨mounted, tree, upper, right.congr (fun file _ => RuleMap.ruleOf_congr _ fun above held => same above ?_) id⟩
  exact (List.prefix_or_prefix_of_prefix held (List.prefix_append names file.dirs))

theorem Tagged.shows (tagged : overlay.Tagged map names uid gid inventory) :
    overlay.view.Shows map.ruleOf names uid gid inventory := by
  obtain ⟨mounted, tree, upper, right⟩ := tagged
  refine ⟨mounted.mountable.proper, mounted.isTop, ?_⟩
  rw [Overlay.view, upper]
  exact right

/-- Tagged trees of one snapshot for the same rules cannot be told apart. -/
theorem Tagged.twin (tagged : overlay.Tagged map names uid gid inventory)
    (also : other.Tagged map names uid gid inventory)
    (same : overlay.top = other.top) : overlay.Twin map.ruleOf names other :=
  ⟨by rw [tagged.root, also.root], same, uid, gid, inventory, tagged.shows, also.shows⟩

end Overlay

namespace Atlas

/-- Snapshots are mounted at their roots, and all tagged trees and the answers for files are up to date. -/
structure Sound (atlas : Atlas) : Prop where
  regular : atlas.rules.Regular
  answers : atlas.dispatch.Answers atlas.rules.rulesAt
  neat : atlas.sites.Neat
  tagged : ∀ names overlay, atlas.sites.at? names = some overlay →
    ∃ uid gid inventory, overlay.Tagged atlas.rules.rulesAt names uid gid inventory

section

variable {atlas : Atlas}

theorem settled_eq {α : Type} (result : Except Error α) : settled result atlas =
    match result with
    | .ok a => .ok a atlas
    | .error e => .error e atlas := rfl

/-- A snapshot that is admitted gets a tagged tree that is right for the rules. -/
theorem addTree_spec {names : List String} {uid gid : Nat} {inventory : Inventory} {overlay : Overlay}
    (regular : atlas.rules.Regular) (mounted : overlay.Mounted names uid gid inventory)
    (admitted : atlas.sites.admits names)
    (source : String) : ∃ result tagged, tagged.Tagged atlas.rules.rulesAt names uid gid inventory ∧
    tagged.top = overlay.top ∧
      addTree overlay.lower source atlas = .ok result { atlas with sites := atlas.sites.place tagged names } := by
  obtain ⟨dispatch, tree, report, compiled, built, right⟩ := full_build regular.sound regular.starless regular.idsFit
    mounted.steps mounted.starless mounted.isTop mounted.mountable
  rw [← mounted.root] at compiled built
  refine ⟨⟨overlay.root, atlas.sites.holds names, report⟩, { overlay with upper := some tree }, ?_, rfl, ?_⟩
  · exact ⟨{ mounted with }, tree, rfl, right⟩
  · simp only [addTree, bind_eq, settled_eq, mounted.opens source, mounted.segments, if_neg mounted.root_ne,
      get_eq, admitted,
      compiled, Bool.not_true, Bool.false_eq_true, if_false, built, set_eq, pure_eq]

/-- What a change leaves, whether it succeeds or fails. -/
def after {α : Type} (change : Change α) (atlas : Atlas) : Atlas :=
  match change atlas with
  | .ok _ next => next
  | .error _ next => next

theorem Sound.place (sound : atlas.Sound) {names : List String} {uid gid : Nat} {inventory : Inventory}
    {overlay : Overlay}
    (tagged : overlay.Tagged atlas.rules.rulesAt names uid gid inventory) (admitted : atlas.sites.admits names) :
    Sound { atlas with sites := atlas.sites.place overlay names } where
  regular := sound.regular
  answers := sound.answers
  neat := sound.neat.place overlay names
  tagged others other found := by
    simp only [Sites.at?_place sound.neat admitted] at found
    split at found
    · rename_i same
      obtain rfl := Option.some.inj found
      exact ⟨uid, gid, inventory, same ▸ tagged⟩
    · exact sound.tagged others other found

theorem Sound.after_addTree (sound : atlas.Sound) {names : List String} {uid gid : Nat} {inventory : Inventory}
    {overlay : Overlay}
    (mounted : overlay.Mounted names uid gid inventory) (source : String) :
    (after (addTree overlay.lower source) atlas).Sound := by
  by_cases admitted : atlas.sites.admits names
  · obtain ⟨result, tagged, isTagged, _, ran⟩ := addTree_spec sound.regular mounted admitted source
    rw [after, ran]
    exact sound.place isTagged admitted
  · have failed : addTree overlay.lower source atlas = .error (.nestedMount overlay.root) atlas := by
      simp only [Atlas.addTree, bind_eq, settled_eq, mounted.opens source, mounted.segments, if_neg mounted.root_ne,
        get_eq,
        admitted, Bool.not_false, if_true, throw_eq]
    rw [after, failed]
    exact sound

/-- A snapshot of the root cannot be mounted. -/
theorem addTree_root {lower : StoredTree} {overlay : Overlay} {source : String}
    (opens : Overlay.ofTree lower source = .ok overlay)
    (root : overlay.root = "/") : addTree lower source atlas = .error (.invalidRoot overlay.root) atlas := by
  simp only [addTree, bind_eq, settled_eq, opens, if_pos root, throw_eq]

theorem addTreeFile_eq {disk rest : Disk} {path : String} {bytes : Bytes} {lower : StoredTree}
    (read : Disk.Call.readFile path disk = .ok bytes rest) (opened : StoredTree.ofBytes bytes = .ok lower) :
    addTreeFile disk path atlas = addTree lower path atlas := by
  rw [Atlas.addTreeFile, read]
  simp only [bind_eq, settled_eq, opened]

/-- Mounting a file keeps an atlas sound when what it holds was written as a snapshot. -/
theorem Sound.after_addTreeFile (sound : atlas.Sound) (disk : Disk) (path : String)
    (taken : ∀ bytes rest, Disk.Call.readFile path disk = .ok bytes rest →
      ∃ census : Census, census.Reached ∧ census.Fits ∧ '*' ∉ census.root.toList ∧ bytes = census.toBytes) :
    (after (addTreeFile disk path) atlas).Sound := by
  cases read : Disk.Call.readFile path disk with
  | error fault rest =>
    have failed : ∃ error, addTreeFile disk path atlas = .error error atlas := by
      rw [Atlas.addTreeFile, read]
      cases fault <;> exact ⟨_, rfl⟩
    obtain ⟨error, failed⟩ := failed
    rw [after, failed]
    exact sound
  | ok bytes rest =>
    obtain ⟨census, recorded, fits, plain, rfl⟩ := taken bytes rest read
    obtain ⟨lower, top, opened, mounts, isTop⟩ := fits.opens recorded.sound
    have ran : addTreeFile disk path atlas = addTree lower path atlas := addTreeFile_eq read opened
    have left : after (addTreeFile disk path) atlas = after (addTree lower path) atlas := by rw [after, after, ran]
    rw [left]
    obtain ⟨names, areSteps, rootEq⟩ := exists_dirOf_of_isAbsoluteDir recorded.sound.absolute
    by_cases root : names = []
    · rw [root, ofList_dirOf_nil] at rootEq
      rw [after, addTree_root (mounts path) rootEq]
      exact sound
    · let overlay : Overlay := ⟨census.root, lower, top, none⟩
      have mounted : overlay.Mounted names census.tree.label.uid census.tree.label.gid census.inventory := by
        refine ⟨rootEq, areSteps, root, ?_, mounts, isTop, fits.mountable recorded.sound⟩
        rwa [rootEq, String.toList_ofList] at plain
      exact sound.after_addTree mounted path

end

end Atlas
end BackupAtlas
