import BackupAtlas.Proofs.AtlasRuns
import BackupAtlas.Proofs.Placements

namespace BackupAtlas

open TreePath

/-- Steps are ordered like all paths that start with them. -/
theorem TreePath.IsStep.append_lt {a b : List Char} (stepA : IsStep a) (stepB : IsStep b) (less : a < b)
    (x y : List Char) : a ++ x < b ++ y := by
  obtain ⟨s, plainS, rfl⟩ := stepA
  obtain ⟨t, plainT, rfl⟩ := stepB
  induction s generalizing t with
  | nil =>
    cases t with
    | nil => exact absurd less (List.lt_irrefl _)
    | cons d t =>
      simp only [List.nil_append, List.cons_append, List.cons_lt_cons_iff] at less ⊢
      rcases less with first | ⟨same, _⟩
      · exact Or.inl first
      · exact absurd (same ▸ List.mem_cons_self) plainT
  | cons c s ih =>
    cases t with
    | nil =>
      simp only [List.nil_append, List.cons_append, List.cons_lt_cons_iff] at less ⊢
      rcases less with first | ⟨same, _⟩
      · exact Or.inl first
      · exact absurd (same ▸ List.mem_cons_self) plainS
    | cons d t =>
      simp only [List.cons_append, List.cons_lt_cons_iff, List.mem_cons, not_or] at less plainS plainT ⊢
      exact less.imp_right fun ⟨same, tail⟩ => ⟨same, ih plainS.2 t plainT.2 tail⟩

namespace Sites

section

variable {sites : Sites} {names : List String} {overlay : Overlay}

/-- What is admitted does not nest with what is mounted. -/
theorem eq_of_admits (neat : sites.Neat) {segments : List String} (admitted : sites.admits segments)
    (found : sites.at? names = some overlay) (comparable : names <+: segments ∨ segments <+: names) :
    names = segments := by
  by_contra differs
  have placed : ∀ others, (place overlay segments sites).at? others =
    if others = segments then some overlay else sites.at? others := at?_place neat admitted
  have here := placed segments
  have there := placed names
  rw [if_pos rfl] at here
  rw [if_neg differs, found] at there
  rcases comparable with above | below
  · exact differs <| eq_of_prefix there here above
  · exact differs <| Eq.symm <| eq_of_prefix here there below

theorem holds_eq (names : List String) : sites.holds names = (sites.at? names).isSome := by
  induction names generalizing sites with
  | nil => rfl
  | cons name names ih =>
    rw [Sites.holds, at?]
    cases sites.find? name with
    | none => rfl
    | some site =>
      cases site with
      | dir below => exact ih
      | mount overlay => cases names <;> rfl

/-- A path above mounted snapshots leads to those that are below it. -/
theorem locate_above {below : Sites} (located : sites.locate names = some (.above below)) (more : List String) :
    (names ≠ [] → sites.Neat → below ≠ .nil ∧ below.Neat) ∧ below.at? more = sites.at? (names ++ more) := by
  induction names generalizing sites with
  | nil =>
    obtain rfl := Located.above.inj (Option.some.inj located)
    exact ⟨fun some => absurd rfl some, rfl⟩
  | cons name names ih =>
    rw [locate] at located
    rw [List.cons_append, at?_cons]
    split at located
    · exact absurd located (by simp)
    · rename_i inner known
      obtain ⟨neatly, same⟩ := ih located
      rw [known]
      refine ⟨fun _ neat => ?_, same⟩
      by_cases last : names = []
      · subst last
        obtain rfl := Located.above.inj (Option.some.inj located)
        exact neat.found known
      · exact neatly last (neat.found known).2
    · exact absurd located (by simp)

end

theorem mem_names_of_at? {sites : Sites} {name : String} {names : List String} {overlay : Overlay}
    (found : sites.at? (name :: names) = some overlay) : name ∈ sites.names := by
  by_contra missing
  rw [at?_cons, find?_eq_none.mpr missing] at found
  exact absurd found (by simp)

theorem exists_at?_of_mem {site : Site} (neat : site.Neat) {overlay : Overlay} (member : overlay ∈ site.overlays) :
    ∃ names, site.at? names = some overlay := by
  cases site with
  | dir below => exact neat.2.at?_of_mem_overlays member
  | mount other =>
    obtain rfl := List.mem_singleton.mp member
    exact ⟨[], rfl⟩

/-- Snapshots below the directory to which `front` leads are in ascending order of their roots. -/
theorem Every.ascending {sites : Sites} (front : List String)
    (every : sites.Every fun names overlay => overlay.Seat (front ++ names)) :
    sites.overlays.Pairwise fun overlay other => overlay.root < other.root := by
  induction sites using consInduction generalizing front with
  | nil => exact List.Pairwise.nil
  | cons name site rest ihSite ih =>
    obtain ⟨above, here, neatRest⟩ := neat_cons.mp every.neat
    have first : ∀ {names overlay}, site.at? names = some overlay → overlay.Seat (front ++ name :: names) :=
      fun found => every.each _ _ ((at?_first _).trans found)
    have later : ∀ {names overlay}, rest.at? names = some overlay → overlay.Seat (front ++ names) :=
      fun found => every.each _ _ (every.neat.at?_of_rest found)
    rw [overlays_cons]
    refine List.pairwise_append.mpr ⟨?_, ih front ⟨neatRest, fun _ _ => later⟩, fun overlay member other behind => ?_⟩
    · cases site with
      | mount overlay => exact List.pairwise_singleton _ _
      | dir below =>
        refine ihSite below rfl (front ++ [name]) ⟨here.2, fun names overlay found => ?_⟩
        rw [List.append_assoc, List.singleton_append]
        exact first found
    · obtain ⟨names, found⟩ := exists_at?_of_mem here member
      obtain ⟨others, foundOther⟩ := neatRest.at?_of_mem_overlays behind
      cases others with
      | nil => exact absurd foundOther (by simp [at?])
      | cons key others =>
        have seat := first found
        have seatOther := later foundOther
        have less : name.toList < key.toList := above key (mem_names_of_at? foundOther)
        show overlay.root.toList < other.root.toList
        rw [seat.root, seatOther.root, String.toList_ofList, String.toList_ofList, dirOf_append,
          dirOf_append]
        refine List.append_left_lt ?_
        simp only [List.map_cons, List.flatten_cons]
        exact (seat.steps name (by simp)).append_lt (seatOther.steps key (by simp)) less _ _

end Sites

namespace Atlas

/-- How snapshots are mounted: in ascending order of their roots, none inside another, each under the segments of its
root, and no directory leads to none. -/
structure Layout (atlas : Atlas) : Prop where
  ascending : atlas.mounts.Pairwise (· < ·)
  apart : atlas.mounts.Pairwise fun root other => ¬ root.toList <+: other.toList ∧ ¬ other.toList <+: root.toList
  seated : ∀ names overlay,
    atlas.sites.at? names = some overlay ↔ overlay ∈ atlas.sites.overlays ∧ names = segments overlay.root
  needed : ∀ names below, names ≠ [] → atlas.sites.locate names = some (.above below) →
    ∃ more overlay, below.at? more = some overlay ∧ atlas.sites.at? (names ++ more) = some overlay

/-- A root differs from that of a mounted snapshot, and one of them starts with the other. -/
def Crosses (atlas : Atlas) (root : String) : Prop :=
  ∃ other ∈ atlas.mounts, other ≠ root ∧ (other.toList <+: root.toList ∨ root.toList <+: other.toList)

/-- A snapshot is mounted, in place of one with the same root if there is one. Nothing else has changed. -/
structure Gains (overlay : Overlay) (atlas next : Atlas) : Prop where
  overlays : ∀ other, other ∈ next.sites.overlays ↔
    other = overlay ∨ other ∈ atlas.sites.overlays ∧ other.root ≠ overlay.root
  rules : next.rules = atlas.rules
  dispatch : next.dispatch = atlas.dispatch

end Atlas

namespace Sites

variable {sites : Sites} {names : List String} {overlay other : Overlay}

theorem Every.seated (every : sites.Every fun names overlay => overlay.Seat names) :
    sites.at? names = some overlay ↔ overlay ∈ sites.overlays ∧ names = segments overlay.root := by
  rw [mem_overlays every.neat]
  constructor
  · intro found
    exact ⟨⟨names, found⟩, (every.each _ _ found).segments.symm⟩
  · rintro ⟨⟨others, found⟩, same⟩
    rw [same, (every.each _ _ found).segments, found]

/-- Of two different roots, neither starts with the other. -/
theorem Every.not_prefix (every : sites.Every fun names overlay => overlay.Seat names) (member : overlay ∈ sites.overlays)
    (also : other ∈ sites.overlays) (differ : overlay.root ≠ other.root) : ¬ overlay.root.toList <+: other.root.toList := by
  intro held
  obtain ⟨names, found⟩ := (mem_overlays every.neat).mp member
  obtain ⟨others, foundOther⟩ := (mem_overlays every.neat).mp also
  have seat := every.each _ _ found
  have seatOther := every.each _ _ foundOther
  rw [seat.root, seatOther.root, String.toList_ofList, String.toList_ofList, ← List.append_nil (dirOf others),
    dirOf_prefix_iff seat.steps seatOther.steps List.not_mem_nil] at held
  exact differ (by rw [seat.root, seatOther.root, eq_of_prefix found foundOther held])

end Sites

theorem Atlas.layout {atlas : Atlas} (every : atlas.sites.Every fun names overlay => overlay.Seat names) :
    atlas.Layout where
  ascending := List.pairwise_map.mpr (Sites.Every.ascending [] every)
  apart := by
    refine List.pairwise_map.mpr ((Sites.Every.ascending [] every).imp_of_mem fun {overlay other} member also less => ?_)
    have differ : overlay.root ≠ other.root := fun same => String.lt_irrefl _ (same ▸ less)
    exact ⟨every.not_prefix member also differ, every.not_prefix also member differ.symm⟩
  seated _ _ := every.seated
  needed names below someNames located := by
    obtain ⟨someBelow, neatBelow⟩ := (Sites.locate_above located []).1 someNames every.neat
    obtain ⟨more, overlay, found⟩ := neatBelow.exists_at? someBelow
    exact ⟨more, overlay, found, (Sites.locate_above located more).2 ▸ found⟩

namespace Atlas

variable {atlas next : Atlas}

variable {overlay : Overlay} {names : List String}

/-- Listed are the roots of the mounted snapshots. -/
theorem mem_mounts {root : String} : root ∈ atlas.mounts ↔ ∃ overlay ∈ atlas.sites.overlays, overlay.root = root := by
  simp [mounts]

/-- A snapshot may be mounted exactly if its root crosses none. -/
theorem Seated.admits_iff (seated : atlas.Seated) (seat : overlay.Seat names) (someNames : names ≠ []) :
    atlas.sites.admits names ↔ ¬ atlas.Crosses overlay.root := by
  have starts : ∀ {first second : Overlay} {ones others : List String}, first.Seat ones → second.Seat others →
      (first.root.toList <+: second.root.toList ↔ ones <+: others) := by
    intro first second ones others here there
    rw [here.root, there.root, String.toList_ofList, String.toList_ofList, ← List.append_nil (dirOf others)]
    exact dirOf_prefix_iff here.steps there.steps List.not_mem_nil
  constructor
  · rintro admitted ⟨root, listed, differs, crossing⟩
    obtain ⟨other, member, rfl⟩ := mem_mounts.mp listed
    obtain ⟨others, found⟩ := (Sites.mem_overlays seated.neat).mp member
    have there := seated.each _ _ found
    rw [starts there seat, starts seat there] at crossing
    have same := Sites.eq_of_admits seated.neat admitted found crossing
    exact differs (by rw [there.root, seat.root, same])
  · intro apart
    refine seated.neat.admits someNames fun others other found comparable => ?_
    have there := seated.each _ _ found
    rw [← starts there seat, ← starts seat there] at comparable
    by_contra differs
    refine apart ⟨other.root, mem_mounts.mpr ⟨other, (Sites.mem_overlays seated.neat).mpr ⟨_, found⟩, rfl⟩, ?_,
      comparable⟩
    rw [← there.segments, ← seat.segments] at differs
    exact fun same => differs (congrArg _ same)

theorem Seated.holds_iff (seated : atlas.Seated) (seat : overlay.Seat names) :
    atlas.sites.holds names = decide (overlay.root ∈ atlas.mounts) := by
  rw [Sites.holds_eq, Bool.eq_iff_iff, Option.isSome_iff_exists, decide_eq_true_iff, mem_mounts]
  constructor
  · rintro ⟨other, found⟩
    have there := seated.each _ _ found
    exact ⟨other, (Sites.mem_overlays seated.neat).mpr ⟨_, found⟩, by rw [there.root, seat.root]⟩
  · rintro ⟨other, member, same⟩
    obtain ⟨others, found⟩ := (Sites.mem_overlays seated.neat).mp member
    refine ⟨other, ?_⟩
    rw [← seat.segments, ← same, (seated.each _ _ found).segments, found]

/-- An admitted snapshot is added, and all others stay in their places. -/
theorem Seated.gains (seated : atlas.Seated) (seat : overlay.Seat names) (admitted : atlas.sites.admits names) :
    Gains overlay atlas { atlas with sites := atlas.sites.place overlay names } where
  overlays other := by
    have placed : ∀ others, (Sites.place overlay names atlas.sites).at? others =
      if others = names then some overlay else atlas.sites.at? others := Sites.at?_place seated.neat admitted
    simp only [Sites.mem_overlays (seated.neat.place overlay names), Sites.mem_overlays seated.neat, placed]
    constructor
    · rintro ⟨others, found⟩
      split at found
      · exact Or.inl (Option.some.inj found).symm
      · rename_i differs
        refine Or.inr ⟨⟨others, found⟩, fun same => differs ?_⟩
        rw [← (seated.each _ _ found).segments, same, seat.segments]
    · rintro (rfl | ⟨⟨others, found⟩, differs⟩)
      · exact ⟨names, if_pos rfl⟩
      · refine ⟨others, ?_⟩
        rw [if_neg fun same => ?_, found]
        refine differs ?_
        rw [(seated.each _ _ found).root, same, seat.root]
  rules := rfl
  dispatch := rfl

/-- What comes of adding a snapshot that can be mounted somewhere. -/
structure Admission (atlas : Atlas) (lower : StoredTree) (source : String) (overlay : Overlay) : Prop where
  refused : atlas.Crosses overlay.root → addTree lower source atlas = .error (.nestedMount overlay.root) atlas
  onlyThen : ∀ path next, addTree lower source atlas = .error (.nestedMount path) next → atlas.Crosses overlay.root
  mounted : ¬ atlas.Crosses overlay.root → ∀ dispatch upper report,
    Dispatch.ofPlan (Plan.compile atlas.rules overlay.root none) = .ok dispatch →
    build overlay.top overlay.root dispatch none = .ok (upper, report) →
    ∃ next, addTree lower source atlas = .ok ⟨overlay.root, decide (overlay.root ∈ atlas.mounts), report⟩ next ∧
      overlay.root ∈ next.mounts ∧ Gains { overlay with upper := some upper } atlas next

/-- A snapshot is admitted unless its root lies above or below that of another one. -/
theorem Seated.admission (seated : atlas.Seated) {bytes : Bytes} {lower : StoredTree} {source : String}
    (opened : StoredTree.ofBytes bytes = .ok lower) (mounts : Overlay.ofTree lower source = .ok overlay)
    (below : overlay.root ≠ "/") : atlas.Admission lower source overlay := by
  obtain ⟨_, _, absolute, blaming⟩ := Overlay.ofTree_ok mounts
  obtain ⟨_, _, start, stands⟩ := StoredTree.root_stands opened
  obtain ⟨names, seat⟩ := Overlay.exists_seat absolute
  have someNames : names ≠ [] := by
    rintro rfl
    exact below (seat.root.trans ofList_dirOf_nil)
  have admits := seated.admits_iff seat someNames
  have ran : addTree lower source atlas = _ := addTree_eq mounts below
  rw [seat.segments] at ran
  refine ⟨fun crosses => ?_, fun path next refused => ?_, fun apart dispatch upper report planned built => ?_⟩
  · rw [ran, if_neg fun admitted => admits.mp admitted crosses]
  · by_contra apart
    rw [ran, if_pos (admits.mpr apart)] at refused
    split at refused
    · rename_i e failed
      obtain ⟨pattern, conflict⟩ := Dispatch.ofPlan_error failed
      exact absurd ((EStateM.Result.error.inj refused).1.symm.trans conflict) (by simp)
    · split at refused
      · rename_i e failed
        obtain ⟨context, details, corrupt⟩ := build_decodes (blaming stands.blaming) _ _ _ failed
        exact absurd ((EStateM.Result.error.inj refused).1.symm.trans corrupt) (by simp)
      · exact absurd refused (by simp)
  · have admitted := admits.mpr apart
    rw [if_pos admitted, planned] at ran
    simp only [built, seated.holds_iff seat] at ran
    have gains : Gains { overlay with upper := some upper } atlas _ := seated.gains ⟨seat.steps, seat.root⟩ admitted
    refine ⟨_, ran, mem_mounts.mpr ⟨_, (gains.overlays _).mpr (Or.inl rfl), rfl⟩, gains⟩

theorem seated_of_ofRules {rules : RuleSet} {start : Atlas} (loaded : ofRules rules = .ok start) : start.Seated := by
  rw [Seated, (ofRules_eq loaded).2]
  exact .nil

/-- Whatever is done to an atlas and whether it succeeds or fails, mounted snapshots do not nest and stay under the
segments of their roots. A snapshot is refused for its root exactly if it would nest. -/
theorem mounts_stay_apart {rules : RuleSet} {start : Atlas} (loaded : ofRules rules = .ok start) (calls : List Call) :
    (start.afterCalls calls).Layout ∧ ∀ bytes lower source overlay, StoredTree.ofBytes bytes = .ok lower →
      Overlay.ofTree lower source = .ok overlay → overlay.root ≠ "/" →
      (start.afterCalls calls).Admission lower source overlay := by
  have seated := (seated_of_ofRules loaded).afterCalls calls
  exact ⟨layout seated, fun _ _ _ _ opened mounts below => seated.admission opened mounts below⟩

/-- A snapshot that is mounted alone. -/
theorem mounts_alone {name : String} {names : List String} {uid gid : Nat} {inventory : Inventory} {overlay : Overlay}
    (mounted : overlay.Mounted names uid gid inventory) (alone : atlas.sites = .mount name overlay .nil) :
    atlas.mounts = [String.ofList (dirOf names)] := by
  rw [mounts, alone, ← mounted.root]
  rfl

/-- A snapshot that is mounted in an atlas with given rules. -/
theorem exists_mounted {rules : RuleSet} (regular : rules.Regular) :
    ∃ (census : Census) (start : Atlas) (lower : StoredTree) (overlay : Overlay),
      (census.Reached ∧ census.Fits ∧ census.root = "/a/" ∧ census.files = [("/a/b/c", { size := 3 })]) ∧
      ofRules rules = .ok start ∧ StoredTree.ofBytes census.toBytes = .ok lower ∧
      ((start.afterCalls [.addTree lower "tree"]).Sound ∧ (start.afterCalls [.addTree lower "tree"]).rules = rules ∧
        (start.afterCalls [.addTree lower "tree"]).mounts = ["/a/"] ∧
        (start.afterCalls [.addTree lower "tree"]).sites.at? ["a/"] = some overlay) ∧
      overlay.Tagged rules.rulesAt ["a/"] 1 2 (.dir "b/" 1 2 (.file "c" { size := 3 } .done) .done) := by
  obtain ⟨census, recorded, fits, root, files, whole⟩ := Census.exists_single_whole
  obtain ⟨_, uid, gid, inventory, _⟩ := Inventory.dir.inj whole
  obtain ⟨lower, top, opened, opens, isTop⟩ := fits.opens recorded.sound
  have rootEq : census.root = String.ofList (dirOf ["a/"]) := root.trans (by decide +kernel)
  have mounted : Overlay.Mounted ["a/"] census.tree.label.uid census.tree.label.gid census.inventory
      ⟨census.root, lower, top, none⟩ := by
    refine ⟨rootEq, AreSteps.cons ⟨['a'], by decide, by decide +kernel⟩ areSteps_nil, by simp, ?_, opens, isTop,
      fits.mountable recorded.sound⟩
    decide +kernel
  obtain ⟨start, begun, sound, same, empty⟩ := ofRules_spec regular
  have admitted : start.sites.admits ["a/"] := by
    rw [empty]
    rfl
  obtain ⟨result, tagged, isTagged, _, ran⟩ := addTree_spec sound.regular mounted admitted "tree"
  have left : start.afterCalls [.addTree lower "tree"] = { start with sites := .mount "a/" tagged .nil } := by
    rw [afterCalls, List.foldl_cons, List.foldl_nil, after, Call.run, discard_eq, ran, empty]
    rfl
  have placed := sound.place isTagged admitted
  rw [empty] at placed
  have alone : (start.afterCalls [.addTree lower "tree"]).mounts = ["/a/"] :=
    (mounts_alone isTagged.toMounted (by rw [left])).trans (by decide +kernel)
  rw [same, uid, gid, inventory] at isTagged
  refine ⟨census, start, lower, tagged, ⟨recorded, fits, root, files⟩, begun, opened,
    ⟨left ▸ placed, ?_, alone, ?_⟩, isTagged⟩
  · rw [left]
    exact same
  · rw [left]
    rfl

/-- The same in an atlas without rules. -/
theorem exists_single_mount : ∃ (census : Census) (start : Atlas) (lower : StoredTree), census.Reached ∧ census.Fits ∧
    census.root = "/a/" ∧ census.files = [("/a/b/c", { size := 3 })] ∧ ofRules .empty = .ok start ∧
    StoredTree.ofBytes census.toBytes = .ok lower ∧ (start.afterCalls [.addTree lower "tree"]).mounts = ["/a/"] := by
  obtain ⟨census, start, lower, _, ⟨recorded, fits, root, files⟩, begun, opened, ⟨_, _, listed, _⟩, _⟩ :=
    exists_mounted RuleSet.regular_empty
  exact ⟨census, start, lower, recorded, fits, root, files, begun, opened, listed⟩

/-- A snapshot of a directory below a mounted one. -/
theorem mounts_stay_apart_below : ∃ (start : Atlas) (outer : StoredTree) (bytes : Bytes) (inner : StoredTree)
    (overlay : Overlay), ofRules .empty = .ok start ∧ StoredTree.ofBytes bytes = .ok inner ∧
      Overlay.ofTree inner "inner" = .ok overlay ∧ overlay.root = "/a/b/" ∧
      (start.afterCalls [.addTree outer "tree"]).mounts = ["/a/"] ∧
      addTree inner "inner" (start.afterCalls [.addTree outer "tree"]) =
        .error (.nestedMount "/a/b/") (start.afterCalls [.addTree outer "tree"]) := by
  obtain ⟨_, start, outer, _, _, _, _, begun, _, listed⟩ := exists_single_mount
  have taken : (Census.start "/a/b/" 1 2).toOption.map (fun census => (census.root, decide census.Fits)) =
    some ("/a/b/", true) := by decide +kernel
  obtain ⟨census, begins, found⟩ := exists_ok_of_map taken
  obtain ⟨root, fitting⟩ := Prod.mk.inj found
  have fits : census.Fits := of_decide_eq_true fitting
  obtain ⟨inner, top, opened, opens, _⟩ := fits.opens (Census.Reached.start begins).sound
  have below : census.root ≠ "/" := by
    rw [root]
    decide
  have admission := (mounts_stay_apart begun [.addTree outer "tree"]).2 _ _ _ _ opened (opens "inner") below
  have crosses : (start.afterCalls [.addTree outer "tree"]).Crosses census.root := by
    refine ⟨"/a/", by simp [listed], ?_⟩
    rw [root]
    exact ⟨by decide, Or.inl ⟨"b/".toList, by decide +kernel⟩⟩
  have refused := admission.refused crosses
  rw [root] at refused
  exact ⟨start, outer, _, inner, _, begun, opened, opens "inner", root, listed, refused⟩

end Atlas
end BackupAtlas
