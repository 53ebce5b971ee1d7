import BackupAtlas.Proofs.PathQueries

namespace BackupAtlas

open TreePath

namespace TreePath

theorem toList_of_absolute {path : String} (absolute : path.toList.head? = some '/') :
    path.toList = dirOf (segments path) := by
  obtain ⟨rest, slash⟩ := List.head?_eq_some_iff.mp absolute
  rw [dirOf, flatten_segments, slash, relative]

theorem segments_dirOf_behind {names : List String} (areSteps : AreSteps names) (rest : List Char) :
    segments (String.ofList (dirOf names ++ rest)) = names ++ (pieces rest).map String.ofList := by
  rw [segments, String.toList_ofList, dirOf, List.cons_append, relative, pieces_flatten_append areSteps.toList]
  simp [Function.comp_def]

theorem isWithin_iff {path dir : String} : isWithin path dir ↔ dir.toList <+: path.toList := List.isPrefixOf_iff_prefix

theorem isWithin_append (dir rest : String) : isWithin (dir ++ rest) dir := by
  rw [isWithin_iff, String.toList_append]
  exact List.prefix_append _ _

theorem exists_append_of_isWithin {path dir : String} (within : isWithin path dir) : ∃ rest, path = dir ++ rest := by
  obtain ⟨rest, same⟩ := isWithin_iff.mp within
  exact ⟨String.ofList rest, by rw [← String.toList_inj, String.toList_append, String.toList_ofList, same]⟩

end TreePath

namespace Sites

/-- Segments lead to a directory above the snapshots if there are none, or more of them lead to a snapshot. -/
theorem locate_above_iff {sites : Sites} {names : List String} (neat : sites.Neat) :
    (∃ below, sites.locate names = some (.above below)) ↔
      names = [] ∨ ∃ more overlay, more ≠ [] ∧ sites.at? (names ++ more) = some overlay := by
  constructor
  · rintro ⟨below, located⟩
    by_cases nothing : names = []
    · exact Or.inl nothing
    · obtain ⟨someBelow, neatBelow⟩ := (locate_above located []).1 nothing neat
      obtain ⟨more, overlay, found⟩ := neatBelow.exists_at? someBelow
      refine Or.inr ⟨more, overlay, ?_, (locate_above located more).2 ▸ found⟩
      rintro rfl
      exact absurd found (by simp [at?])
  · rintro (rfl | ⟨more, overlay, someMore, found⟩)
    · exact ⟨sites, rfl⟩
    · clear neat
      induction names generalizing sites with
      | nil => exact ⟨sites, rfl⟩
      | cons name names ih =>
        rw [List.cons_append, at?_cons] at found
        rw [locate]
        cases known : sites.find? name with
        | none => simp [known] at found
        | some site =>
          rw [known, Option.bind_some] at found
          cases site with
          | dir below => exact ih found
          | mount mounted => simp [Site.at?, someMore] at found

end Sites

/-- What a path is routed to: a directory above the mounted snapshots, or a snapshot, with what is left of the path
there. -/
inductive Route where
  | above (below : Sites)
  | inside (overlay : Overlay) (relative : String)

namespace Atlas

variable {atlas : Atlas} {path : String} {overlay : Overlay}

/-- Follows the segments of a path and cuts it behind the root of the snapshot it leads into. -/
def route (atlas : Atlas) (path : String) : Query (Option Route) :=
  match atlas.sites.locate (segments path) with
  | none => .ok none
  | some (.above below) => .ok (some (.above below))
  | some (.inside overlay) =>
    match behindBytes overlay.root.utf8ByteSize path.toList with
    | none => .error .outOfRange
    | some relative => .ok (some (.inside overlay (String.ofList relative)))

/-- What a route ends at: what is left of the path is looked up in the snapshot. -/
def endOf : Option Route → Query Target
  | none => .ok .absent
  | some (.above below) => .ok (.above below)
  | some (.inside overlay relative) => do
    match ← overlay.lookup relative with
    | some item => pure (.item item)
    | none => pure .absent

/-- Queries go to the end of the route of a path. -/
theorem target_eq_route (atlas : Atlas) (path : String) : atlas.target path = (atlas.route path).bind endOf := by
  rw [target, route]
  cases atlas.sites.locate (segments path) with
  | none => rfl
  | some place =>
    cases place with
    | above below => rfl
    | inside overlay =>
      dsimp only
      cases behindBytes overlay.root.utf8ByteSize path.toList with
      | none => rfl
      | some relative => rfl

theorem nodup_of_ascending {overlays : List Overlay}
    (ascending : overlays.Pairwise fun overlay other => overlay.root < other.root) : overlays.Nodup :=
  ascending.imp fun {overlay other} less (same : overlay = other) => String.lt_irrefl other.root (same ▸ less)

/-- The root of everything, or a directory with the root of a mounted snapshot below it. -/
def IsAbove (atlas : Atlas) (path : String) : Prop :=
  path = "/" ∨ isDir path ∧ ∃ root ∈ atlas.mounts, isWithin root path ∧ path ≠ root

/-- The mounted snapshots with roots at or below `path`. -/
def mountedBelow (atlas : Atlas) (path : String) : List Overlay :=
  atlas.sites.overlays.filter fun overlay => isWithin overlay.root path

section

variable (seated : atlas.Seated)

include seated

/-- Under the names that lead to a directory are the snapshots with roots that start with its path. -/
theorem Seated.at?_below {names : List String} (areSteps : AreSteps names) :
    (∃ more, atlas.sites.at? (names ++ more) = some overlay) ↔
      overlay ∈ atlas.sites.overlays ∧ dirOf names <+: overlay.root.toList := by
  rw [Sites.mem_overlays seated.neat]
  constructor
  · rintro ⟨more, found⟩
    refine ⟨⟨_, found⟩, ?_⟩
    rw [(seated.each _ _ found).root, String.toList_ofList, dirOf_append]
    exact List.prefix_append _ _
  · rintro ⟨⟨others, found⟩, held⟩
    have seat := seated.each _ _ found
    rw [seat.root, String.toList_ofList, ← List.append_nil (dirOf others),
      dirOf_prefix_iff areSteps seat.steps List.not_mem_nil] at held
    obtain ⟨more, rfl⟩ := held
    exact ⟨more, found⟩

theorem Seated.root_absolute (member : overlay ∈ atlas.sites.overlays) : overlay.root.toList.head? = some '/' := by
  obtain ⟨names, found⟩ := (Sites.mem_overlays seated.neat).mp member
  rw [(seated.each _ _ found).root, String.toList_ofList, dirOf]
  rfl

/-- A path starts with the root of one snapshot at most. -/
theorem Seated.only (member : overlay ∈ atlas.sites.overlays) (within : isWithin path overlay.root) :
    atlas.sites.overlays.filter (fun other => isWithin path other.root) = [overlay] := by
  have distinct := nodup_of_ascending (Sites.Every.ascending [] seated)
  refine List.perm_singleton.mp ((List.perm_ext_iff_of_nodup (distinct.filter _) (List.nodup_singleton _)).mpr ?_)
  intro other
  rw [List.mem_filter, List.mem_singleton, isWithin_iff]
  constructor
  · rintro ⟨also, held⟩
    rw [isWithin_iff] at within
    have sameRoot : other.root = overlay.root := by
      by_contra differ
      rcases List.prefix_or_prefix_of_prefix held within with first | second
      · exact seated.not_prefix also member differ first
      · exact seated.not_prefix member also (Ne.symm differ) second
    have first := seated.seated.mpr ⟨also, rfl⟩
    rw [sameRoot, seated.seated.mpr ⟨member, rfl⟩] at first
    exact (Option.some.inj first).symm
  · rintro rfl
    exact ⟨member, isWithin_iff.mp within⟩

variable (absolute : path.toList.head? = some '/')

include absolute

theorem Seated.route_inside {front rest : List String} (found : atlas.sites.at? front = some overlay)
    (same : segments path = front ++ rest) :
    atlas.route path = .ok (some (.inside overlay (String.ofList (rest.map String.toList).flatten))) := by
  have cut : behindBytes overlay.root.utf8ByteSize path.toList = some (rest.map String.toList).flatten := by
    have behind := behindBytes_append (dirOf front) (rest.map String.toList).flatten 0
    rwa [Nat.add_zero, ← dirOf_append, ← same, ← toList_of_absolute absolute, ← (seated.each _ _ found).root,
      behindBytes] at behind
  rw [route, Sites.locate_inside.mpr ⟨front, rest, same, found⟩]
  simp only [cut]

/-- A path is routed into the snapshot with the root that it starts with. -/
theorem Seated.route_inside_iff {relative : String} : atlas.route path = .ok (some (.inside overlay relative)) ↔
    overlay ∈ atlas.sites.overlays ∧ path = overlay.root ++ relative := by
  constructor
  · intro routed
    have located : atlas.sites.locate (segments path) = some (.inside overlay) := by
      rw [route] at routed
      split at routed
      · exact absurd routed (by simp)
      · exact absurd routed (by simp)
      · rename_i mounted located
        split at routed
        · exact absurd routed (by simp)
        · rw [located, (Route.inside.inj (Option.some.inj (Except.ok.inj routed))).1]
    obtain ⟨front, rest, same, found⟩ := Sites.locate_inside.mp located
    rw [seated.route_inside absolute found same] at routed
    refine ⟨(Sites.mem_overlays seated.neat).mpr ⟨_, found⟩, ?_⟩
    rw [← (Route.inside.inj (Option.some.inj (Except.ok.inj routed))).2, (seated.each _ _ found).root,
      ← String.ofList_append, ← dirOf_append, ← same, ← toList_of_absolute absolute, String.ofList_toList]
  · rintro ⟨member, whole⟩
    obtain ⟨front, found⟩ := (Sites.mem_overlays seated.neat).mp member
    have seat := seated.each _ _ found
    have same : segments path = front ++ (pieces relative.toList).map String.ofList := by
      rw [← segments_dirOf_behind seat.steps, whole, seat.root, String.ofList_append, String.ofList_toList]
    rw [seated.route_inside absolute found same, List.map_map]
    have identity : String.toList ∘ String.ofList = id := funext fun _ => String.toList_ofList
    rw [identity, List.map_id, flatten_pieces, String.ofList_toList]

omit seated absolute in
theorem route_above {below : Sites} : atlas.route path = .ok (some (.above below)) ↔
    atlas.sites.locate (segments path) = some (.above below) := by
  rw [route]
  split
  · simp [*]
  · simp [*]
  · split <;> simp [*]

omit absolute in
/-- The segments of a directory above the snapshots are steps. -/
theorem Seated.steps_above {below : Sites} (located : atlas.sites.locate (segments path) = some (.above below)) :
    AreSteps (segments path) := by
  rcases (Sites.locate_above_iff seated.neat).mp ⟨below, located⟩ with nothing | ⟨more, overlay, _, found⟩
  · rw [nothing]
    exact areSteps_nil
  · exact (seated.each _ _ found).steps.of_prefix (List.prefix_append _ more)

theorem Seated.route_above_iff : (∃ below, atlas.route path = .ok (some (.above below))) ↔ atlas.IsAbove path := by
  have whole := toList_of_absolute absolute
  simp only [route_above]
  constructor
  · intro leads
    obtain ⟨below, located⟩ := leads
    rcases (Sites.locate_above_iff seated.neat).mp ⟨below, located⟩ with nothing | ⟨more, overlay, someMore, found⟩
    · left
      rw [nothing] at whole
      rw [← String.ofList_toList (s := path), whole, ofList_dirOf_nil]
    · have areSteps := seated.steps_above located
      have isAbsolute := isAbsoluteDir_dirOf areSteps
      rw [← whole, String.ofList_toList, isAbsoluteDir, Bool.and_eq_true] at isAbsolute
      obtain ⟨member, held⟩ := (seated.at?_below areSteps).mp ⟨more, found⟩
      refine Or.inr ⟨isAbsolute.2, overlay.root, mem_mounts.mpr ⟨overlay, member, rfl⟩, ?_, ?_⟩
      · rw [isWithin_iff, whole]
        exact held
      · rintro same
        have all := (seated.each _ _ found).segments
        rw [← same] at all
        exact someMore (List.self_eq_append_right.mp all)
  · rintro (rfl | ⟨ends, root, listed, within, differs⟩)
    · have nothing : segments "/" = [] := by decide +kernel
      exact (Sites.locate_above_iff seated.neat).mpr (Or.inl nothing)
    · obtain ⟨overlay, member, rfl⟩ := mem_mounts.mp listed
      have isAbsolute : isAbsoluteDir path := by rw [isAbsoluteDir, absolute, ends]; rfl
      obtain ⟨names, areSteps, rfl⟩ := exists_dirOf_of_isAbsoluteDir isAbsolute
      rw [isWithin_iff, String.toList_ofList] at within
      obtain ⟨more, found⟩ := (seated.at?_below areSteps).mpr ⟨member, within⟩
      rw [segments_dirOf areSteps]
      refine (Sites.locate_above_iff seated.neat).mpr (Or.inr ⟨more, overlay, ?_, found⟩)
      rintro rfl
      rw [List.append_nil] at found
      exact differs (seated.each _ _ found).root.symm

omit absolute in
/-- Snapshots in order of their roots that are those under the names of a directory. -/
theorem Seated.eq_mountedBelow {names : List String} (areSteps : AreSteps names) {overlays : List Overlay}
    (ascending : overlays.Pairwise fun overlay other => overlay.root < other.root)
    (members : ∀ overlay, overlay ∈ overlays ↔ ∃ more, atlas.sites.at? (names ++ more) = some overlay) :
    overlays = atlas.mountedBelow (String.ofList (dirOf names)) := by
  have listed := (Sites.Every.ascending [] seated).filter fun overlay =>
    isWithin overlay.root (String.ofList (dirOf names))
  have same : ∀ overlay, overlay ∈ overlays ↔ overlay ∈ atlas.mountedBelow (String.ofList (dirOf names)) := by
    intro overlay
    rw [members, mountedBelow, List.mem_filter, isWithin_iff, String.toList_ofList, seated.at?_below areSteps]
  refine List.Perm.eq_of_pairwise (fun a b _ _ less more => ?_) ascending listed
    ((List.perm_ext_iff_of_nodup (nodup_of_ascending ascending) (nodup_of_ascending listed)).mpr same)
  exact absurd (String.lt_trans less more) (String.lt_irrefl _)

/-- A directory above the snapshots leads to those with roots below it, in the same order. -/
theorem Seated.overlays_above {below : Sites} (located : atlas.sites.locate (segments path) = some (.above below)) :
    below.overlays = atlas.mountedBelow path := by
  obtain ⟨neat, each⟩ := seated.located located
  have same := seated.eq_mountedBelow (seated.steps_above located)
    (Sites.Every.ascending (segments path) ⟨neat, each⟩) fun overlay => by
      simp only [Sites.mem_overlays neat, (Sites.locate_above located _).2]
  rwa [← toList_of_absolute absolute, String.ofList_toList] at same

end

/-- How an absolute path is routed, and that queries keep to it. -/
structure Routed (atlas : Atlas) (path : String) : Prop where
  target : atlas.target path = (atlas.route path).bind endOf
  inside : ∀ overlay, (∃ relative, atlas.route path = .ok (some (.inside overlay relative))) ↔
    overlay ∈ atlas.sites.overlays ∧ isWithin path overlay.root
  split : ∀ overlay relative, atlas.route path = .ok (some (.inside overlay relative)) →
    overlay.root ++ relative = path ∧ atlas.sites.overlays.filter (fun other => isWithin path other.root) = [overlay]
  above : (∃ below, atlas.route path = .ok (some (.above below))) ↔ atlas.IsAbove path
  below : ∀ below, atlas.route path = .ok (some (.above below)) → below.overlays = atlas.mountedBelow path
  nowhere : atlas.route path = .ok none ↔
    ¬ atlas.IsAbove path ∧ ∀ overlay ∈ atlas.sites.overlays, ¬ isWithin path overlay.root

theorem Seated.routed (seated : atlas.Seated) (absolute : path.toList.head? = some '/') : atlas.Routed path := by
  have above := seated.route_above_iff absolute
  have inside : ∀ overlay, (∃ relative, atlas.route path = .ok (some (.inside overlay relative))) ↔
      overlay ∈ atlas.sites.overlays ∧ isWithin path overlay.root := by
    intro overlay
    simp only [seated.route_inside_iff absolute]
    constructor
    · rintro ⟨relative, member, rfl⟩
      exact ⟨member, isWithin_append _ _⟩
    · rintro ⟨member, within⟩
      obtain ⟨relative, whole⟩ := exists_append_of_isWithin within
      exact ⟨relative, member, whole⟩
  refine ⟨target_eq_route atlas path, inside, fun overlay relative routed => ?_, above,
    fun below routed => seated.overlays_above absolute (route_above.mp routed), ?_⟩
  · obtain ⟨member, whole⟩ := (seated.route_inside_iff absolute).mp routed
    exact ⟨whole.symm, seated.only member (whole ▸ isWithin_append _ _)⟩
  · constructor
    · intro nothing
      refine ⟨fun isAbove => ?_, fun overlay member within => ?_⟩
      · obtain ⟨below, routed⟩ := above.mpr isAbove
        exact absurd (nothing.symm.trans routed) (by simp)
      · obtain ⟨relative, routed⟩ := (inside overlay).mpr ⟨member, within⟩
        exact absurd (nothing.symm.trans routed) (by simp)
    · rintro ⟨notAbove, notInside⟩
      cases located : atlas.sites.locate (segments path) with
      | none => rw [route, located]
      | some place =>
        cases place with
        | above below => exact absurd (above.mp ⟨below, route_above.mpr located⟩) notAbove
        | inside overlay =>
          obtain ⟨front, rest, same, found⟩ := Sites.locate_inside.mp located
          obtain ⟨member, within⟩ := (inside overlay).mp ⟨_, seated.route_inside absolute found same⟩
          exact absurd within (notInside overlay member)

/-- Whatever has been done to an atlas, a path that starts with a slash is routed by the roots of the mounted snapshots:
into the only one it starts with, to a directory if it is one above some of them, and else nowhere. -/
theorem absolute_paths_routed {rules : RuleSet} {start : Atlas} (loaded : ofRules rules = .ok start) (calls : List Call)
    (absolute : path.toList.head? = some '/') : (start.afterCalls calls).Routed path :=
  ((seated_of_ofRules loaded).afterCalls calls).routed absolute

/-- Paths into a snapshot, above it, and to a directory with a name that starts like that of its root. -/
theorem absolute_paths_routed_by_root : ∃ (start : Atlas) (lower : StoredTree),
    ofRules .empty = .ok start ∧ (start.afterCalls [.addTree lower "tree"]).mounts = ["/a/"] ∧
    (∃ overlay, overlay.root = "/a/" ∧
      (start.afterCalls [.addTree lower "tree"]).route "/a/b//c" = .ok (some (.inside overlay "b//c"))) ∧
    (∃ below, (start.afterCalls [.addTree lower "tree"]).route "/" = .ok (some (.above below))) ∧
    (start.afterCalls [.addTree lower "tree"]).route "/ab/" = .ok none := by
  obtain ⟨census, start, lower, _, _, _, _, begun, _, listed⟩ := exists_single_mount
  have inner : (start.afterCalls [.addTree lower "tree"]).Routed "/a/b//c" := absolute_paths_routed begun _ (by decide)
  have outer : (start.afterCalls [.addTree lower "tree"]).Routed "/" := absolute_paths_routed begun _ (by decide)
  have beside : (start.afterCalls [.addTree lower "tree"]).Routed "/ab/" := absolute_paths_routed begun _ (by decide)
  refine ⟨start, lower, begun, listed, ?_⟩
  generalize start.afterCalls [.addTree lower "tree"] = atlas at listed inner outer beside ⊢
  have roots : ∀ overlay ∈ atlas.sites.overlays, overlay.root = "/a/" := fun overlay member =>
    List.mem_singleton.mp (listed ▸ mem_mounts.mpr ⟨overlay, member, rfl⟩)
  obtain ⟨overlay, member, root⟩ := mem_mounts.mp (listed ▸ List.mem_singleton.mpr rfl : "/a/" ∈ atlas.mounts)
  refine ⟨⟨overlay, root, ?_⟩, outer.above.mpr (Or.inl rfl), beside.nowhere.mpr ⟨?_, ?_⟩⟩
  · obtain ⟨relative, routed⟩ := (inner.inside overlay).mpr ⟨member, by rw [root]; decide +kernel⟩
    obtain ⟨whole, _⟩ := inner.split overlay relative routed
    rw [root, ← String.toList_inj, String.toList_append] at whole
    have split : "/a/b//c".toList = "/a/".toList ++ "b//c".toList := by decide
    have same : relative = "b//c" := String.toList_inj.mp (List.append_cancel_left (whole.trans split))
    rw [routed, same]
  · rintro (same | ⟨_, other, listedOther, within, _⟩)
    · exact absurd same (by decide)
    · obtain rfl := List.mem_singleton.mp (listed ▸ listedOther)
      exact absurd within (by decide +kernel)
  · intro overlay member
    rw [roots overlay member]
    decide +kernel

end Atlas
end BackupAtlas
