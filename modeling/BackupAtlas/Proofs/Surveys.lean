import Mathlib.Data.List.Find
import BackupAtlas.Proofs.DirTrees
import BackupAtlas.Proofs.Governing
import BackupAtlas.Proofs.RuleSets
import BackupAtlas.Terrain

namespace BackupAtlas

open TreePath

def Claim.ruleList (claim : Claim) : List (List Char × Nat) :=
  claim.rules.entries.map fun (pattern, rule) => (pattern.toList, rule.id)

namespace RuleSet

def claimAt (set : RuleSet) (names : List String) : Option Claim :=
  (set.claims.entries.find? fun (path, _) => decide (segments path = names)).map (·.2)

def rulesAt (set : RuleSet) : RuleMap := fun names =>
  match set.claimAt names with
  | some claim => claim.ruleList
  | none => []

/-- No claimed path has a star. -/
def Starless (set : RuleSet) : Prop := ∀ path claim, set.get? path = some claim → '*' ∉ path.toList

variable {set : RuleSet}

theorem starless_of_names (plain : ∀ path ∈ set.claims.names, '*' ∉ path.toList) : set.Starless := by
  intro path claim claimed
  exact plain path (List.mem_map.mpr ⟨_, Catalog.get?_eq_some.mp claimed, rfl⟩)

/-- Records of directories without stars make a set that can be relied on if they make one at all. -/
theorem exists_ofRecords {α : Type} {directories : List Directory} {rules : List Rule} {names : List String}
    {view : RuleSet → α} {seen : α}
    (known : (ofRecords directories rules).toOption.map (fun set => (set.claims.names, view set)) = some (names, seen))
    (plain : ∀ path ∈ names, '*' ∉ path.toList) :
    ∃ set, ofRecords directories rules = .ok set ∧ set.Reached ∧ set.Starless ∧ view set = seen := by
  obtain ⟨set, loaded, found⟩ := exists_ok_of_map known
  obtain ⟨rfl, value⟩ := Prod.mk.inj found
  exact ⟨set, loaded, ofRecords_reached loaded, starless_of_names plain, value⟩

theorem Sound.exists_names (sound : set.Sound) {path : String} {claim : Claim} (claimed : set.get? path = some claim) :
    ∃ names, AreSteps names ∧ path = String.ofList (dirOf names) :=
  exists_dirOf_of_isAbsoluteDir (sound path claim claimed).absolute

theorem Sound.segments_eq_iff (sound : set.Sound) {path : String} {claim : Claim} (claimed : set.get? path = some claim)
    {names : List String} : segments path = names ↔ AreSteps names ∧ path = String.ofList (dirOf names) := by
  obtain ⟨steps, areSteps, rfl⟩ := sound.exists_names claimed
  rw [segments_dirOf areSteps]
  constructor
  · rintro rfl
    exact ⟨areSteps, rfl⟩
  · rintro ⟨also, same⟩
    exact dirOf_inj areSteps also (String.ofList_injective same)

/-- A claim stands where its path leads, and nowhere else. -/
theorem Sound.claimAt_eq_some (sound : set.Sound) {names : List String} {claim : Claim} :
    set.claimAt names = some claim ↔ AreSteps names ∧ set.get? (String.ofList (dirOf names)) = some claim := by
  have member : ∀ {path : String} {claim : Claim}, (path, claim) ∈ set.claims.entries → set.get? path = some claim :=
    Catalog.get?_eq_some.mpr
  rw [claimAt, Option.map_eq_some_iff]
  constructor
  · rintro ⟨⟨path, found⟩, here, rfl⟩
    have listed := member (List.mem_of_find?_eq_some here)
    obtain ⟨areSteps, rfl⟩ := (sound.segments_eq_iff listed).mp (by simpa using List.find?_some here)
    exact ⟨areSteps, listed⟩
  · rintro ⟨areSteps, claimed⟩
    cases found : set.claims.entries.find? fun (path, _) => decide (segments path = names) with
    | none =>
      have other := List.find?_eq_none.mp found _ (Catalog.get?_eq_some.mp claimed)
      simp [segments_dirOf areSteps] at other
    | some entry =>
      obtain ⟨path, also⟩ := entry
      have listed := member (List.mem_of_find?_eq_some found)
      obtain ⟨_, rfl⟩ := (sound.segments_eq_iff listed).mp (by simpa using List.find?_some found)
      exact ⟨_, rfl, Option.some.inj (listed.symm.trans claimed)⟩

theorem mem_rulesAt {names : List String} {pattern : List Char} {id : Nat} :
    (pattern, id) ∈ set.rulesAt names ↔ ∃ claim rule, set.claimAt names = some claim ∧
      claim.rules.get? (String.ofList pattern) = some rule ∧ rule.id = id := by
  rw [rulesAt]
  cases found : set.claimAt names with
  | none => simp
  | some claim =>
    simp only [Claim.ruleList, List.mem_map, Prod.mk.injEq, Prod.exists]
    constructor
    · rintro ⟨text, rule, listed, rfl, rfl⟩
      exact ⟨claim, rule, rfl, by rwa [String.ofList_toList, Catalog.get?_eq_some], rfl⟩
    · rintro ⟨_, rule, same, listed, rfl⟩
      obtain rfl := Option.some.inj same
      exact ⟨_, rule, Catalog.get?_eq_some.mp listed, String.toList_ofList, rfl⟩

theorem claimAt_of_rulesAt {names : List String} (some : set.rulesAt names ≠ []) :
    ∃ claim, set.claimAt names = Option.some claim := by
  rw [rulesAt] at some
  cases found : set.claimAt names with
  | none => simp [found] at some
  | some claim => exact ⟨claim, rfl⟩

/-- Claims whose paths are those of directories stand for directories that differ. -/
theorem Sound.segments_apart (sound : set.Sound) (names : List String) :
    set.claims.entries.Pairwise fun a b =>
      ¬ (decide (segments a.1 = names) ∧ decide (segments b.1 = names)) := by
  refine List.Pairwise.imp_of_mem ?_ set.claims.ascending
  rintro ⟨path, claim⟩ ⟨other, also⟩ first second less ⟨here, there⟩
  obtain ⟨_, same⟩ := (sound.segments_eq_iff (Catalog.get?_eq_some.mpr first)).mp (of_decide_eq_true here)
  obtain ⟨_, equal⟩ := (sound.segments_eq_iff (Catalog.get?_eq_some.mpr second)).mp (of_decide_eq_true there)
  exact String.lt_irrefl _ (same.trans equal.symm ▸ less)

/-- The rules of a set are as a search for the governing rule needs them. -/
theorem Sound.proper (sound : set.Sound) (starless : set.Starless) : set.rulesAt.Proper where
  distinct names := by
    rw [rulesAt]
    cases found : set.claimAt names with
    | none => exact List.nodup_nil
    | some claim =>
      simp only [Claim.ruleList, List.map_map]
      refine List.pairwise_map.mpr (claim.rules.ascending.imp ?_)
      intro a b less same
      exact String.lt_irrefl _ (String.toList_inj.mp same ▸ less)
  plain names entry member slash := by
    obtain ⟨claim, rule, claimed, listed, _⟩ := mem_rulesAt.mp member
    have allowed := (sound _ _ (sound.claimAt_eq_some.mp claimed).2).allowed _ _ listed
    unfold Pattern.objection? at allowed
    rw [String.toList_ofList, if_pos slash] at allowed
    split at allowed <;> simp at allowed
  steps names some := by
    obtain ⟨claim, claimed⟩ := claimAt_of_rulesAt some
    exact (sound.claimAt_eq_some.mp claimed).1
  starless names some := by
    obtain ⟨claim, claimed⟩ := claimAt_of_rulesAt some
    simpa using starless _ _ (sound.claimAt_eq_some.mp claimed).2

end RuleSet

namespace DirTree

variable {α β : Type} {blank : α} {change : β → Bool → α → α} {path : β → List String} {items : List β}
  {tree : DirTree α}

theorem foldl_along_ascending (ascending : tree.below.Ascending) :
    (items.foldl (fun tree item => tree.along (fun _ => blank) (change item) (path item)) tree).below.Ascending := by
  induction items generalizing tree with
  | nil => exact ascending
  | cons item items ih => exact ih (along_ascending ascending)

theorem labelAt_foldl_along (ascending : tree.below.Ascending) (names : List String) :
    labelAt blank names (items.foldl (fun tree item => tree.along (fun _ => blank) (change item) (path item)) tree) =
      items.foldl (fun label item =>
        if names <+: path item then change item (decide (names = path item)) label else label)
        (labelAt blank names tree) := by
  induction items generalizing tree with
  | nil => rfl
  | cons item items ih =>
    rw [List.foldl_cons, List.foldl_cons, ih (along_ascending ascending), labelAt_along ascending]

theorem sub?_foldl_along_isSome (ascending : tree.below.Ascending) (names : List String) :
    ((items.foldl (fun tree item => tree.along (fun _ => blank) (change item) (path item)) tree).sub? names).isSome ↔
      (∃ item ∈ items, names <+: path item) ∨ (tree.sub? names).isSome := by
  induction items generalizing tree with
  | nil => simp
  | cons item items ih =>
    rw [List.foldl_cons, ih (along_ascending ascending), sub?_along_isSome ascending]
    simp only [List.mem_cons, exists_eq_or_imp]
    rw [or_left_comm, or_assoc]

end DirTree

/-- Of changes that never apply together at most one counts. -/
theorem foldl_ite_eq_find? {α β : Type} {applies : β → Bool} {change : α → β → α} {items : List β} (start : α)
    (apart : items.Pairwise fun a b => ¬ (applies a ∧ applies b)) :
    items.foldl (fun label item => if applies item then change label item else label) start =
      match items.find? applies with
      | some item => change start item
      | none => start := by
  induction items generalizing start with
  | nil => rfl
  | cons item items ih =>
    obtain ⟨first, tail⟩ := List.pairwise_cons.mp apart
    rw [List.foldl_cons, ih _ tail, List.find?_cons]
    cases here : applies item with
    | false => simp
    | true =>
      have nothing : items.find? applies = none := by
        rw [List.find?_eq_none]
        exact fun other member also => first other member ⟨here, also⟩
      simp [nothing]

namespace Terrain

variable {set : RuleSet} {scope : String}

def wayTo (scope : String) (changed : Option (List String)) : DirTree Ground :=
  DirTree.along (fun _ => {}) (fun _ ground => { ground with leadsToScope := true }) (segments scope)
    { label := { changed := changed.isNone } }

def withClaims (set : RuleSet) (scope : String) (changed : Option (List String)) : DirTree Ground :=
  (set.claims.entries.filter fun entry => isRelevant scope entry.1).foldl (fun tree entry =>
    tree.along (fun _ => {}) (fun last ground =>
      if last then { ground with rules := entry.2.ruleList, changed := ground.changed || changed.isNone } else ground)
      (segments entry.1)) (wayTo scope changed)

theorem survey_eq (set : RuleSet) (scope : String) (changed : Option (List String)) : survey set scope changed =
    ((changed.getD []).filter (isRelevant scope)).foldl (fun tree path =>
      tree.along (fun _ => {}) (fun last ground => if last then { ground with changed := true } else ground)
        (segments path)) (withClaims set scope changed) := rfl

theorem wayTo_ascending (scope : String) (changed : Option (List String)) : (wayTo scope changed).below.Ascending :=
  DirTree.along_ascending trivial

theorem withClaims_ascending (set : RuleSet) (scope : String) (changed : Option (List String)) :
    (withClaims set scope changed).below.Ascending :=
  DirTree.foldl_along_ascending (wayTo_ascending scope changed)

theorem survey_ascending (set : RuleSet) (scope : String) (changed : Option (List String)) :
    (survey set scope changed).below.Ascending :=
  DirTree.foldl_along_ascending (withClaims_ascending set scope changed)

theorem labelAt_wayTo (scope : String) (changed : Option (List String)) (names : List String) :
    (wayTo scope changed).labelAt {} names =
      { changed := decide (names = []) && changed.isNone, leadsToScope := decide (names <+: segments scope) } := by
  have start : DirTree.labelAt {} names ({ label := { changed := changed.isNone } } : DirTree Ground) =
      { changed := decide (names = []) && changed.isNone } := by
    cases names <;> simp [DirTree.labelAt, DirTree.sub?, Forest.find?]
  have ascending : ({ label := { changed := changed.isNone } } : DirTree Ground).below.Ascending := trivial
  rw [wayTo, DirTree.labelAt_along ascending, start]
  split
  · rename_i leads
    simp [leads]
  · rename_i leads
    simp [leads]

theorem sub?_wayTo_isSome (scope : String) (changed : Option (List String)) (names : List String) :
    ((wayTo scope changed).sub? names).isSome ↔ names <+: segments scope := by
  have ascending : ({ label := { changed := changed.isNone } } : DirTree Ground).below.Ascending := trivial
  rw [wayTo, DirTree.sub?_along_isSome ascending]
  cases names <;> simp [DirTree.sub?, Forest.find?]

theorem find?_relevant (scope : String) (sound : set.Sound) (names : List String) :
    ((set.claims.entries.filter fun entry => isRelevant scope entry.1).find? fun entry =>
      decide (segments entry.1 = names)).map (·.2) =
      if isRelevant scope (String.ofList (dirOf names)) then set.claimAt names else none := by
  rw [List.find?_filter, RuleSet.claimAt]
  split
  · rename_i relevant
    congr 1
    refine List.find?_congr fun entry member => ?_
    by_cases here : segments entry.1 = names
    · obtain ⟨_, same⟩ := (sound.segments_eq_iff (Catalog.get?_eq_some.mpr member)).mp here
      simp [same, relevant]
    · simp [here]
  · rename_i irrelevant
    rw [Option.map_eq_none_iff, List.find?_eq_none]
    intro entry member both
    simp only [decide_eq_true_eq] at both
    obtain ⟨_, same⟩ := (sound.segments_eq_iff (Catalog.get?_eq_some.mpr member)).mp both.2
    exact irrelevant (same ▸ both.1)

/-- The claim of a directory, if it has to do with the scope. -/
def claimIn (set : RuleSet) (scope : String) (names : List String) : Option Claim :=
  if isRelevant scope (String.ofList (dirOf names)) then set.claimAt names else none

theorem labelAt_withClaims (sound : set.Sound) (changed : Option (List String)) (names : List String) :
    (withClaims set scope changed).labelAt {} names =
      { rules := match claimIn set scope names with | some claim => claim.ruleList | none => []
        changed := changed.isNone && (decide (names = []) || (claimIn set scope names).isSome)
        leadsToScope := decide (names <+: segments scope) } := by
  have steps : ∀ (ground : Ground) (entry : String × Claim),
      (if names <+: segments entry.1 then
        (if decide (names = segments entry.1) = true then
          { ground with rules := entry.2.ruleList, changed := ground.changed || changed.isNone } else ground)
        else ground) =
      if decide (segments entry.1 = names) = true then
        { ground with rules := entry.2.ruleList, changed := ground.changed || changed.isNone } else ground := by
    intro ground entry
    by_cases here : segments entry.1 = names
    · simp [here]
    · simp [here, Ne.symm here]
  rw [withClaims, DirTree.labelAt_foldl_along (wayTo_ascending scope changed)]
  simp only [steps]
  rw [foldl_ite_eq_find?, labelAt_wayTo]
  · have found := find?_relevant scope sound names
    rw [← claimIn] at found
    cases here : (set.claims.entries.filter fun entry => isRelevant scope entry.1).find? fun entry =>
      decide (segments entry.1 = names) with
    | none =>
      rw [here, Option.map_none] at found
      simp [← found, Bool.and_comm]
    | some entry =>
      rw [here, Option.map_some] at found
      simp [← found]
  · exact (sound.segments_apart names).filter _

/-- Which directories a survey has. -/
theorem sub?_survey_isSome (set : RuleSet) (scope : String) (changed : Option (List String)) (names : List String) :
    ((survey set scope changed).sub? names).isSome ↔
      (∃ path ∈ (changed.getD []).filter (isRelevant scope), names <+: segments path) ∨
      (∃ entry ∈ set.claims.entries.filter fun entry => isRelevant scope entry.1, names <+: segments entry.1) ∨
      names <+: segments scope := by
  rw [survey_eq, DirTree.sub?_foldl_along_isSome (withClaims_ascending _ _ _), withClaims,
    DirTree.sub?_foldl_along_isSome (wayTo_ascending _ _), sub?_wayTo_isSome]

/-- What a survey says of a directory, from the rule set alone. -/
theorem labelAt_survey (sound : set.Sound) (changed : Option (List String)) (names : List String) :
    (survey set scope changed).labelAt {} names =
      { rules := match claimIn set scope names with | some claim => claim.ruleList | none => []
        changed := (changed.isNone && (decide (names = []) || (claimIn set scope names).isSome)) ||
          ((changed.getD []).filter (isRelevant scope)).any fun path => decide (segments path = names)
        leadsToScope := decide (names <+: segments scope) } := by
  have marked : ∀ (paths : List String) (ground : Ground),
      paths.foldl (fun ground path => if names <+: segments path then
          (if decide (names = segments path) = true then { ground with changed := true } else ground)
        else ground) ground =
      { ground with changed := ground.changed || paths.any fun path => decide (segments path = names) } := by
    intro paths
    induction paths with
    | nil => simp
    | cons path paths ih =>
      intro ground
      rw [List.foldl_cons, ih]
      by_cases here : segments path = names
      · simp [here]
      · simp [here, Ne.symm here]
  rw [survey_eq, DirTree.labelAt_foldl_along (withClaims_ascending set scope changed), marked,
    labelAt_withClaims sound]

end Terrain
end BackupAtlas
