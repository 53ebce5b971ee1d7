import Mathlib.Data.List.Nodup
import BackupAtlas.Plan
import BackupAtlas.Proofs.Surveys

namespace BackupAtlas

open TreePath

namespace Terrain

/-- The rules below a directory are those of all directories there, with the names that lead to them. -/
theorem rulesBelow_eq (path : List Char) (forest : Forest Ground) : rulesBelow path forest =
    forest.listing.flatMap fun entry =>
      entry.2.rules.map fun rule => (path ++ (entry.1.map String.toList).flatten ++ rule.1, rule.2) := by
  induction forest generalizing path with
  | nil => rfl
  | cons name ground below rest ihBelow ihRest =>
    rw [rulesBelow, ihBelow, ihRest, Forest.listing, List.flatMap_cons, List.flatMap_append, List.flatMap_map]
    simp

/-- Whether a directory has to do with a scope. -/
def InScope (scope : String) (names : List String) : Prop := isRelevant scope (String.ofList (dirOf names))

theorem inScope_of_prefix {scope names above : List String} (held : scope <+: names) (leads : above <+: names) :
    InScope (String.ofList (dirOf scope)) above := by
  simp only [InScope, isRelevant, isWithin, String.toList_ofList, Bool.or_eq_true, List.isPrefixOf_iff_prefix]
  rcases List.prefix_or_prefix_of_prefix held leads with ⟨more, rfl⟩ | ⟨more, rfl⟩
  · exact Or.inl (by rw [dirOf_append]; exact List.prefix_append _ _)
  · exact Or.inr (by rw [dirOf_append]; exact List.prefix_append _ _)

theorem inScope_root (names : List String) : InScope "/" names := by
  rw [← ofList_dirOf_nil]
  exact inScope_of_prefix List.nil_prefix (List.prefix_refl names)

/-- A survey has the rules of every directory that matters for the scope. -/
theorem rules_labelAt_survey {set : RuleSet} (sound : set.Sound) (scope : String) (changed : Option (List String))
    (names : List String) : ((survey set scope changed).labelAt {} names).rules =
      if isRelevant scope (String.ofList (dirOf names)) then set.rulesAt names else [] := by
  rw [labelAt_survey sound, claimIn, RuleSet.rulesAt]
  by_cases relevant : isRelevant scope (String.ofList (dirOf names))
  · simp only [if_pos relevant]
  · simp only [if_neg relevant]

end Terrain

namespace Plan

theorem rules_eq (tree : DirTree Terrain.Ground) : (ofTree tree).rules =
    tree.listing.flatMap fun entry => entry.2.rules.map fun rule => (dirOf entry.1 ++ rule.1, rule.2) := by
  rw [ofTree, DirTree.listing, List.flatMap_cons, Terrain.rulesBelow_eq]
  rfl

variable {set : RuleSet}

/-- What is listed of a directory is what it claims, if it has to do with the scope. -/
theorem rules_of_listed (sound : set.Sound) {scope : String} {changed : Option (List String)}
    {entry : List String × Terrain.Ground} (member : entry ∈ (Terrain.survey set scope changed).listing) :
    entry.2.rules = if Terrain.isRelevant scope (String.ofList (dirOf entry.1)) then set.rulesAt entry.1 else [] := by
  obtain ⟨names, ground⟩ := entry
  obtain ⟨below, here⟩ := (DirTree.mem_listing (Terrain.survey_ascending set scope changed)).mp member
  rw [← Terrain.rules_labelAt_survey sound scope changed, DirTree.labelAt_of_some here]

theorem rulesAt_of_listed (sound : set.Sound) {scope : String} {changed : Option (List String)}
    {entry : List String × Terrain.Ground} (member : entry ∈ (Terrain.survey set scope changed).listing)
    {rule : List Char × Nat} (inside : rule ∈ entry.2.rules) : rule ∈ set.rulesAt entry.1 := by
  rw [rules_of_listed sound member] at inside
  split at inside
  · exact inside
  · exact absurd inside List.not_mem_nil

/-- No pattern of files stands twice in a plan. -/
theorem rules_nodup (sound : set.Sound) (starless : set.Starless) (scope : String) (changed : Option (List String)) :
    ((compile set scope changed).rules.map (·.1)).Nodup := by
  have proper := sound.proper starless
  rw [compile, rules_eq, List.map_flatMap, List.nodup_flatMap]
  refine ⟨fun entry member => ?_, ?_⟩
  · rw [List.map_map]
    have texts : (entry.2.rules.map (·.1)).Nodup := by
      rw [rules_of_listed sound member]
      split
      · exact proper.distinct _
      · exact List.nodup_nil
    have longer := texts.map (List.append_right_injective (dirOf entry.1))
    rwa [List.map_map] at longer
  · have keys := List.pairwise_map.mp (DirTree.listing_nodup (Terrain.survey_ascending set scope changed))
    refine List.Pairwise.imp_of_mem ?_ keys
    intro first second memberFirst memberSecond differ text inFirst inSecond
    simp only [List.map_map] at inFirst inSecond
    obtain ⟨a, ruleA, rfl⟩ := List.mem_map.mp inFirst
    obtain ⟨b, ruleB, same⟩ := List.mem_map.mp inSecond
    have ownA := rulesAt_of_listed sound memberFirst ruleA
    have ownB := rulesAt_of_listed sound memberSecond ruleB
    have stepsA := proper.steps _ (List.ne_nil_of_mem ownA)
    have stepsB := proper.steps _ (List.ne_nil_of_mem ownB)
    exact differ (dirOf_append_inj stepsA stepsB (proper.plain _ _ ownA) (proper.plain _ _ ownB) same.symm).1

/-- Whichever directories have changed, a plan has the patterns of all rules in scope. -/
theorem lists (sound : set.Sound) (starless : set.Starless) (scope : String) (changed : Option (List String)) :
    set.rulesAt.Lists (Terrain.InScope scope) (compile set scope changed).rules := by
  refine ⟨rules_nodup sound starless scope changed, fun text rule => ?_⟩
  rw [compile, rules_eq]
  simp only [List.mem_flatMap, List.mem_map, Prod.mk.injEq, Prod.exists]
  constructor
  · rintro ⟨names, ground, member, pattern, _, inside, rfl, rfl⟩
    rw [rules_of_listed sound member] at inside
    split at inside
    · rename_i relevant
      exact ⟨names, pattern, relevant, inside, rfl⟩
    · exact absurd inside List.not_mem_nil
  · rintro ⟨names, pattern, relevant, inside, rfl⟩
    have label := Terrain.rules_labelAt_survey sound scope changed names
    rw [Terrain.InScope] at relevant
    rw [if_pos relevant] at label
    cases here : (Terrain.survey set scope changed).sub? names with
    | none =>
      rw [DirTree.labelAt_of_none here] at label
      exact absurd (label ▸ inside) List.not_mem_nil
    | some found =>
      rw [DirTree.labelAt_of_some here] at label
      have ascending := Terrain.survey_ascending set scope changed
      exact ⟨names, found.label, (DirTree.mem_listing ascending).mpr ⟨found.below, here⟩, pattern, rule,
        label ▸ inside, rfl, rfl⟩

end Plan
end BackupAtlas
