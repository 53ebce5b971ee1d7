import BackupAtlas.Proofs.Conservation
import BackupAtlas.Proofs.FullBuilds

namespace BackupAtlas

variable {α : Type}

/-- All labels, at any depth, have the property. -/
def Forest.Every (holds : α → Prop) : Forest α → Prop
  | nil => True
  | cons _ label below rest => holds label ∧ below.Every holds ∧ rest.Every holds

def DirTree.Every (holds : α → Prop) (tree : DirTree α) : Prop := holds tree.label ∧ tree.below.Every holds

theorem Forest.Every.alter {holds : α → Prop} {blank : α} {name : String} {change : α × Forest α → α × Forest α}
    {forest : Forest α} (every : forest.Every holds) (fresh : holds blank)
    (keeps : ∀ label below, holds label → below.Every holds →
      holds (change (label, below)).1 ∧ (change (label, below)).2.Every holds) :
    (forest.alter blank name change).Every holds := by
  induction forest with
  | nil => exact ⟨(keeps blank .nil fresh trivial).1, (keeps blank .nil fresh trivial).2, trivial⟩
  | cons key label below rest _ ih =>
    rw [Forest.alter]
    split
    · exact ⟨(keeps blank .nil fresh trivial).1, (keeps blank .nil fresh trivial).2, every⟩
    · split
      · exact ⟨(keeps label below every.1 every.2.1).1, (keeps label below every.1 every.2.1).2, every.2.2⟩
      · exact ⟨every.1, every.2.1, ih every.2.2⟩

/-- What holds of all labels holds after labels along a path have changed, if the change keeps it. -/
theorem DirTree.Every.along {holds : α → Prop} {blank : α → α} {change : Bool → α → α} {tree : DirTree α}
    (every : tree.Every holds) (fresh : ∀ label, holds (blank label))
    (keeps : ∀ last label, holds label → holds (change last label)) (path : List String) :
    (tree.along blank change path).Every holds := by
  induction path generalizing tree with
  | nil => exact ⟨keeps true _ every.1, every.2⟩
  | cons name path ih =>
    exact ⟨keeps false _ every.1, every.2.alter (fresh _) fun label below here inside => ih ⟨here, inside⟩⟩

namespace Terrain

/-- The ids of rules in a directory are words of 64 bits. -/
def Ground.IdsFit (ground : Ground) : Prop := ∀ entry ∈ ground.rules, entry.2 < 2 ^ 64

def Default.IdFits : Default → Prop
  | walk => True
  | toRule rule => rule < 2 ^ 64

theorem Default.IdFits.directive {default : Default} (fits : default.IdFits) (dirty : Bool) :
    (default.directive dirty).IdFits := by
  cases default with
  | walk => trivial
  | toRule rule => cases dirty <;> exact fits

namespace Ground.IdsFit

variable {ground : Ground} (fits : ground.IdsFit)

include fits

theorem default {inherited : Default} (above : inherited.IdFits) : (ground.default inherited).IdFits := by
  rw [Ground.default]
  split
  · trivial
  · split
    · rename_i rule star
      obtain ⟨entry, found, rfl⟩ := Option.map_eq_some_iff.mp star
      exact fits entry (List.mem_of_find?_eq_some found)
    · exact above

/-- The heads of a directory have ids that fit. -/
theorem heads : ∀ entry ∈ ground.heads, entry.2.IdFits := by
  rintro ⟨text, default⟩ member
  have describes := ground.describes_heads
  cases default with
  | walk => trivial
  | toRule rule => exact fits _ (describes.single text rule ((Entries.get?_eq_some describes.ascending).mpr member)).1

end Ground.IdsFit

theorem inherit_idFits {default : Default} {heads : List (String × Default)} {name : String} (own : default.IdFits)
    (each : ∀ entry ∈ heads, entry.2.IdFits) : (inherit default heads name).IdFits := by
  rw [inherit]
  split
  · rename_i text found last
    exact each _ (List.mem_of_mem_filter (List.mem_of_getLast? last))
  · exact own

variable {path : List Char} {forest : Forest Ground} {ground : Ground}

/-- The rules below a directory have ids that fit. -/
theorem rulesBelow_fit (every : forest.Every Ground.IdsFit) : ∀ entry ∈ rulesBelow path forest, entry.2 < 2 ^ 64 := by
  induction forest generalizing path with
  | nil => exact fun entry member => absurd member List.not_mem_nil
  | cons name ground below rest ihBelow ih =>
    intro entry member
    rw [rulesBelow, List.mem_append, List.mem_append, List.mem_map] at member
    rcases member with ⟨own, listed, rfl⟩ | inside | behind
    · exact every.1 own listed
    · exact ihBelow every.2.1 entry inside
    · exact ih every.2.2 entry behind

theorem Ground.IdsFit.directives (fits : ground.IdsFit) {inherited : Default} (above : inherited.IdFits) (dirty : Bool)
    {inside : List (List Char × Directive)} (each : ∀ entry ∈ inside, entry.2.IdFits) :
    ∀ entry ∈ ground.directives path inherited dirty forest inside, entry.2.IdFits := by
  have own := fits.default above
  have walked : ∀ entry ∈ (path, .process) :: (path ++ ['*', '/'], (ground.default inherited).directive dirty) ::
      ground.heads.map (fun head => (path ++ head.1.toList ++ ['*', '/'], head.2.directive dirty)) ++ inside,
      entry.2.IdFits := by
    intro entry member
    simp only [List.mem_cons, List.mem_append, List.mem_map] at member
    rcases member with (rfl | rfl | ⟨head, listed, rfl⟩) | further
    · trivial
    · exact own.directive dirty
    · exact (fits.heads head listed).directive dirty
    · exact each entry further
  have single : ∀ {directive : Directive}, directive.IdFits → ∀ entry ∈ [(path, directive)], entry.2.IdFits :=
    fun fits entry member => List.mem_singleton.mp member ▸ fits
  rw [Ground.directives]
  cases settled : ground.default inherited with
  | walk =>
    rw [settled] at walked
    dsimp only
    split
    · exact walked
    · split
      · exact single (show 0 < 2 ^ 64 by decide)
      · exact walked
  | toRule rule =>
    rw [settled] at walked own
    dsimp only
    split
    · exact walked
    · split
      · exact single own
      · split
        · exact walked
        · exact single own

/-- The directives below a directory have ids that fit. -/
theorem directivesBelow_fit (every : forest.Every Ground.IdsFit) {parentDirty : Bool} {default : Default}
    {heads : List (String × Default)} (own : default.IdFits) (each : ∀ entry ∈ heads, entry.2.IdFits) :
    ∀ entry ∈ directivesBelow path parentDirty default heads forest, entry.2.IdFits := by
  induction forest generalizing path parentDirty default heads with
  | nil => exact fun entry member => absurd member List.not_mem_nil
  | cons name ground below rest ihBelow ih =>
    have here : ground.IdsFit := every.1
    have inherited : (inherit default heads name).IdFits := inherit_idFits own each
    intro entry member
    rw [directivesBelow, List.mem_append] at member
    rcases member with first | behind
    · exact here.directives inherited _ (ihBelow every.2.1 (here.default inherited) here.heads) entry first
    · exact ih every.2.2 own each entry behind

variable {set : RuleSet}

/-- A survey has ids that fit. -/
theorem survey_fits (fits : set.IdsFit) (scope : String) (changed : Option (List String)) :
    (survey set scope changed).Every Ground.IdsFit := by
  have blank : Ground → Ground.IdsFit {} := fun _ entry member => absurd member List.not_mem_nil
  have top : DirTree.Every Ground.IdsFit { label := { changed := changed.isNone } } :=
    ⟨fun entry member => absurd member List.not_mem_nil, trivial⟩
  have way : (wayTo scope changed).Every Ground.IdsFit := by
    refine top.along blank (fun last ground here => ?_) _
    exact here
  have claimed : (withClaims set scope changed).Every Ground.IdsFit := by
    rw [withClaims]
    refine List.foldlRecOn _ _ way fun tree every entry member => ?_
    refine every.along blank (fun last ground here => ?_) _
    split
    · intro listed known
      obtain ⟨rule, isRule, rfl⟩ := List.mem_map.mp known
      exact fits _ _ _ _ (Catalog.get?_eq_some.mpr (List.mem_of_mem_filter member)) (Catalog.get?_eq_some.mpr isRule)
    · exact here
  rw [survey_eq]
  refine List.foldlRecOn _ _ claimed fun tree every path _ => ?_
  refine every.along blank (fun last ground here => ?_) _
  split <;> exact here

end Terrain

/-- All ids in a plan are words of 64 bits if those of the rules are. -/
theorem Plan.compile_idsFit {set : RuleSet} (fits : set.IdsFit) (scope : String) (changed : Option (List String)) :
    (compile set scope changed).IdsFit := by
  have every := Terrain.survey_fits fits scope changed
  rw [compile]
  generalize Terrain.survey set scope changed = tree at every
  have here : tree.label.IdsFit := every.1
  have zero : (Terrain.Default.toRule 0).IdFits := by
    rw [Terrain.Default.IdFits]
    decide
  refine ⟨fun entry member => ?_, fun entry member => ?_⟩
  · rw [ofTree, List.mem_append, List.mem_map] at member
    rcases member with ⟨own, listed, rfl⟩ | inside
    · exact here own listed
    · exact Terrain.rulesBelow_fit every.2 entry inside
  · exact here.directives zero _ (Terrain.directivesBelow_fit every.2 (here.default zero) here.heads) entry member

end BackupAtlas
