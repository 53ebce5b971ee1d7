import BackupAtlas.AtlasQuery
import BackupAtlas.Proofs.Mounts
import BackupAtlas.Proofs.Summaries

namespace BackupAtlas

variable {rule : List String → List Char → Nat} {names : List String} {sites others : Sites}

/-- Snapshots of one directory that cannot be told apart for the given rules. -/
def Overlay.Twin (rule : List String → List Char → Nat) (names : List String) (overlay other : Overlay) : Prop :=
  overlay.root = other.root ∧ View.Alike rule names overlay.view other.view

namespace Sites

theorem Alike.digests (alike : Alike (Overlay.Twin rule) names sites others) : sites.digests = others.digests := by
  induction alike with
  | nil => rfl
  | dir inside behind ihInside ih => rw [Sites.digests, Sites.digests, ihInside, ih]
  | mount here behind ih => rw [Sites.digests, Sites.digests, here.2.digest, ih]

/-- Sites that show alike have the same figures. -/
theorem Alike.summary (alike : Alike (Overlay.Twin rule) names sites others) : sites.summary = others.summary := by
  rw [Sites.summary, Sites.summary, alike.digests]

variable {twin : List String → Overlay → Overlay → Prop}

theorem Alike.find? (alike : Alike twin names sites others) (name : String) :
    (sites.find? name = none ∧ others.find? name = none) ∨
    (∃ below below', sites.find? name = some (.dir below) ∧ others.find? name = some (.dir below') ∧
      Alike twin (names ++ [name]) below below') ∨
    ∃ overlay overlay', sites.find? name = some (.mount overlay) ∧ others.find? name = some (.mount overlay') ∧
      twin (names ++ [name]) overlay overlay' := by
  induction alike with
  | nil => exact Or.inl ⟨rfl, rfl⟩
  | @dir names key below below' rest rest' inside behind _ ih =>
    rw [Sites.find?, Sites.find?]
    split
    · rename_i same
      exact Or.inr (Or.inl ⟨below, below', rfl, rfl, same ▸ inside⟩)
    · exact ih
  | @mount names key overlay overlay' rest rest' here behind ih =>
    rw [Sites.find?, Sites.find?]
    split
    · rename_i same
      exact Or.inr (Or.inr ⟨overlay, overlay', rfl, rfl, same ▸ here⟩)
    · exact ih

/-- A path leads to the same place. -/
theorem Alike.locate (alike : Alike twin names sites others) (path : List String) :
    (sites.locate path = none ∧ others.locate path = none) ∨
    (∃ below below' inner, sites.locate path = some (.above below) ∧ others.locate path = some (.above below') ∧
      Alike twin inner below below') ∨
    ∃ overlay overlay' inner, sites.locate path = some (.inside overlay) ∧ others.locate path =
    some (.inside overlay') ∧
      twin inner overlay overlay' := by
  induction path generalizing names sites others with
  | nil => exact Or.inr (Or.inl ⟨sites, others, names, rfl, rfl, alike⟩)
  | cons segment path ih =>
    rw [Sites.locate, Sites.locate]
    rcases alike.find? segment with ⟨first, second⟩ | ⟨below, below', first, second, inside⟩ |
      ⟨overlay, overlay', first, second, here⟩
    · rw [first, second]
      exact Or.inl ⟨rfl, rfl⟩
    · rw [first, second]
      exact ih inside
    · rw [first, second]
      exact Or.inr (Or.inr ⟨overlay, overlay', _, rfl, rfl, here⟩)

end Sites

namespace Atlas

variable {atlas other : Atlas}

/-- Figures are the same where the mounted snapshots are alike. -/
theorem figures_alike (alike : Sites.Alike (Overlay.Twin rule) names atlas.sites other.sites) (path : String) :
    atlas.figures path = other.figures path := by
  rw [figures, figures, target, target]
  rcases alike.locate (TreePath.segments path) with ⟨first, second⟩ | ⟨below, below', inner, first, second, inside⟩ |
    ⟨overlay, overlay', inner, first, second, sameRoot, twin⟩
  · rw [first, second]
  · rw [first, second]
    simp only [bind, Except.bind, inside.summary]
  · rw [first, second]
    simp only [sameRoot]
    cases TreePath.behindBytes overlay'.root.utf8ByteSize path.toList with
    | none => rfl
    | some relative =>
      have found : Overlay.FoundAlike rule (overlay.lookup (String.ofList relative))
        (overlay'.lookup (String.ofList relative)) :=
        Overlay.find?_alike _ twin
      simp only
      generalize overlay.lookup (String.ofList relative) = here at found ⊢
      generalize overlay'.lookup (String.ofList relative) = there at found ⊢
      cases found with
      | same => rfl
      | dir views =>
        have shown := views.summary
        simp only [liftM, monadLift, MonadLift.monadLift, bind, Except.bind, pure, Except.pure, shown]

/-- Atlases with the same rules that show alike answer alike. -/
theorem summary_alike (alike : Sites.Alike (Overlay.Twin rule) names atlas.sites other.sites)
    (sameRules : atlas.rules = other.rules) (naming : Naming) (path : String) :
    atlas.summary naming path = other.summary naming path := by
  simp only [Atlas.summary, figures_alike alike, claimant, sameRules]

end Atlas
end BackupAtlas
