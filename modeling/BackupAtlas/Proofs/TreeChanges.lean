import BackupAtlas.Proofs.DirTrees
import BackupAtlas.Proofs.Records

namespace BackupAtlas

theorem lt_or_eq_or_gt (a b : String) : a < b ∨ a = b ∨ b < a := by
  by_cases less : a < b
  · exact Or.inl less
  · by_cases same : a = b
    · exact Or.inr (Or.inl same)
    · exact Or.inr (Or.inr (lt_of_not_lt_of_ne less same))

namespace Forest

variable {α : Type} {blank : α} {name other key : String} {label : α} {below rest : Forest α}
variable {change first second : α × Forest α → α × Forest α}

theorem alter_before (less : name < key) : (cons key label below rest).alter blank name change =
    cons name (change (blank, nil)).1 (change (blank, nil)).2 (cons key label below rest) := by
  rw [alter, if_pos less]

theorem alter_here : (cons name label below rest).alter blank name change =
    cons name (change (label, below)).1 (change (label, below)).2 rest := by
  rw [alter, if_neg (String.lt_irrefl name), if_pos rfl]

theorem alter_behind (less : key < name) : (cons key label below rest).alter blank name change =
    cons key label below (rest.alter blank name change) := by
  have differs : name ≠ key := fun same => String.lt_irrefl key (same ▸ less)
  rw [alter, if_neg (String.lt_asymm less), if_neg differs]

end Forest

namespace DirTree

variable {α β : Type}

/-- Changes the label at the end of a path only. -/
def changeAt (blank : α → α) (change : α → α) (path : List String) (tree : DirTree α) : DirTree α :=
  tree.along blank (fun last label => if last then change label else label) path

variable {blank : α → α} {change other : α → α} {tree : DirTree α}

theorem changeAt_nil : tree.changeAt blank change [] = { tree with label := change tree.label } := rfl

theorem changeAt_cons (name : String) (path : List String) : tree.changeAt blank change (name :: path) =
    { tree with below := tree.below.alter (blank tree.label) name fun found =>
        ((changeAt blank change path ⟨found.1, found.2⟩).label,
          (changeAt blank change path ⟨found.1, found.2⟩).below) } := rfl

/-- The directory at the end of the path is there, with the changed label. -/
theorem sub?_changeAt_self (ascending : tree.below.Ascending) (path : List String) :
    ∃ label below, (tree.changeAt blank change path).sub? path = some ⟨change label, below⟩ := by
  induction path generalizing tree with
  | nil => exact ⟨tree.label, tree.below, rfl⟩
  | cons name path ih =>
    obtain ⟨label, below, led⟩ := @ih (tree.stepOr (blank tree.label) name) (stepOr_ascending ascending name)
    refine ⟨label, below, ?_⟩
    rw [changeAt_cons, sub?, Forest.find?_alter ascending, if_pos rfl]
    exact led

/-- Other directories keep their labels. -/
theorem sub?_changeAt (ascending : tree.below.Ascending) {path names : List String} {found : DirTree α}
    (there : tree.sub? names = some found) : ∃ below, (tree.changeAt blank change path).sub? names =
      some ⟨if names = path then change found.label else found.label, below⟩ := by
  induction path generalizing names tree with
  | nil =>
    cases names with
    | nil => exact ⟨tree.below, by rw [← Option.some.inj there]; rfl⟩
    | cons name names => exact ⟨found.below, there⟩
  | cons head path ih =>
    cases names with
    | nil => exact ⟨_, by rw [← Option.some.inj there]; rfl⟩
    | cons name names =>
      obtain ⟨⟨label, below⟩, inner, led⟩ := Option.bind_eq_some_iff.mp there
      rw [changeAt_cons, sub?, Forest.find?_alter ascending, Forest.orBlank]
      by_cases same : name = head
      · subst same
        obtain ⟨below', changed⟩ := @ih ⟨label, below⟩ (ascending.below inner) names led
        refine ⟨below', ?_⟩
        rw [if_pos rfl, inner]
        simpa using changed
      · refine ⟨found.below, ?_⟩
        have differ : ¬ name :: names = head :: path := fun equal => same (List.cons.inj equal).1
        rw [if_neg same, if_neg differ]
        exact there

end DirTree

def Forest.map {α β : Type} (f : α → β) : Forest α → Forest β
  | nil => nil
  | cons name label below rest => cons name (f label) (below.map f) (rest.map f)

def DirTree.map {α β : Type} (f : α → β) (tree : DirTree α) : DirTree β := ⟨f tree.label, tree.below.map f⟩

section

variable {α β : Type} (f : α → β)

theorem Forest.names_map (forest : Forest α) : (forest.map f).names = forest.names := by
  induction forest with
  | nil => rfl
  | cons name label below rest _ ih => rw [map, names, names, ih]

theorem Forest.find?_map (name : String) (forest : Forest α) :
    (forest.map f).find? name = (forest.find? name).map fun found => (f found.1, found.2.map f) := by
  induction forest with
  | nil => rfl
  | cons key label below rest _ ih =>
    rw [map, find?, find?, ih]
    split <;> rfl

theorem Forest.ascending_map {forest : Forest α} : (forest.map f).Ascending ↔ forest.Ascending := by
  induction forest with
  | nil => exact Iff.rfl
  | cons name label below rest ihBelow ih => rw [map, Ascending, Ascending, ihBelow, ih, names_map]

theorem DirTree.sub?_map (path : List String) (tree : DirTree α) :
    (tree.map f).sub? path = (tree.sub? path).map (DirTree.map f) := by
  induction path generalizing tree with
  | nil => rfl
  | cons name path ih =>
    rw [sub?, sub?, map, Forest.find?_map]
    cases tree.below.find? name with
    | none => rfl
    | some found => exact ih ⟨found.1, found.2⟩

variable {f}

theorem Forest.alter_map {blank : α} {name : String} {change : α × Forest α → α × Forest α}
    {change' : β × Forest β → β × Forest β}
    (same : ∀ found, (f (change found).1, (change found).2.map f) = change' (f found.1, found.2.map f))
    (forest : Forest α) : (forest.alter blank name change).map f = (forest.map f).alter (f blank) name change' := by
  have here : ∀ found rest, (cons name (change found).1 (change found).2 rest).map f =
      .cons name (change' (f found.1, found.2.map f)).1 (change' (f found.1, found.2.map f)).2 (rest.map f) := by
    intro found rest
    rw [map, ← same]
  induction forest with
  | nil => exact here (blank, .nil) .nil
  | cons key label below rest _ ih =>
    rcases lt_or_eq_or_gt name key with less | rfl | more
    · rw [alter_before less, here]
      exact (alter_before less).symm
    · rw [alter_here, here]
      exact alter_here.symm
    · rw [alter_behind more, map, map, alter_behind more, ih]

theorem DirTree.changeAt_map {blank change : α → α} {blank' change' : β → β} (blanks : ∀ a, f (blank a) = blank' (f a))
    (changes : ∀ a, f (change a) = change' (f a)) (path : List String) (tree : DirTree α) :
    (tree.changeAt blank change path).map f = (tree.map f).changeAt blank' change' path := by
  induction path generalizing tree with
  | nil => rw [changeAt_nil, changeAt_nil, map, map, changes]
  | cons name path ih =>
    rw [changeAt_cons, changeAt_cons, map, map, ← blanks]
    refine congrArg (DirTree.mk (f tree.label)) (Forest.alter_map (fun found => ?_) tree.below)
    have inside := ih ⟨found.1, found.2⟩
    exact congrArg (fun tree => (tree.label, tree.below)) inside

end

end BackupAtlas
