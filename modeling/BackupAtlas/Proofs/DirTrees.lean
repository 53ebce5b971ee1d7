import Mathlib.Data.List.Nodup
import Mathlib.Tactic.Tauto
import BackupAtlas.Forest

namespace BackupAtlas

theorem lt_of_not_lt_of_ne {a b : String} (notLess : ¬ a < b) (differs : a ≠ b) : b < a := by
  refine Classical.byContradiction fun notGreater => differs ?_
  exact String.le_antisymm (String.not_lt.mp notGreater) (String.not_lt.mp notLess)

namespace Forest

variable {α : Type}

/-- Siblings ascend by name, here and further down. -/
def Ascending : Forest α → Prop
  | nil => True
  | cons name _ below rest => below.Ascending ∧ rest.Ascending ∧ ∀ other ∈ rest.names, name < other

/-- Something is found exactly under the names there are. -/
theorem find?_isSome {name : String} {forest : Forest α} : (forest.find? name).isSome ↔ name ∈ forest.names := by
  induction forest with
  | nil => simp [find?, names]
  | cons key label below rest _ ih =>
    by_cases here : name = key
    · simp [find?, names, here]
    · simp [find?, names, here, ih]

theorem find?_eq_none {name : String} {forest : Forest α} : forest.find? name = none ↔ name ∉ forest.names := by
  rw [← find?_isSome, Option.not_isSome_iff_eq_none]

theorem Ascending.below {name : String} {forest inner : Forest α} {label : α} (ascending : forest.Ascending)
    (found : forest.find? name = some (label, inner)) : inner.Ascending := by
  induction forest with
  | nil => simp [find?] at found
  | cons key _ below rest _ ih =>
    rw [find?] at found
    split at found
    · cases found
      exact ascending.1
    · exact ih ascending.2.1 found

/-- Siblings have what all that is below them has. -/
theorem induction {P : Forest α → Prop}
    (step : ∀ forest : Forest α, (∀ name label below, forest.find? name = some (label, below) → P below) → P forest)
    (forest : Forest α) : P forest := by
  suffices inside : ∀ forest : Forest α, ∀ name label below, forest.find? name = some (label, below) → P below from
    step forest (inside forest)
  intro forest
  induction forest with
  | nil => intro name label below found; exact absurd found (by simp [find?])
  | cons key _ inner rest ihBelow ihRest =>
    intro name label below found
    rw [find?] at found
    split at found
    · cases found
      exact step _ ihBelow
    · exact ihRest name label below found

/-- A name that comes before the first one is not there. -/
theorem find?_of_lt {key name : String} {label : α} {below rest : Forest α}
    (ascending : (cons key label below rest).Ascending) (before : name < key) :
    (cons key label below rest).find? name = none := by
  refine find?_eq_none.mpr fun member => ?_
  rcases List.mem_cons.mp member with rfl | later
  · exact String.lt_irrefl _ before
  · exact String.lt_irrefl _ (String.lt_trans before (ascending.2.2 _ later))

section

variable {blank : α} {name : String} {change : α × Forest α → α × Forest α} {forest : Forest α}

/-- What `change` is applied to. -/
def orBlank (blank : α) (name : String) (forest : Forest α) : α × Forest α :=
  (forest.find? name).getD (blank, nil)

theorem mem_names_alter {other : String} :
    other ∈ (forest.alter blank name change).names ↔ other = name ∨ other ∈ forest.names := by
  induction forest with
  | nil => simp [alter, names]
  | cons key label below rest _ ih =>
    rw [alter]
    split
    · simp [names]
    · split
      · rename_i same
        simp [names, same]
      · simp only [names, List.mem_cons, ih]
        tauto

/-- A change under one name leaves what is under the others. -/
theorem find?_alter (ascending : forest.Ascending) (other : String) :
    (forest.alter blank name change).find? other =
      if other = name then some (change (forest.orBlank blank name)) else forest.find? other := by
  induction forest with
  | nil => by_cases here : other = name <;> simp [alter, find?, orBlank, here]
  | cons key label below rest _ ih =>
    rw [alter]
    split
    · rename_i before
      rw [orBlank, find?_of_lt ascending before, find?]
      rfl
    · split
      · rename_i same
        by_cases here : other = name
        · simp [find?, orBlank, here, same]
        · simp [find?, here, ← same]
      · rename_i differs
        by_cases here : other = name
        · subst here
          simp [find?, orBlank, differs, ih ascending.2.1]
        · simp only [find?, ih ascending.2.1, here, if_false]

/-- A changed forest stays in order. -/
theorem Ascending.alter (ascending : forest.Ascending) (keeps : (change (forest.orBlank blank name)).2.Ascending) :
    (forest.alter blank name change).Ascending := by
  induction forest with
  | nil => exact ⟨keeps, trivial, by simp [names]⟩
  | cons key label below rest _ ih =>
    rw [Forest.alter]
    split
    · rename_i before
      refine ⟨by rwa [orBlank, find?_of_lt ascending before] at keeps, ascending, ?_⟩
      intro other member
      rcases List.mem_cons.mp member with rfl | later
      · exact before
      · exact String.lt_trans before (ascending.2.2 _ later)
    · split
      · rename_i same
        exact ⟨by simpa [orBlank, find?, same] using keeps, ascending.2.1, by simpa [same] using ascending.2.2⟩
      · rename_i notBefore differs
        refine ⟨ascending.1, ih ascending.2.1 (by simpa [orBlank, find?, differs] using keeps), ?_⟩
        intro other member
        rcases mem_names_alter.mp member with rfl | old
        · exact lt_of_not_lt_of_ne notBefore differs
        · exact ascending.2.2 other old

end

end Forest

namespace DirTree

variable {α : Type}

/-- The directory below a tree to which names lead. -/
def sub? : List String → DirTree α → Option (DirTree α)
  | [], tree => some tree
  | name :: path, tree => (tree.below.find? name).bind fun (label, below) => sub? path { label, below }

/-- The label to which names lead, `blank` if they lead nowhere. -/
def labelAt (blank : α) (path : List String) (tree : DirTree α) : α := ((tree.sub? path).map (·.label)).getD blank

/-- Names lead on from where earlier ones lead to. -/
theorem sub?_append (first second : List String) (tree : DirTree α) :
    tree.sub? (first ++ second) = (tree.sub? first).bind (·.sub? second) := by
  induction first generalizing tree with
  | nil => rfl
  | cons name first ih =>
    rw [List.cons_append, sub?, sub?]
    cases tree.below.find? name with
    | none => rfl
    | some found => exact ih _

theorem sub?_ascending {path : List String} {tree found : DirTree α} (ascending : tree.below.Ascending)
    (here : tree.sub? path = some found) : found.below.Ascending := by
  induction path generalizing tree with
  | nil => exact Option.some.inj here ▸ ascending
  | cons name path ih =>
    obtain ⟨⟨label, below⟩, atName, inner⟩ := Option.bind_eq_some_iff.mp here
    exact @ih ⟨label, below⟩ (ascending.below atName) inner

theorem labelAt_of_none {blank : α} {path : List String} {tree : DirTree α} (missing : tree.sub? path = none) :
    labelAt blank path tree = blank := by
  rw [labelAt, missing]
  rfl

theorem labelAt_of_some {blank : α} {path : List String} {tree found : DirTree α} (here : tree.sub? path = some found) :
    labelAt blank path tree = found.label := by
  rw [labelAt, here]
  rfl

section

variable {blank : α} {change : Bool → α → α} {tree : DirTree α}

/-- The directory called `name`, which has a blank label if it is missing. -/
def stepOr (blank : α) (name : String) (tree : DirTree α) : DirTree α :=
  ⟨(tree.below.orBlank blank name).1, (tree.below.orBlank blank name).2⟩

theorem stepOr_ascending (ascending : tree.below.Ascending) (name : String) :
    (tree.stepOr blank name).below.Ascending := by
  rw [stepOr, Forest.orBlank]
  cases found : tree.below.find? name with
  | none => trivial
  | some inner => exact ascending.below found

theorem labelAt_cons (name : String) (path : List String) :
    labelAt blank (name :: path) tree = labelAt blank path (tree.stepOr blank name) := by
  rw [labelAt, sub?, stepOr, Forest.orBlank]
  cases tree.below.find? name with
  | none => cases path <;> rfl
  | some found => rfl

theorem sub?_stepOr {name : String} {path : List String} (there : path ≠ []) :
    (tree.stepOr blank name).sub? path = tree.sub? (name :: path) := by
  rw [sub?, stepOr, Forest.orBlank]
  cases found : tree.below.find? name with
  | some inner => rfl
  | none =>
    cases path with
    | nil => exact absurd rfl there
    | cons head path => rfl

theorem along_ascending {path : List String} (ascending : tree.below.Ascending) :
    (tree.along (fun _ => blank) change path).below.Ascending := by
  induction path generalizing tree with
  | nil => exact ascending
  | cons name path ih =>
    refine Forest.Ascending.alter ascending ?_
    exact @ih (tree.stepOr blank name) (stepOr_ascending ascending name)

/-- Labels that change along a path change nothing beside its first name. -/
theorem sub?_along_cons (ascending : tree.below.Ascending) (name head : String) (path other : List String) :
    (tree.along (fun _ => blank) change (name :: path)).sub? (head :: other) =
      if head = name then ((tree.stepOr blank name).along (fun _ => blank) change path).sub? other
      else tree.sub? (head :: other) := by
  rw [along, sub?, Forest.find?_alter ascending]
  by_cases here : head = name
  · rw [if_pos here, if_pos here, Option.bind_some]
    rfl
  · rw [if_neg here, if_neg here, sub?]

/-- Along a path directories are made where they are missing. -/
theorem sub?_along_isSome {path : List String} (ascending : tree.below.Ascending) (other : List String) :
    ((tree.along (fun _ => blank) change path).sub? other).isSome ↔
      other <+: path ∨ (tree.sub? other).isSome := by
  induction path generalizing tree other with
  | nil => cases other <;> simp [along, sub?]
  | cons name path ih =>
    cases other with
    | nil => simp [sub?]
    | cons head other =>
      rw [sub?_along_cons ascending, List.cons_prefix_cons]
      by_cases here : head = name
      · subst here
        rw [if_pos rfl, ih (stepOr_ascending ascending head)]
        by_cases inside : other = []
        · subst inside
          simp
        · rw [sub?_stepOr inside]
          simp
      · simp [here]

/-- Labels change along the path only. -/
theorem labelAt_along {path : List String} (ascending : tree.below.Ascending) (other : List String) :
    labelAt blank other (tree.along (fun _ => blank) change path) =
      if other <+: path then change (decide (other = path)) (labelAt blank other tree)
      else labelAt blank other tree := by
  induction path generalizing tree other with
  | nil =>
    cases other with
    | nil => simp [along, labelAt, sub?]
    | cons head other => simp [along, labelAt, sub?]
  | cons name path ih =>
    cases other with
    | nil => simp [along, labelAt, sub?]
    | cons head other =>
      by_cases here : head = name
      · subst here
        rw [labelAt, sub?_along_cons ascending, if_pos rfl, labelAt_cons]
        rw [← labelAt, ih (stepOr_ascending ascending head)]
        simp [List.cons_prefix_cons]
      · rw [labelAt, sub?_along_cons ascending, if_neg here, if_neg (by simp [List.cons_prefix_cons, here])]
        rfl

end

end DirTree

namespace Forest

variable {α : Type}

def listing : Forest α → List (List String × α)
  | nil => []
  | cons name label below rest =>
    ([name], label) :: (below.listing.map (fun entry => (name :: entry.1, entry.2)) ++ rest.listing)

/-- To look for a label is to go through the whole listing. -/
theorem any_eq (holds : α → Bool) (forest : Forest α) :
    forest.any holds = forest.listing.any fun entry => holds entry.2 := by
  induction forest with
  | nil => rfl
  | cons name label below rest ihBelow ihRest =>
    rw [any, listing, List.any_cons, List.any_append, List.any_map, ihBelow, ihRest, Bool.or_assoc]
    rfl

theorem head_of_mem_listing {path : List String} {label : α} {forest : Forest α}
    (member : (path, label) ∈ forest.listing) : ∃ name ∈ forest.names, path.head? = some name := by
  induction forest with
  | nil => simp [listing] at member
  | cons name found below rest _ ih =>
    rw [listing, List.mem_cons, List.mem_append] at member
    rcases member with here | inside | later
    · obtain ⟨rfl, rfl⟩ := Prod.mk.inj here
      exact ⟨name, List.mem_cons_self, rfl⟩
    · obtain ⟨⟨inner, other⟩, _, same⟩ := List.mem_map.mp inside
      obtain ⟨rfl, rfl⟩ := Prod.mk.inj same
      exact ⟨name, List.mem_cons_self, rfl⟩
    · obtain ⟨key, known, same⟩ := ih later
      exact ⟨key, List.mem_cons_of_mem _ known, same⟩

/-- No names lead to two places. -/
theorem Ascending.listing_nodup {forest : Forest α} (ascending : forest.Ascending) :
    (forest.listing.map (·.1)).Nodup := by
  induction forest with
  | nil => exact List.nodup_nil
  | cons name label below rest ihBelow ihRest =>
    have apart : ∀ path found, (path, found) ∈ rest.listing → path.head? ≠ some name := by
      intro path found member same
      obtain ⟨key, known, atHead⟩ := head_of_mem_listing member
      obtain rfl := Option.some.inj (same.symm.trans atHead)
      exact String.lt_irrefl _ (ascending.2.2 _ known)
    have nonempty : ∀ path found, (path, found) ∈ below.listing → path ≠ [] := by
      rintro _ found member rfl
      obtain ⟨key, _, atHead⟩ := head_of_mem_listing member
      simp at atHead
    rw [listing, List.map_cons, List.map_append, List.map_map, List.nodup_cons, List.nodup_append]
    refine ⟨?_, ?_, ihRest ascending.2.1, ?_⟩
    · simp only [List.mem_append, List.mem_map, not_or]
      refine ⟨?_, ?_⟩
      · rintro ⟨⟨path, found⟩, member, same⟩
        exact nonempty path found member (by simpa using same)
      · rintro ⟨⟨path, found⟩, member, rfl⟩
        exact apart _ found member rfl
    · have inner := (ihBelow ascending.1).map (List.cons_injective (a := name))
      rwa [List.map_map] at inner
    · rintro path first _ second rfl
      obtain ⟨⟨inner, found⟩, _, rfl⟩ := List.mem_map.mp first
      obtain ⟨⟨other, label⟩, member, same⟩ := List.mem_map.mp second
      exact apart other label member (by rw [show other = name :: inner from same]; rfl)

end Forest

namespace DirTree

variable {α : Type}

def listing (tree : DirTree α) : List (List String × α) := ([], tree.label) :: tree.below.listing

theorem mem_listing_mk {forest : Forest α} (ascending : forest.Ascending) {top : α} {path : List String} {label : α} :
    (path, label) ∈ listing ⟨top, forest⟩ ↔ ∃ below, sub? path ⟨top, forest⟩ = some ⟨label, below⟩ := by
  induction forest generalizing top path with
  | nil => cases path <;> simp [listing, Forest.listing, sub?, Forest.find?, eq_comm]
  | cons name found below rest ihBelow ihRest =>
    cases path with
    | nil =>
      have nonempty : ([], label) ∉ (Forest.cons name found below rest).listing := by
        intro member
        obtain ⟨key, _, atHead⟩ := Forest.head_of_mem_listing member
        simp at atHead
      simp [listing, nonempty, sub?, eq_comm]
    | cons key path =>
      have split : (key :: path, label) ∈ listing ⟨top, .cons name found below rest⟩ ↔
          (key = name ∧ (path, label) ∈ listing ⟨found, below⟩) ∨ (key :: path, label) ∈ listing ⟨top, rest⟩ := by
        simp only [listing, Forest.listing, List.mem_cons, List.mem_append, List.mem_map, Prod.mk.injEq, Prod.exists]
        constructor
        · rintro (impossible | ⟨same, label⟩ | ⟨inner, other, member, same, label⟩ | later)
          · exact absurd impossible.1 (by simp)
          · obtain ⟨rfl, rfl⟩ := List.cons.inj same
            exact Or.inl ⟨rfl, Or.inl ⟨rfl, label⟩⟩
          · obtain ⟨rfl, rfl⟩ := List.cons.inj same
            exact Or.inl ⟨rfl, Or.inr (label ▸ member)⟩
          · exact Or.inr (Or.inr later)
        · rintro (⟨rfl, (⟨rfl, label⟩ | member)⟩ | impossible | later)
          · exact Or.inr (Or.inl ⟨rfl, label⟩)
          · exact Or.inr (Or.inr (Or.inl ⟨_, _, member, rfl, rfl⟩))
          · exact absurd impossible.1 (by simp)
          · exact Or.inr (Or.inr (Or.inr later))
      rw [split, ihBelow ascending.1, ihRest ascending.2.1, sub?, sub?, Forest.find?]
      by_cases here : key = name
      · have absent : rest.find? key = none :=
          Forest.find?_eq_none.mpr fun member => String.lt_irrefl _ (here ▸ ascending.2.2 _ member)
        simp [here, here ▸ absent]
      · simp [here]

/-- The listing has every label under the names that lead to it. -/
theorem mem_listing {tree : DirTree α} (ascending : tree.below.Ascending) {path : List String} {label : α} :
    (path, label) ∈ tree.listing ↔ ∃ below, tree.sub? path = some ⟨label, below⟩ := mem_listing_mk ascending

/-- Names lead to one directory only. -/
theorem listing_nodup {tree : DirTree α} (ascending : tree.below.Ascending) : (tree.listing.map (·.1)).Nodup := by
  refine List.nodup_cons.mpr ⟨?_, ascending.listing_nodup⟩
  rintro member
  obtain ⟨⟨path, label⟩, listed, same⟩ := List.mem_map.mp member
  obtain ⟨key, _, atHead⟩ := Forest.head_of_mem_listing listed
  rw [show path = [] from same] at atHead
  simp at atHead

theorem labelAt_append (blank : α) {first second : List String} {tree found : DirTree α}
    (here : tree.sub? first = some found) : labelAt blank (first ++ second) tree = labelAt blank second found := by
  rw [labelAt, sub?_append, here]
  rfl

/-- What no label below a directory has, blank labels apart. -/
theorem labelAt_of_any {blank : α} {holds : α → Bool} {tree : DirTree α} (ascending : tree.below.Ascending)
    (nowhere : tree.below.any holds = false) (blankToo : holds blank = false) {path : List String} (some : path ≠ []) :
    holds (labelAt blank path tree) = false := by
  cases here : tree.sub? path with
  | none => rwa [labelAt_of_none here]
  | some found =>
    rw [labelAt_of_some here]
    have listed := (mem_listing ascending).mpr ⟨found.below, here⟩
    rcases List.mem_cons.mp listed with top | below
    · exact absurd (Prod.mk.inj top).1 some
    · rw [Forest.any_eq, List.any_eq_false] at nowhere
      simpa using nowhere _ below

end DirTree
end BackupAtlas
