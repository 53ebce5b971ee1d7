import BackupAtlas.Sites
import BackupAtlas.Proofs.DirTrees

namespace BackupAtlas

namespace Sites

/-- Siblings, one in front of the others. -/
@[elab_as_elim]
theorem consInduction {motive : Sites → Prop} (nil : motive nil)
    (cons : ∀ name site rest, (∀ below, site = .dir below → motive below) → motive rest → motive (cons name site rest))
    (sites : Sites) : motive sites := by
  induction sites with
  | nil => exact nil
  | dir name below rest ihBelow ih => exact cons name (.dir below) rest (fun _ same => Site.dir.inj same ▸ ihBelow) ih
  | mount name overlay rest ih => exact cons name (.mount overlay) rest (fun _ same => nomatch same) ih

def names : Sites → List String
  | nil => []
  | dir name _ rest | mount name _ rest => name :: rest.names

/-- Siblings in ascending order, and at any depth no directory without snapshots. -/
def Neat : Sites → Prop
  | nil => True
  | dir name below rest => (∀ other ∈ rest.names, name < other) ∧ (below ≠ nil ∧ below.Neat) ∧ rest.Neat
  | mount name _ rest => (∀ other ∈ rest.names, name < other) ∧ True ∧ rest.Neat

/-- The snapshot that is mounted under exactly these segments. -/
def at? : List String → Sites → Option Overlay
  | [], _ => none
  | segment :: rest, sites =>
    match sites.find? segment with
    | none => none
    | some (.dir below) => at? rest below
    | some (.mount overlay) => if rest.isEmpty then some overlay else none

end Sites

namespace Site

/-- A directory with snapshots, or a snapshot. -/
def Neat : Site → Prop
  | dir below => below ≠ .nil ∧ below.Neat
  | mount _ => True

def at? (rest : List String) : Site → Option Overlay
  | dir below => below.at? rest
  | mount overlay => if rest.isEmpty then some overlay else none

def overlays : Site → List Overlay
  | dir below => below.overlays
  | mount overlay => [overlay]

end Site

namespace Sites

variable {sites rest : Sites} {site : Site} {overlay : Overlay} {name key : String} {change : Option Site → Site}

theorem names_cons : (cons name site rest).names = name :: rest.names := by cases site <;> rfl

theorem neat_cons : (cons name site rest).Neat ↔ (∀ other ∈ rest.names, name < other) ∧ site.Neat ∧ rest.Neat := by
  cases site <;> exact Iff.rfl

theorem find?_cons (other : String) :
    (cons name site rest).find? other = if other = name then some site else rest.find? other := by
  cases site <;> rfl

theorem overlays_cons : (cons name site rest).overlays = site.overlays ++ rest.overlays := by cases site <;> rfl

theorem cons_ne_nil : cons name site rest ≠ nil := by cases site <;> exact fun same => nomatch same

theorem alter_cons : (cons key site rest).alter name change =
    if name < key then cons name (change none) (cons key site rest)
    else if name = key then cons name (change (some site)) rest
    else cons key site (rest.alter name change) := by
  cases site <;> rfl

theorem at?_cons (segment : String) (rest : List String) (sites : Sites) :
    sites.at? (segment :: rest) = (sites.find? segment).bind (Site.at? rest) := by
  rw [at?]
  cases sites.find? segment with
  | none => rfl
  | some site => cases site <;> rfl

theorem at?_nil (names : List String) : at? names nil = none := by cases names <;> rfl

theorem at?_first (names : List String) : (cons name site rest).at? (name :: names) = site.at? names := by
  rw [at?_cons, find?_cons, if_pos rfl, Option.bind_some]

theorem find?_eq_none : sites.find? name = none ↔ name ∉ sites.names := by
  induction sites using consInduction with
  | nil => simp [find?, names]
  | cons key site rest _ ih =>
    rw [find?_cons, names_cons, List.mem_cons, not_or]
    split
    · rename_i same
      simp [same]
    · rename_i differs
      simp [differs, ih]

theorem mem_names_alter {other : String} : other ∈ (sites.alter name change).names ↔ other = name ∨
    other ∈ sites.names := by
  induction sites using consInduction with
  | nil => rw [alter, names_cons, List.mem_cons]
  | cons key site rest _ ih =>
    rw [alter_cons]
    split
    · rw [names_cons, List.mem_cons]
    · split
      · rename_i same
        simp [names_cons, same]
      · simp only [names_cons, List.mem_cons, ih]
        exact or_left_comm

theorem not_mem_of_lt (neat : (cons key site rest).Neat) (less : name < key) : name ∉ (cons key site rest).names := by
  rw [names_cons]
  intro member
  rcases List.mem_cons.mp member with rfl | later
  · exact String.lt_irrefl _ less
  · exact String.lt_irrefl _ (String.lt_trans less ((neat_cons.mp neat).1 name later))

/-- A change under one name leaves what is under the others. -/
theorem find?_alter (neat : sites.Neat) (other : String) :
    (sites.alter name change).find? other =
      if other = name then some (change (sites.find? name)) else sites.find? other := by
  induction sites using consInduction with
  | nil => rw [alter, find?_cons]; rfl
  | cons key site rest _ ih =>
    rw [alter_cons]
    split
    · rename_i less
      rw [find?_cons, find?_eq_none.mpr (not_mem_of_lt neat less)]
    · split
      · rename_i same
        subst same
        rw [find?_cons, find?_cons, find?_cons, if_pos rfl]
        split <;> rfl
      · rename_i differs
        rw [find?_cons, find?_cons, find?_cons, if_neg differs, ih (neat_cons.mp neat).2.2]
        by_cases here : other = key
        · rw [if_pos here, if_pos here, if_neg (here ▸ Ne.symm differs)]
        · rw [if_neg here, if_neg here]

theorem Neat.found (neat : sites.Neat) (found : sites.find? name = some site) : site.Neat := by
  induction sites using consInduction with
  | nil => exact absurd found (by simp [find?])
  | cons key other rest _ ih =>
    rw [find?_cons] at found
    split at found
    · exact Option.some.inj found ▸ (neat_cons.mp neat).2.1
    · exact ih (neat_cons.mp neat).2.2 found

theorem Neat.alter (neat : sites.Neat) (keeps : (change (sites.find? name)).Neat) : (sites.alter name change).Neat := by
  induction sites using consInduction with
  | nil => exact neat_cons.mpr ⟨fun _ member => absurd member List.not_mem_nil, keeps, trivial⟩
  | cons key site rest _ ih =>
    obtain ⟨above, here, neatRest⟩ := neat_cons.mp neat
    rw [alter_cons]
    split
    · rename_i less
      rw [find?_eq_none.mpr (not_mem_of_lt neat less)] at keeps
      refine neat_cons.mpr ⟨fun other member => ?_, keeps, neat⟩
      rw [names_cons] at member
      rcases List.mem_cons.mp member with rfl | later
      · exact less
      · exact String.lt_trans less (above other later)
    · split
      · rename_i same
        rw [find?_cons, if_pos same] at keeps
        exact neat_cons.mpr ⟨same ▸ above, keeps, neatRest⟩
      · rename_i notLess differs
        rw [find?_cons, if_neg differs] at keeps
        refine neat_cons.mpr ⟨fun other member => ?_, here, ih neatRest keeps⟩
        rcases mem_names_alter.mp member with rfl | old
        · exact lt_of_not_lt_of_ne notLess differs
        · exact above other old

/-- What becomes of the site on the way to a snapshot that is mounted. -/
def toward (overlay : Overlay) (rest : List String) (found : Option Site) : Site :=
  if rest.isEmpty then .mount overlay
  else
    match found with
    | none => .dir (place overlay rest nil)
    | some (.dir below) => .dir (place overlay rest below)
    | some (.mount other) => .mount other

theorem place_cons (overlay : Overlay) (segment : String) (rest : List String) (sites : Sites) :
    place overlay (segment :: rest) sites = sites.alter segment (toward overlay rest) := by
  cases rest with
  | nil => rfl
  | cons next rest =>
    rw [place]
    · rfl
    · simp

theorem alter_ne_nil : sites.alter name change ≠ nil := by
  induction sites using consInduction with
  | nil => exact cons_ne_nil
  | cons key site rest _ _ =>
    rw [alter_cons]
    split
    · exact cons_ne_nil
    · split <;> exact cons_ne_nil

theorem place_ne_nil {segments : List String} (someSegments : segments ≠ []) : place overlay segments sites ≠ nil := by
  cases segments with
  | nil => exact absurd rfl someSegments
  | cons segment rest =>
    rw [place_cons]
    exact alter_ne_nil

/-- A snapshot can be placed without leaving empty directories or names out of order. -/
theorem Neat.place (neat : sites.Neat) (overlay : Overlay) (segments : List String) :
    (sites.place overlay segments).Neat := by
  induction segments generalizing sites with
  | nil => exact neat
  | cons segment rest ih =>
    rw [place_cons]
    refine neat.alter ?_
    unfold toward
    split
    · trivial
    · rename_i more
      have someRest : rest ≠ [] := by simpa using more
      cases found : sites.find? segment with
      | none => exact ⟨place_ne_nil someRest, ih (show Neat nil from trivial)⟩
      | some site =>
        cases site with
        | mount other => trivial
        | dir below => exact ⟨place_ne_nil someRest, ih (neat.found found).2⟩

/-- What is mounted after a snapshot has been mounted where it may be. -/
theorem at?_place (neat : sites.Neat) {segments : List String} (admitted : sites.admits segments)
    (names : List String) :
    (place overlay segments sites).at? names = if names = segments then some overlay else sites.at? names := by
  induction segments generalizing sites names with
  | nil => exact absurd admitted (by simp [admits])
  | cons segment rest ih =>
    cases names with
    | nil => rw [at?, at?, if_neg (by simp)]
    | cons name names =>
      rw [place_cons, at?_cons, find?_alter neat]
      by_cases here : name = segment
      · subst here
        rw [if_pos rfl, Option.bind_some, at?_cons]
        simp only [List.cons.injEq, true_and]
        rw [admits] at admitted
        cases rest with
        | nil =>
          simp only [toward, List.isEmpty_nil, if_true, Site.at?, List.isEmpty_iff]
          split
          · rfl
          · rename_i more
            split at admitted
            · rename_i missing
              rw [missing]
              rfl
            · rename_i other known
              rw [known, Option.bind_some, Site.at?, if_neg (by simpa using more)]
            · exact absurd admitted (by simp)
        | cons next rest =>
          have neatNil : Neat nil := trivial
          split at admitted
          · rename_i missing
            rw [missing, Option.bind_none, ← at?_nil names]
            exact ih neatNil (by simp [admits, find?]) names
          · exact absurd admitted (by simp)
          · rename_i below known
            rw [known]
            exact ih (neat.found known).2 (by simpa using admitted) names
      · rw [if_neg here, at?_cons, if_neg (by simp [here])]

/-- A snapshot may take the place of another. -/
theorem admits_of_at? {segments : List String} (found : sites.at? segments = some overlay) : sites.admits segments := by
  induction segments generalizing sites with
  | nil => exact absurd found (by simp [at?])
  | cons segment rest ih =>
    rw [admits]
    rw [at?] at found
    split at found
    · exact absurd found (by simp)
    · rename_i below known
      have inside := ih found
      cases rest with
      | nil => exact absurd found (by simp [at?])
      | cons next rest => simpa [known] using inside
    · rename_i other known
      split at found
      · rename_i nothing
        simpa [known] using nothing
      · exact absurd found (by simp)

/-- Mounted snapshots do not nest. -/
theorem eq_of_prefix {names others : List String} {other : Overlay} (first : sites.at? names = some overlay)
    (second : sites.at? others = some other) (held : names <+: others) : names = others := by
  induction names generalizing sites others with
  | nil => exact absurd first (by simp [at?])
  | cons name names ih =>
    obtain ⟨more, rfl⟩ := held
    rw [List.cons_append] at second ⊢
    rw [at?] at first second
    split at first
    · exact absurd first (by simp)
    · rename_i below known
      simp only [known] at second
      exact congrArg (name :: ·) (ih first second (List.prefix_append _ _))
    · rename_i mounted known
      simp only [known] at second
      split at second
      · rename_i nothing
        obtain ⟨rfl, rfl⟩ := List.append_eq_nil_iff.mp (List.isEmpty_iff.mp nothing)
        rfl
      · exact absurd second (by simp)

/-- Where there are sites, names lead to some snapshot. -/
theorem Neat.exists_at? (neat : sites.Neat) (some : sites ≠ nil) :
    ∃ names overlay, sites.at? names = Option.some overlay := by
  induction sites using consInduction with
  | nil => exact absurd rfl some
  | cons name site rest ihSite _ =>
    obtain ⟨_, here, _⟩ := neat_cons.mp neat
    cases site with
    | mount overlay => exact ⟨[name], overlay, at?_first []⟩
    | dir below =>
      obtain ⟨names, overlay, found⟩ := ihSite below rfl here.2 here.1
      exact ⟨name :: names, overlay, (at?_first names).trans found⟩

/-- A snapshot may be mounted where none is above or below. -/
theorem Neat.admits (neat : sites.Neat) {segments : List String} (someSegments : segments ≠ [])
    (apart : ∀ names overlay, sites.at? names = some overlay → names <+: segments ∨ segments <+: names →
    names = segments) :
    sites.admits segments := by
  induction segments generalizing sites with
  | nil => exact absurd rfl someSegments
  | cons segment rest ih =>
    rw [Sites.admits]
    split
    · rfl
    · rename_i mounted known
      have here : sites.at? [segment] = some mounted := by rw [at?_cons, known]; rfl
      have same := apart _ _ here (Or.inl (List.prefix_append [segment] rest))
      simp [(List.cons.inj same).2.symm]
    · rename_i below known
      obtain ⟨someBelow, neatBelow⟩ := neat.found known
      have inside : ∀ names overlay, below.at? names = some overlay → sites.at? (segment :: names) = some overlay := by
        intro names overlay found
        rw [at?_cons, known]
        exact found
      cases rest with
      | nil =>
        obtain ⟨names, overlay, found⟩ := neatBelow.exists_at? someBelow
        have same := apart _ _ (inside names overlay found) (Or.inr (List.prefix_append [segment] names))
        rw [(List.cons.inj same).2] at found
        exact absurd found (by simp [at?])
      | cons next rest =>
        refine ih neatBelow (by simp) fun names overlay found held => ?_
        refine (List.cons.inj (apart _ _ (inside names overlay found) ?_)).2
        exact held.imp (fun above => List.cons_prefix_cons.mpr ⟨rfl, above⟩) fun below =>
          List.cons_prefix_cons.mpr ⟨rfl, below⟩

theorem mem_overlays_of_find? (found : sites.find? name = some site) (member : overlay ∈ site.overlays) :
    overlay ∈ sites.overlays := by
  induction sites using consInduction with
  | nil => exact absurd found (by simp [find?])
  | cons key other rest _ ih =>
    rw [overlays_cons, List.mem_append]
    rw [find?_cons] at found
    split at found
    · exact Or.inl (Option.some.inj found ▸ member)
    · exact Or.inr (ih found)

theorem Neat.at?_of_rest (neat : (cons name site rest).Neat) {names : List String}
    (found : rest.at? names = some overlay) : (cons name site rest).at? names = some overlay := by
  cases names with
  | nil => exact absurd found (by simp [at?])
  | cons other names =>
    rw [at?_cons] at found ⊢
    obtain ⟨next, known, _⟩ := Option.bind_eq_some_iff.mp found
    have behind : other ∈ rest.names := Classical.byContradiction fun missing => by
      rw [find?_eq_none.mpr missing] at known
      exact absurd known (by simp)
    have differs : ¬ other = name := fun same => String.lt_irrefl _ ((neat_cons.mp neat).1 name (same ▸ behind))
    rwa [find?_cons, if_neg differs]

theorem Neat.at?_of_mem_overlays (neat : sites.Neat) (member : overlay ∈ sites.overlays) :
    ∃ names, sites.at? names = some overlay := by
  induction sites using consInduction with
  | nil => exact absurd member List.not_mem_nil
  | cons name site rest ihSite ih =>
    obtain ⟨_, here, neatRest⟩ := neat_cons.mp neat
    rw [overlays_cons, List.mem_append] at member
    rcases member with first | later
    · cases site with
      | mount other =>
        obtain rfl := List.mem_singleton.mp first
        exact ⟨[name], at?_first []⟩
      | dir below =>
        obtain ⟨names, found⟩ := ihSite below rfl here.2 first
        exact ⟨name :: names, (at?_first names).trans found⟩
    · obtain ⟨names, found⟩ := ih neatRest later
      exact ⟨names, neat.at?_of_rest found⟩

theorem mem_overlays_of_at? (neat : sites.Neat) {names : List String} (found : sites.at? names = some overlay) :
    overlay ∈ sites.overlays := by
  induction names generalizing sites with
  | nil => exact absurd found (by simp [at?])
  | cons name names ih =>
    rw [at?_cons] at found
    obtain ⟨site, known, here⟩ := Option.bind_eq_some_iff.mp found
    refine mem_overlays_of_find? known ?_
    cases site with
    | dir below => exact ih (neat.found known).2 here
    | mount other =>
      rw [Site.at?] at here
      split at here
      · exact List.mem_singleton.mpr (Option.some.inj here).symm
      · exact absurd here (by simp)

/-- The snapshots there are, are those to which names lead. -/
theorem mem_overlays (neat : sites.Neat) : overlay ∈ sites.overlays ↔ ∃ names, sites.at? names = some overlay :=
  ⟨neat.at?_of_mem_overlays, fun ⟨_, found⟩ => mem_overlays_of_at? neat found⟩

/-- Sites of which the snapshots are alike one by one. -/
inductive Alike (twin : List String → Overlay → Overlay → Prop) : List String → Sites → Sites → Prop
  | nil {names : List String} : Alike twin names nil nil
  | dir {names : List String} {name : String} {below below' rest rest' : Sites}
    (inside : Alike twin (names ++ [name]) below below')
      (behind : Alike twin names rest rest') : Alike twin names (dir name below rest) (dir name below' rest')
  | mount {names : List String} {name : String} {overlay overlay' : Overlay} {rest rest' : Sites}
      (here : twin (names ++ [name]) overlay overlay') (behind : Alike twin names rest rest') :
      Alike twin names (mount name overlay rest) (mount name overlay' rest')

theorem Neat.first (neat : (cons name site rest).Neat) :
    ∃ names overlay, (cons name site rest).at? (name :: names) = some overlay ∧ site.at? names = some overlay := by
  obtain ⟨_, here, _⟩ := neat_cons.mp neat
  cases site with
  | mount overlay => exact ⟨[], overlay, at?_first [], rfl⟩
  | dir below =>
    obtain ⟨names, overlay, found⟩ := here.2.exists_at? here.1
    exact ⟨names, overlay, (at?_first names).trans found, found⟩

theorem exists_cons (someSites : sites ≠ nil) : ∃ name site rest, sites = cons name site rest := by
  cases sites with
  | nil => exact absurd rfl someSites
  | dir name below rest => exact ⟨name, .dir below, rest, rfl⟩
  | mount name overlay rest => exact ⟨name, .mount overlay, rest, rfl⟩

/-- The first sibling does not stand behind any that leads to a snapshot. -/
theorem Neat.first_le (neat : (cons name site rest).Neat) {names : List String}
    (found : (cons name site rest).at? (key :: names) = some overlay) : key = name ∨ name < key := by
  rw [at?_cons] at found
  obtain ⟨other, known, _⟩ := Option.bind_eq_some_iff.mp found
  have member : key ∈ (cons name site rest).names := Classical.byContradiction fun missing => by
    rw [find?_eq_none.mpr missing] at known
    exact absurd known (by simp)
  rw [names_cons] at member
  exact (List.mem_cons.mp member).imp_right ((neat_cons.mp neat).1 key)

theorem Neat.at?_rest (neat : (cons name site rest).Neat) (names : List String) :
    rest.at? names = if names.head? = some name then none else (cons name site rest).at? names := by
  cases names with
  | nil => rfl
  | cons key names =>
    rw [at?_cons, at?_cons, find?_cons]
    by_cases same : key = name
    · have missing : rest.find? key = none := find?_eq_none.mpr fun member =>
        String.lt_irrefl _ ((neat_cons.mp neat).1 name (same ▸ member))
      rw [missing, Option.bind_none, List.head?_cons, if_pos (congrArg some same)]
    · rw [if_neg same, List.head?_cons, if_neg fun equal => same (Option.some.inj equal)]

/-- Nothing is mounted under the names in either sites, or snapshots that are alike. -/
def Both (twin : List String → Overlay → Overlay → Prop) (above : List String) (sites others : Sites)
    (names : List String) : Prop :=
  (sites.at? names = none ∧ others.at? names = none) ∨
    ∃ overlay other, sites.at? names = some overlay ∧ others.at? names = some other ∧
      twin (above ++ names) overlay other

variable {twin : List String → Overlay → Overlay → Prop} {above : List String} {others : Sites}

theorem Both.exists {names : List String} (both : Both twin above sites others names) :
    (∃ overlay, sites.at? names = some overlay) ↔ ∃ overlay, others.at? names = some overlay := by
  rcases both with ⟨first, second⟩ | ⟨overlay, other, first, second, _⟩
  · simp [first, second]
  · simp [first, second]

theorem Neat.eq_nil (neat : sites.Neat) (each : ∀ names, Both twin above nil sites names) : sites = nil := by
  by_contra someSites
  obtain ⟨names, overlay, found⟩ := neat.exists_at? someSites
  obtain ⟨_, none⟩ := (each names).exists.mpr ⟨overlay, found⟩
  rw [at?_nil] at none
  exact absurd none (by simp)

/-- The first siblings have one name if what is mounted is alike. -/
theorem Neat.same_first {site' : Site} {rest' : Sites} (neat : (cons name site rest).Neat)
    (neatOthers : (cons key site' rest').Neat)
    (each : ∀ names, Both twin above (cons name site rest) (cons key site' rest') names) : name = key := by
  obtain ⟨names, overlay, found, _⟩ := neat.first
  obtain ⟨other, foundOther⟩ := (each _).exists.mp ⟨overlay, found⟩
  obtain ⟨names', overlay', found', _⟩ := neatOthers.first
  obtain ⟨other', foundOther'⟩ := (each _).exists.mpr ⟨overlay', found'⟩
  rcases neatOthers.first_le foundOther with same | less
  · exact same
  · rcases neat.first_le foundOther' with same | greater
    · exact same.symm
    · exact absurd (String.lt_trans less greater) (String.lt_irrefl _)

/-- Sites without empty directories are alike if what is mounted is alike. -/
theorem Neat.alike (neat : sites.Neat) (neatOthers : others.Neat) (each : ∀ names, Both twin above sites others names) :
    Alike twin above sites others := by
  induction sites using consInduction generalizing above others with
  | nil =>
    obtain rfl := neatOthers.eq_nil each
    exact .nil
  | cons name site rest ihSite ih =>
    obtain ⟨names, overlay, found, _⟩ := neat.first
    obtain ⟨other, foundOther⟩ := (each _).exists.mp ⟨overlay, found⟩
    have someOthers : others ≠ nil := by
      rintro rfl
      rw [at?_nil] at foundOther
      exact absurd foundOther (by simp)
    obtain ⟨name', site', rest', rfl⟩ := exists_cons someOthers
    obtain rfl := neat.same_first neatOthers each
    have behind : Alike twin above rest rest' := by
      refine ih (neat_cons.mp neat).2.2 (neat_cons.mp neatOthers).2.2 fun names => ?_
      rw [Both, neat.at?_rest, neatOthers.at?_rest]
      split
      · exact Or.inl ⟨rfl, rfl⟩
      · exact each names
    have below : ∀ names, (site.at? names = none ∧ site'.at? names = none) ∨
        ∃ overlay other, site.at? names = some overlay ∧ site'.at? names = some other ∧
          twin (above ++ name :: names) overlay other := by
      intro names
      have both := each (name :: names)
      rwa [Both, at?_first, at?_first] at both
    obtain ⟨_, here, _⟩ := neat_cons.mp neat
    obtain ⟨_, here', _⟩ := neat_cons.mp neatOthers
    cases site with
    | mount overlay =>
      rcases below [] with ⟨none, _⟩ | ⟨_, other, first, second, alike⟩
      · exact absurd none (by simp [Site.at?])
      · obtain rfl := Option.some.inj first
        cases site' with
        | mount mounted =>
          obtain rfl := Option.some.inj second
          exact .mount alike behind
        | dir inner => exact absurd second (by simp [Site.at?, at?])
    | dir inner =>
      cases site' with
      | mount mounted =>
        rcases below [] with ⟨_, none⟩ | ⟨_, _, first, _⟩
        · exact absurd none (by simp [Site.at?])
        · exact absurd first (by simp [Site.at?, at?])
      | dir inner' =>
        refine .dir (ihSite inner rfl here.2 here'.2 fun names => ?_) behind
        have both := below names
        rwa [← List.singleton_append, ← List.append_assoc] at both

end Sites
end BackupAtlas
