import BackupAtlas.Proofs.PathQueries

namespace BackupAtlas

open TreePath

namespace TreePath

theorem pieces_of_plain {plain : List Char} (someChars : plain ≠ []) (noSlash : '/' ∉ plain) :
    pieces plain = [plain] := by
  induction plain with
  | nil => exact absurd rfl someChars
  | cons c rest ih =>
    obtain ⟨here, behind⟩ := not_or.mp (List.mem_cons.not.mp noSlash)
    rw [pieces, if_neg (Ne.symm here)]
    cases rest with
    | nil => rfl
    | cons d rest => rw [ih (by simp) behind]

/-- A file is cut off behind its directory. -/
theorem segments_dirOf_append {names : List String} {name : String} (areSteps : AreSteps names)
    (someName : name ≠ "") (noSlash : '/' ∉ name.toList) :
    segments (String.ofList (dirOf names ++ name.toList)) = names ++ [name] := by
  have someChars : name.toList ≠ [] := fun nothing => someName (String.toList_eq_nil_iff.mp nothing)
  rw [segments, String.toList_ofList, dirOf, List.cons_append, relative, pieces_flatten_append areSteps.toList,
    pieces_of_plain someChars noSlash]
  simp [Function.comp_def]

end TreePath

namespace GlobSegment

variable {dialect : Glob.Dialect}

/-- Names that match segments one by one. -/
def MatchAll (segments : List (GlobSegment dialect)) (names : List String) : Prop :=
  List.Forall₂ (fun segment name => segment.matchesName name = true) segments names

/-- What has been found below a path: of all names that are there those that match. -/
def Finds (segments : List (GlobSegment dialect)) (path : String) (there : List String → Prop) (found : List String) :
    Prop :=
  ∀ text, text ∈ found ↔ ∃ names, there names ∧ MatchAll segments names ∧ text = below path names

variable {segment : GlobSegment dialect} {segments : List (GlobSegment dialect)} {path : String} {found : List String}
variable {there other : List String → Prop}

/-- What is found depends on what is there only. -/
theorem Finds.congr (finds : Finds segments path there found) (same : ∀ names, there names ↔ other names) :
    Finds segments path other found := funext (fun names => propext (same names)) ▸ finds

theorem finds_nil (here : there []) : Finds ([] : List (GlobSegment dialect)) path there [path] := by
  intro text
  rw [List.mem_singleton]
  constructor
  · rintro rfl
    exact ⟨[], here, .nil, rfl⟩
  · rintro ⟨names, _, matching, rfl⟩
    cases matching
    rfl

/-- Below a file there is nothing but the file itself. -/
theorem finds_file (segments : List (GlobSegment dialect)) (path : String) :
    Finds segments path (· = []) (if segments.isEmpty then [path] else []) := by
  cases segments with
  | nil => exact finds_nil rfl
  | cons segment segments =>
    intro text
    simp only [List.isEmpty_cons, Bool.false_eq_true, if_false, List.not_mem_nil, false_iff]
    rintro ⟨names, rfl, matching, _⟩
    cases matching

/-- What is found below a directory is found below those of its entries that match. -/
theorem finds_entries (segment : GlobSegment dialect) {β : Type} {entries : List (String × β)}
    {step : String × β → Except Error (List String)}
    {inside : String → β → List String → Prop}
    (parts : ∀ name more, there (name :: more) ↔ ∃ b, (name, b) ∈ entries ∧ inside name b more)
    (each : ∀ name b, (name, b) ∈ entries → ∃ found, step (name, b) = .ok found ∧
      Finds segments (path ++ name) (inside name b) found) :
    ∃ found, (do pure (← (entries.filter fun entry => segment.matchesName entry.1).mapM step).flatten) =
        Except.ok found ∧ Finds (segment :: segments) path there found := by
  obtain ⟨results, ran, onto, back⟩ := mapM_ok fun (entry : String × β) listed =>
    each entry.1 entry.2 (List.mem_of_mem_filter listed)
  refine ⟨results.flatten, by rw [ran]; rfl, fun text => ?_⟩
  rw [List.mem_flatten]
  constructor
  · rintro ⟨found, listed, member⟩
    obtain ⟨⟨name, b⟩, kept, finds⟩ := back found listed
    obtain ⟨known, fits⟩ := List.mem_filter.mp kept
    obtain ⟨more, held, matching, rfl⟩ := (finds text).mp member
    exact ⟨name :: more, (parts name more).mpr ⟨b, known, held⟩, .cons fits matching, rfl⟩
  · rintro ⟨names, present, matching, rfl⟩
    obtain ⟨name, more, fits, behind, rfl⟩ := List.forall₂_cons_left_iff.mp matching
    obtain ⟨b, known, held⟩ := (parts name more).mp present
    obtain ⟨found, listed, finds⟩ := onto (name, b) (List.mem_filter.mpr ⟨known, fits⟩)
    exact ⟨found, listed, (finds _).mpr ⟨more, held, behind, rfl⟩⟩

end GlobSegment

namespace PathGlob

variable {dialect : Glob.Dialect}

/-- A path with as many segments as the glob, each of which matches at its depth. -/
def Matches (glob : PathGlob dialect) (path : String) : Prop :=
  glob.depth = (TreePath.segments path).length ∧
    ∀ depth name, (TreePath.segments path)[depth]? = some name → glob.matchesAt depth name

theorem matches_iff {glob : PathGlob dialect} {path : String} :
    glob.Matches path ↔ GlobSegment.MatchAll glob.segments (TreePath.segments path) := by
  rw [Matches, GlobSegment.MatchAll, List.forall₂_iff_get, PathGlob.depth]
  refine and_congr_right fun same => ?_
  constructor
  · intro each depth first second
    have here := each depth _ (List.getElem?_eq_getElem second)
    rw [PathGlob.matchesAt, List.getElem?_eq_getElem first] at here
    simpa using here
  · intro each depth name found
    obtain ⟨within, rfl⟩ := List.getElem?_eq_some_iff.mp found
    have here := each depth (same ▸ within) within
    rw [PathGlob.matchesAt, List.getElem?_eq_getElem (same ▸ within)]
    simpa using here

end PathGlob

namespace Inventory

/-- Names lead to a file or directory. -/
def Content.Has (content : Content) (names : List String) : Prop := ∃ found, find? names content = some found

/-- Nothing lies below a file. -/
theorem Content.has_file {names : List String} {stat : FileStat} : (file stat).Has names ↔ names = [] := by
  cases names with
  | nil => exact iff_of_true ⟨_, rfl⟩ rfl
  | cons => simp [Has, find?]

theorem Content.has_cons {name : String} {names : List String} {uid gid : Nat} {below : Inventory} :
    (dir uid gid below).Has (name :: names) ↔ ∃ inner, below.item? name = some inner ∧ inner.Has names := by
  simp only [Has, find?, Option.bind_eq_some_iff]
  constructor
  · rintro ⟨found, inner, item, led⟩
    exact ⟨inner, item, found, led⟩
  · rintro ⟨inner, item, found, led⟩
    exact ⟨found, inner, item, led⟩

/-- The files of a directory are those of its items. -/
theorem files_eq (inventory : Inventory) :
    inventory.files = inventory.items.flatMap fun item => item.2.files item.1 := by
  induction inventory with
  | done => rfl
  | file name stat rest ih | dir name uid gid below rest _ ih => rw [files, ih]; rfl

/-- A directory is led to by steps, and a file by steps and its name. -/
theorem Proper.has_names {names : List String} {uid gid : Nat} {inventory : Inventory} (proper : inventory.Proper)
    (held : (Content.dir uid gid inventory).Has names) :
    AreSteps names ∨ ∃ file ∈ inventory.files, names = file.dirs ++ [file.name] := by
  induction names generalizing uid gid inventory with
  | nil => exact Or.inl areSteps_nil
  | cons name names ih =>
    obtain ⟨inner, item, held⟩ := Content.has_cons.mp held
    have files : ∀ file ∈ inner.files name, file ∈ inventory.files := fun file member => by
      rw [files_eq]
      exact List.mem_flatMap_of_mem (proper.mem_items.mpr item) member
    rcases proper.item?_kind item with ⟨stat, rfl, _⟩ | ⟨uid', gid', below, rfl, known, _, properBelow⟩
    · obtain rfl := Content.has_file.mp held
      exact Or.inr ⟨⟨[], name, stat⟩, files _ (List.mem_singleton_self _), rfl⟩
    · rcases ih properBelow held with areSteps | ⟨file, listed, rfl⟩
      · exact Or.inl (areSteps.cons (proper.of_dir? known).1)
      · exact Or.inr ⟨file.within name, files _ (List.mem_map_of_mem listed), rfl⟩

end Inventory

/-- Names lead to a file or directory in a snapshot. -/
def Overlay.Contains (overlay : Overlay) (names : List String) : Prop :=
  ∃ uid gid inventory, inventory.Proper ∧ inventory.IsTop uid gid overlay.top ∧
    (Inventory.Content.dir uid gid inventory).Has names

/-- Names lead to a directory above the mounted snapshots, or to the root of one of them or into it. -/
inductive Sites.Present (sites : Sites) : List String → Prop
  | above {names : List String} {below : Sites} (leads : sites.locate names = some (.above below)) :
      Present sites names
  | inside {front rest : List String} {overlay : Overlay} (mounted : sites.at? front = some overlay)
      (held : overlay.Contains rest) : Present sites (front ++ rest)

/-- Names lead somewhere from one of several siblings. -/
def Site.Present (names : List String) : Site → Prop
  | dir below => below.Present names
  | mount overlay => overlay.Contains names

namespace Sites

variable {sites : Sites} {name : String} {names : List String} {site : Site}

theorem present_cons : sites.Present (name :: names) ↔ ∃ site, sites.find? name = some site ∧ site.Present names := by
  constructor
  · intro present
    generalize whole : name :: names = all at present
    cases present with
    | above leads =>
      subst whole
      rw [locate] at leads
      split at leads
      · exact absurd leads (by simp)
      · rename_i below known
        exact ⟨.dir below, known, .above leads⟩
      · exact absurd leads (by simp)
    | @inside front rest overlay mounted held =>
      cases front with
      | nil => exact absurd mounted (by simp [at?])
      | cons first front =>
        obtain ⟨rfl, rfl⟩ := List.cons.inj whole
        rw [at?_cons] at mounted
        obtain ⟨site, known, found⟩ := Option.bind_eq_some_iff.mp mounted
        refine ⟨site, known, ?_⟩
        cases site with
        | dir below => exact .inside found held
        | mount other =>
          cases front with
          | nil => exact Option.some.inj found ▸ held
          | cons => exact absurd found (by simp [Site.at?])
  · rintro ⟨site, known, present⟩
    cases site with
    | dir below =>
      cases present with
      | above leads => exact .above (by rw [locate, known]; exact leads)
      | @inside front rest overlay mounted held =>
        have mounted' : sites.at? (name :: front) = some overlay := by rw [at?_cons, known]; exact mounted
        exact .inside mounted' held
    | mount overlay =>
      have mounted : sites.at? [name] = some overlay := by rw [at?_cons, known]; rfl
      exact .inside mounted present

/-- Each name stands for one of the siblings. -/
theorem Neat.mem_entries (neat : sites.Neat) : (name, site) ∈ sites.entries ↔ sites.find? name = some site := by
  induction sites using consInduction with
  | nil => simp [entries, find?]
  | cons key first rest _ ih =>
    obtain ⟨above, _, neatRest⟩ := neat_cons.mp neat
    have entries : (cons key first rest).entries = (key, first) :: rest.entries := by cases first <;> rfl
    rw [entries, find?_cons, List.mem_cons, Prod.mk.injEq, ih neatRest]
    split
    · rename_i same
      subst same
      have apart : rest.find? name = none := find?_eq_none.mpr fun member => String.lt_irrefl _ (above name member)
      simp [apart, eq_comm]
    · rename_i differ
      simp [differ]

end Sites

namespace Atlas

variable {dialect : Glob.Dialect} {rule : List String → List Char → Nat} {names : List String} {uid gid : Nat}
variable {inventory : Inventory} {view : View}

/-- Globs find in a snapshot what matches of its contents. -/
theorem expandView_spec (shows' : view.Shows rule names uid gid inventory) (segments : List (GlobSegment dialect))
    (path : String) : ∃ found, expandView path view segments = .ok found ∧
      GlobSegment.Finds segments path (Inventory.Content.dir uid gid inventory).Has found := by
  induction segments generalizing names uid gid inventory view path with
  | nil => exact ⟨[path], rfl, GlobSegment.finds_nil ⟨_, rfl⟩⟩
  | cons segment rest ih =>
    obtain ⟨entries, read, enlisted⟩ := shows'.entries
    obtain ⟨onto, back⟩ := exists_of_forall₂ enlisted
    have parts : ∀ name more, (Inventory.Content.dir uid gid inventory).Has (name :: more) ↔
        ∃ b, (name, b) ∈ entries ∧ ∃ inner, inventory.item? name = some inner ∧ inner.Has more := by
      intro name more
      rw [Inventory.Content.has_cons]
      constructor
      · rintro ⟨inner, item, held⟩
        obtain ⟨⟨_, b⟩, listed, rfl, _⟩ := back (name, inner) (shows'.proper.mem_items.mpr item)
        exact ⟨b, listed, inner, item, held⟩
      · rintro ⟨_, _, here⟩
        exact here
    rw [expandView, read]
    refine GlobSegment.finds_entries segment parts ?_
    intro name b listed
    obtain ⟨⟨_, inner⟩, member, rfl, seen⟩ := onto _ listed
    have known := shows'.proper.mem_items.mp member
    cases seen with
    | file =>
      refine ⟨_, rfl, (GlobSegment.finds_file rest (path ++ name)).congr fun more => ?_⟩
      simp [known, Inventory.Content.has_file]
    | dir showsBelow =>
      obtain ⟨found, ran, finds⟩ := ih showsBelow (path ++ name)
      refine ⟨found, ran, finds.congr fun more => ?_⟩
      simp [known]

/-- What is contained in a snapshot can be said of any contents that it shows. -/
theorem contains_iff {overlay : Overlay} (shows' : overlay.view.Shows rule names uid gid inventory)
    {more : List String} : overlay.Contains more ↔ (Inventory.Content.dir uid gid inventory).Has more := by
  constructor
  · rintro ⟨_, _, other, proper, isTop, held⟩
    obtain ⟨rfl, rfl, rfl⟩ := shows'.lower.unique isTop shows'.proper proper
    exact held
  · exact fun held => ⟨uid, gid, inventory, shows'.proper, shows'.lower, held⟩

/-- Globs find, above snapshots and in them, what matches. -/
theorem expandSites_spec {sites : Sites} (neat : sites.Neat) (shown : ∀ names overlay, sites.at? names = some overlay →
      ∃ rule names uid gid inventory, overlay.view.Shows rule names uid gid inventory)
    (segments : List (GlobSegment dialect)) (path : String) : ∃ found,
      expandSites path sites segments = .ok found ∧ GlobSegment.Finds segments path sites.Present found := by
  induction segments generalizing sites path with
  | nil => exact ⟨[path], rfl, GlobSegment.finds_nil (.above rfl)⟩
  | cons segment rest ih =>
    have parts : ∀ name more, sites.Present (name :: more) ↔
        ∃ site, (name, site) ∈ sites.entries ∧ site.Present more := by
      intro name more
      simp only [Sites.present_cons, neat.mem_entries]
    rw [expandSites]
    refine GlobSegment.finds_entries segment parts ?_
    intro name site listed
    have known := neat.mem_entries.mp listed
    have behind : ∀ more, sites.at? (name :: more) = site.at? more := fun more => by
      rw [Sites.at?_cons, known, Option.bind_some]
    cases site with
    | dir below =>
      have below' : ∀ names overlay, below.at? names = some overlay → _ := fun names overlay found =>
        shown (name :: names) overlay ((behind names).trans found)
      exact ih (neat.found known).2 below' (path ++ name)
    | mount overlay =>
      obtain ⟨rule, names, uid, gid, inventory, shows'⟩ := shown [name] overlay (behind [])
      obtain ⟨found, ran, finds⟩ := expandView_spec shows' rest (path ++ name)
      exact ⟨found, ran, finds.congr fun more => (contains_iff shows').symm⟩

variable {atlas : Atlas}

/-- A path of a directory above the mounted snapshots, of the root of one of them, or of something in it. -/
def Has (atlas : Atlas) (path : String) : Prop := ∃ names, atlas.sites.Present names ∧ path = below "/" names

/-- The names that lead somewhere are the segments of the path. -/
theorem Readable.segments_below (readable : atlas.Readable) (present : atlas.sites.Present names) :
    segments (below "/" names) = names := by
  have path : below "/" names = String.ofList (dirOf names) := by
    rw [← String.toList_inj, ← ofList_dirOf_nil, Inventory.toList_below_dirOf, String.toList_ofList, List.nil_append]
  rw [path]
  cases present with
  | @above names below leads =>
    refine segments_dirOf ?_
    by_cases nothing : names = []
    · exact nothing ▸ areSteps_nil
    · obtain ⟨someSites, neat⟩ := (Sites.locate_above leads []).1 nothing readable.served.neat
      obtain ⟨more, overlay, found⟩ := neat.exists_at? someSites
      rw [(Sites.locate_above leads more).2] at found
      exact (readable.served.each _ _ found).steps.of_prefix (List.prefix_append names more)
  | @inside front rest overlay mounted held =>
    have served := readable.served.each _ _ mounted
    obtain ⟨uid, gid, inventory, proper, isTop, held⟩ := held
    rcases proper.has_names held with areSteps | ⟨file, listed, rfl⟩
    · exact segments_dirOf (served.steps.append areSteps)
    · obtain ⟨_, _, _, other, shows', named⟩ := served.shows
      obtain ⟨_, _, rfl⟩ := shows'.lower.unique isTop shows'.proper proper
      obtain ⟨areDirs, noSlash, _⟩ := proper.file file listed
      rw [← List.append_assoc, dirOf_snoc]
      exact segments_dirOf_append (served.steps.append areDirs) (named file listed) noSlash

/-- Globs find what is there and matches one of them, in ascending order. -/
theorem Readable.globPaths_spec (readable : atlas.Readable) {patterns : List String} {globs : List (PathGlob dialect)}
    (parsed : patterns.mapM PathGlob.parse = .ok globs) : ∃ found, atlas.globPaths patterns dialect = .ok found ∧
      found.Pairwise (· < ·) ∧ ∀ path, path ∈ found ↔ atlas.Has path ∧ ∃ glob ∈ globs, glob.Matches path := by
  obtain ⟨results, ran, onto, back⟩ := mapM_ok fun glob (_ : glob ∈ globs) =>
    expandSites_spec readable.served.neat (fun names overlay found => by
      obtain ⟨rule, uid, gid, inventory, shows', _⟩ := (readable.served.each names overlay found).shows
      exact ⟨rule, names, uid, gid, inventory, shows'⟩) glob.segments "/"
  refine ⟨_, by simp only [globPaths, parsed, ran, bind, Except.bind]; rfl, ?_, fun path => ?_⟩
  · exact List.pairwise_map.mpr (Catalog.ascending _)
  · have same : (fun entry : String × Unit => entry.1) ∘ (fun path => (path, ())) = id := rfl
    rw [Catalog.mem_names_ofList, List.map_map, same, List.map_id, List.mem_flatten]
    constructor
    · rintro ⟨found, listed, member⟩
      obtain ⟨glob, known, finds⟩ := back found listed
      obtain ⟨names, present, matching, rfl⟩ := (finds path).mp member
      refine ⟨⟨names, present, rfl⟩, glob, known, PathGlob.matches_iff.mpr ?_⟩
      rw [readable.segments_below present]
      exact matching
    · rintro ⟨⟨names, present, rfl⟩, glob, known, matching⟩
      obtain ⟨found, listed, finds⟩ := onto glob known
      rw [PathGlob.matches_iff, readable.segments_below present] at matching
      exact ⟨found, listed, (finds _).mpr ⟨names, present, matching, rfl⟩⟩

/-- Whatever has been done to an atlas, globs find exactly the paths that are there and match one of them segment by
segment, each once and in ascending order. -/
theorem globPaths_exact {rules : RuleSet} {start : Atlas} (idsFit : rules.IdsFit) (loaded : ofRules rules = .ok start)
    {calls : List Call} (plain : ∀ call ∈ calls, call.Plain) {patterns : List String} {globs : List (PathGlob dialect)}
    (parsed : patterns.mapM PathGlob.parse = .ok globs) :
    ∃ found, (start.afterCalls calls).globPaths patterns dialect = .ok found ∧ found.Pairwise (· < ·) ∧
      ∀ path, path ∈ found ↔ (start.afterCalls calls).Has path ∧ ∃ glob ∈ globs, glob.Matches path :=
  ((readable_of_ofRules idsFit loaded).afterCalls plain).globPaths_spec parsed

/-- A glob leads through a directory into a snapshot. -/
theorem globPaths_exact_into_snapshot : ∃ (start : Atlas) (lower : StoredTree) (globs : List PathGlob)
    (found : List String), ofRules .empty = .ok start ∧ (Call.addTree lower "tree").Plain ∧
    ["/a/*/c", "/a/b/"].mapM PathGlob.parse = .ok globs ∧
    (start.afterCalls [.addTree lower "tree"]).globPaths ["/a/*/c", "/a/b/"] = .ok found ∧
    (∀ path, path ∈ found ↔ (start.afterCalls [.addTree lower "tree"]).Has path ∧ ∃ glob ∈ globs, glob.Matches path) ∧
    "/a/b/c" ∈ found := by
  obtain ⟨census, start, lower, overlay, ⟨recorded, fits, _⟩, begun, opened, ⟨_, _, _, mounted⟩, tagged⟩ :=
    exists_mounted RuleSet.regular_empty
  have plain : (Call.addTree lower "tree").Plain := ⟨census, recorded, fits, opened⟩
  have segments : ∃ first second, ["/a/*/c", "/a/b/"].mapM PathGlob.parse = .ok [first, second] ∧
      (first : PathGlob).segments = [⟨[.literal 'a'], true⟩, ⟨[.run], true⟩, ⟨[.literal 'c'], false⟩] :=
    ⟨_, _, rfl, rfl⟩
  obtain ⟨first, second, parsed, spelt⟩ := segments
  obtain ⟨found, ran, _, exact⟩ := globPaths_exact RuleSet.regular_empty.idsFit begun (fun call member => by
    obtain rfl := List.mem_singleton.mp member
    exact plain) parsed
  refine ⟨start, lower, _, found, begun, plain, parsed, ran, exact, (exact _).mpr ⟨?_, first, by simp, ?_⟩⟩
  · have held : overlay.Contains ["b/", "c"] := ⟨1, 2, _, tagged.mountable.proper, tagged.isTop, _, rfl⟩
    exact ⟨_, .inside mounted held, by decide⟩
  · have path : TreePath.segments "/a/b/c" = ["a/", "b/", "c"] := by decide +kernel
    rw [PathGlob.matches_iff, spelt, path]
    exact .cons (by decide +kernel) (.cons (by decide +kernel) (.cons (by decide +kernel) .nil))

end Atlas
end BackupAtlas
