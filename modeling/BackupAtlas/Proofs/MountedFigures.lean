import BackupAtlas.Proofs.Globs
import BackupAtlas.Proofs.Routes

namespace BackupAtlas

open TreePath

namespace Entries

variable {α : Type}

theorem insert_last {name : String} (value : α) {entries : List (String × α)}
    (above : ∀ entry ∈ entries, entry.1 < name) :
    insert name value entries = entries ++ [(name, value)] := by
  induction entries with
  | nil => rfl
  | cons entry entries ih =>
    have less : entry.1 < name := above entry List.mem_cons_self
    have differs : name ≠ entry.1 := fun same => String.lt_irrefl name (same ▸ less)
    rw [insert, if_neg (String.lt_asymm less), if_neg differs,
      ih fun other member => above other (List.mem_cons_of_mem _ member), List.cons_append]

end Entries

/-- Ascending entries stay as they are. -/
theorem Catalog.entries_ofList {α : Type} {entries : List (String × α)} (ascending : Entries.Ascending entries) :
    (ofList entries).entries = entries := by
  induction entries using List.reverseRecOn with
  | nil => rfl
  | append_singleton entries entry ih =>
    obtain ⟨before, _, apart⟩ := List.pairwise_append.mp ascending
    rw [ofList, List.foldl_append]
    change Entries.insert entry.1 entry.2 (ofList entries).entries = _
    rw [ih before]
    exact Entries.insert_last entry.2 fun other member => apart other member entry List.mem_cons_self

namespace Share

/-- Lists of shares that are merged in some order and grouping. -/
inductive Merging where
  | nothing
  | one (shares : List Share)
  | both (left right : Merging)

namespace Merging

def parts : Merging → List (List Share)
  | nothing => []
  | one shares => [shares]
  | both left right => left.parts ++ right.parts

def result : Merging → List Share
  | nothing => []
  | one shares => shares
  | both left right => merge left.result right.result

end Merging

/-- The lists come to these shares, in whatever order and grouping they are merged. -/
def Adds (lists : List (List Share)) (shares : List Share) : Prop :=
  ∀ merging : Merging, merging.parts.Perm lists → merging.result = shares

/-- However shares are merged, the result is the sum of their books. -/
theorem Merging.result_eq {merging : Merging} {books : List (Book ledger)}
    (same : merging.parts = books.map Book.entries) : merging.result = books.sum.entries := by
  induction merging generalizing books with
  | nothing =>
    obtain rfl := List.map_eq_nil_iff.mp same.symm
    rfl
  | one shares =>
    obtain ⟨book, rfl, rfl⟩ := List.map_eq_singleton_iff.mp same.symm
    rw [List.sum_singleton]
    rfl
  | both left right ihLeft ihRight =>
    obtain ⟨first, second, rfl, here, there⟩ := List.map_eq_append_iff.mp same.symm
    rw [result, ihLeft here.symm, ihRight there.symm, merge_eq _ (Book.normal _), List.sum_append, Book.entries_plus]

theorem foldl_merge (book : Book ledger) (books : List (Book ledger)) :
    (books.map Book.entries).foldl merge book.entries = (book + books.sum).entries := by
  induction books generalizing book with
  | nil => exact congrArg Book.entries (add_zero book).symm
  | cons next books ih =>
    rw [List.map_cons, List.foldl_cons, merge_eq _ next.normal, ← Book.entries_plus, ih, List.sum_cons, add_assoc]

/-- Shares that are in order make up books. -/
theorem exists_books {lists : List (List Share)} (normal : ∀ shares ∈ lists, ledger.Normal shares) :
    ∃ books : List (Book ledger), lists = books.map Book.entries := by
  induction lists with
  | nil => exact ⟨[], rfl⟩
  | cons shares lists ih =>
    obtain ⟨books, rfl⟩ := ih fun other member => normal other (List.mem_cons_of_mem _ member)
    exact ⟨⟨shares, normal shares List.mem_cons_self⟩ :: books, rfl⟩

theorem adds_books (books : List (Book ledger)) : Adds (books.map Book.entries) books.sum.entries := by
  intro merging perm
  obtain ⟨order, same⟩ := exists_books fun shares member => by
    obtain ⟨book, _, rfl⟩ := List.mem_map.mp (perm.subset member)
    exact book.normal
  have injective : Function.Injective (@Book.entries Share ledger) := fun a b equal => by
    obtain ⟨_, _⟩ := a
    cases equal
    rfl
  rw [same, List.map_perm_map_iff injective] at perm
  rw [Merging.result_eq same, perm.sum_eq]

end Share

/-- The shares are those that the snapshots have at their roots, added up. -/
def Overlay.Hold (overlays : List Overlay) (shares : List Share) : Prop :=
  ∃ books : List (Book Share.ledger),
    overlays.mapM (·.view.shares) = .ok (books.map Book.entries) ∧ shares = books.sum.entries

theorem Overlay.Hold.normal {overlays : List Overlay} {shares : List Share} (hold : Hold overlays shares) :
    Share.ledger.Normal shares := by
  obtain ⟨books, _, rfl⟩ := hold
  exact Book.normal _

namespace Sites

variable {sites : Sites} {name : String} {site : Site} {rest : Sites}

theorem hold_append {front back : List Overlay} {shares more : List Share} (hold : Overlay.Hold front shares)
    (also : Overlay.Hold back more) : Overlay.Hold (front ++ back) (Share.merge shares more) := by
  obtain ⟨books, read, rfl⟩ := hold
  obtain ⟨others, readAlso, rfl⟩ := also
  refine ⟨books ++ others, ?_, ?_⟩
  · rw [List.mapM_append, read, readAlso, List.map_append]
    rfl
  · rw [Share.merge_eq _ (Book.normal _), List.sum_append, Book.entries_plus]

theorem entries_cons : (cons name site rest).entries = (name, site) :: rest.entries := by cases site <;> rfl

/-- The snapshots below a directory are those of its entries, one entry after another. -/
theorem overlays_eq (sites : Sites) : sites.overlays = sites.entries.flatMap (·.2.overlays) := by
  induction sites using consInduction with
  | nil => rfl
  | cons name site rest _ ih => rw [overlays_cons, entries_cons, List.flatMap_cons, ih]

/-- Figures of siblings, each with what is mounted there. -/
def Counted (entries : List (String × Site)) (digests : List (String × Digest)) : Prop :=
  List.Forall₂ (fun (entry : String × Site) (item : String × Digest) =>
    item.1 = entry.1 ∧ Overlay.Hold entry.2.overlays item.2.shares) entries digests

/-- To merge the shares of further entries counts their snapshots, too. -/
theorem Counted.foldl {entries : List (String × Site)} {digests : List (String × Digest)}
    (counted : Counted entries digests) {front : List Overlay} {shares : List Share} (before : Overlay.Hold front shares) :
    Overlay.Hold (front ++ entries.flatMap (·.2.overlays))
      (digests.foldl (fun shares item => Share.merge shares item.2.shares) shares) := by
  induction counted generalizing front shares with
  | nil => rwa [List.flatMap_nil, List.append_nil]
  | cons here _ ih =>
    rw [List.flatMap_cons, ← List.append_assoc, List.foldl_cons]
    exact ih (hold_append before here.2)

/-- Siblings together have what is mounted anywhere among them. -/
theorem Counted.total {digests : List (String × Digest)} (counted : Counted sites.entries digests) :
    Overlay.Hold sites.overlays (total digests).shares := by
  have nothing : Overlay.Hold [] [] := ⟨[], rfl, rfl⟩
  rw [overlays_eq]
  exact counted.foldl nothing

/-- It makes no difference how the siblings are put together. -/
theorem Counted.adds {entries : List (String × Site)} {digests : List (String × Digest)}
    (counted : Counted entries digests) :
    Share.Adds (digests.map fun item => item.2.shares) (Sites.total digests).shares := by
  obtain ⟨books, same⟩ := Share.exists_books fun shares member => by
    obtain ⟨item, listed, rfl⟩ := List.mem_map.mp member
    obtain ⟨_, _, _, hold⟩ := (exists_of_forall₂ counted).2 item listed
    exact hold.normal
  have folded := Share.foldl_merge 0 books
  rw [zero_add, ← same, List.foldl_map] at folded
  rw [show (Sites.total digests).shares = books.sum.entries from folded, same]
  exact Share.adds_books books

/-- A mounted snapshot is counted in each directory that leads to it. -/
theorem exists_counted (each : ∀ overlay ∈ sites.overlays, ∃ digest, overlay.view.digest = .ok digest ∧
      Overlay.Hold [overlay] digest.shares) :
    ∃ digests, sites.digests = .ok digests ∧ Counted sites.entries digests := by
  induction sites using consInduction with
  | nil => exact ⟨[], rfl, .nil⟩
  | cons name site rest ihSite ih =>
    rw [overlays_cons] at each
    obtain ⟨others, behind, counted⟩ := ih fun overlay member => each overlay (List.mem_append_right _ member)
    rw [entries_cons]
    cases site with
    | dir below =>
      obtain ⟨inner, inside, countedBelow⟩ := ihSite below rfl fun overlay member =>
        each overlay (List.mem_append_left _ member)
      refine ⟨(name, Sites.total inner) :: others, ?_, .cons ⟨rfl, countedBelow.total⟩ counted⟩
      simp only [cons, digests, inside, behind, bind, Except.bind, pure, Except.pure]
    | mount overlay =>
      obtain ⟨digest, shown, hold⟩ := each overlay (List.mem_append_left _ List.mem_cons_self)
      refine ⟨(name, digest) :: others, ?_, .cons ⟨rfl, hold⟩ counted⟩
      simp only [cons, digests, shown, behind, bind, Except.bind, pure, Except.pure]

theorem names_eq (sites : Sites) : sites.names = sites.entries.map (·.1) := by
  induction sites using consInduction with
  | nil => rfl
  | cons name site rest _ ih => rw [names_cons, entries_cons, List.map_cons, ih]

/-- Sites are in the order of their names. -/
theorem Neat.names_ascending (neat : sites.Neat) : sites.names.Pairwise (· < ·) := by
  induction sites using consInduction with
  | nil => exact .nil
  | cons name site rest _ ih =>
    obtain ⟨above, _, neatRest⟩ := neat_cons.mp neat
    rw [names_cons]
    exact .cons above (ih neatRest)

theorem Counted.names {entries : List (String × Site)} {digests : List (String × Digest)}
    (counted : Counted entries digests) : digests.map (·.1) = entries.map (·.1) := by
  induction counted with
  | nil => rfl
  | cons here _ ih => rw [List.map_cons, List.map_cons, here.1, ih]

end Sites

theorem Sites.at?_site {sites below : Sites} {names : List String} (located : sites.locate names = some (.above below))
    {name : String} {site : Site} (known : below.find? name = some site) (more : List String) :
    sites.at? (names ++ [name] ++ more) = site.at? more := by
  rw [List.append_assoc, ← (locate_above located _).2, List.singleton_append, at?_cons, known, Option.bind_some]

/-- The snapshots at a site are those to which names lead. -/
theorem Site.mem_overlays {site : Site} (neat : site.Neat) {overlay : Overlay} :
    overlay ∈ site.overlays ↔ ∃ names, site.at? names = some overlay := by
  cases site with
  | dir below => exact Sites.mem_overlays neat.2
  | mount other =>
    constructor
    · intro member
      exact ⟨[], congrArg some (List.mem_singleton.mp member).symm⟩
    · rintro ⟨names, found⟩
      rw [at?] at found
      split at found
      · exact List.mem_singleton.mpr (Option.some.inj found).symm
      · exact absurd found (by simp)

theorem Site.Neat.exists_at? {site : Site} (neat : site.Neat) : ∃ names overlay, site.at? names = some overlay := by
  cases site with
  | dir below => exact neat.2.exists_at? neat.1
  | mount overlay => exact ⟨[], overlay, rfl⟩

theorem Tally.map_bare {tallies : List Tally} (nameless : ∀ tally ∈ tallies, tally.name = "") (label : Tally → String) :
    (tallies.map fun tally => { tally with name := label tally }).map (fun tally => { tally with name := "" }) =
      tallies := by
  rw [List.map_map]
  refine (List.map_congr_left fun tally member => ?_).trans (List.map_id tallies)
  show { tally with name := "" } = tally
  rw [← nameless tally member]

/-- What is put in where figures are shown can be told apart from them. -/
theorem Digest.bare_shown {digest : Digest} (normal : Share.ledger.Normal digest.shares) (naming : Naming)
    (claimant : String) :
    (Digest.named naming { digest with claimedBy := claimant }).shares.map Share.bare = digest.shares := by
  rw [Digest.named, List.map_map]
  refine (List.map_congr_left fun share member => ?_).trans (List.map_id digest.shares)
  obtain ⟨users, groups⟩ := normal.good share member
  show Share.mk _ _ _ = share
  rw [Tally.map_bare users.good, Tally.map_bare groups.good]

namespace Overlay

variable {overlays : List Overlay} {shares : List Share}

theorem Hold.adds (hold : Hold overlays shares) :
    ∃ roots, overlays.mapM (·.view.shares) = .ok roots ∧ Share.Adds roots shares := by
  obtain ⟨books, read, rfl⟩ := hold
  exact ⟨_, read, Share.adds_books books⟩

/-- The figures of a served snapshot hold that snapshot. -/
theorem Served.hold {names : List String} {overlay : Overlay} (served : overlay.Served names) :
    ∃ digest, overlay.view.digest = .ok digest ∧ Hold [overlay] digest.shares := by
  obtain ⟨rule, uid, gid, inventory, shows', _⟩ := served.shows
  refine ⟨_, shows'.digest, [⟨_, Share.tabulate_normal (inventory.charges rule names)⟩], ?_, ?_⟩
  · rw [List.mapM_cons, shows'.shares]
    rfl
  · rw [List.sum_singleton]
    rfl

end Overlay

namespace Atlas

variable {atlas : Atlas} {path : String}

/-- The figures of a directory are those that the snapshots below it have at their roots, put together anyhow, and it is
claimed by whoever has claimed its path. -/
structure Totals (atlas : Atlas) (path : String) (digest : Digest) : Prop where
  once : (atlas.mountedBelow path).Nodup
  shares : ∃ roots, (atlas.mountedBelow path).mapM (·.view.shares) = .ok roots ∧
    Share.Adds roots (digest.shares.map Share.bare)
  claimedBy : digest.claimedBy = atlas.claimant path

/-- What is shown for a directory above mounted snapshots. -/
structure SumsUp (atlas : Atlas) (path : String) (summary : Summary) : Prop where
  whole : atlas.Totals path summary.digest
  children : ∀ name, name ∈ summary.children.names ↔
    ∃ root ∈ atlas.mounts, ∃ rest, segments root = segments path ++ name :: rest
  each : ∀ name child, summary.children.get? name = some child → atlas.Totals (path ++ name) child
  together : Share.Adds (summary.children.values.map fun child => child.shares.map Share.bare)
    (summary.digest.shares.map Share.bare)

section

variable (seated : atlas.Seated) {below : Sites} (located : atlas.sites.locate (segments path) = some (.above below))

include seated

theorem Seated.absolute_above (above : atlas.IsAbove path) : path.toList.head? = some '/' ∧ isDir path := by
  rcases above with rfl | ⟨ends, root, listed, within, _⟩
  · exact ⟨rfl, by decide⟩
  · obtain ⟨overlay, member, rfl⟩ := mem_mounts.mp listed
    refine ⟨?_, ends⟩
    obtain ⟨rest, same⟩ := isWithin_iff.mp within
    have absolute := seated.root_absolute member
    cases characters : path.toList with
    | nil => simp [isDir, characters] at ends
    | cons c more => simpa [← same, characters] using absolute

include located

/-- The siblings in a directory are the names by which the ways to snapshots go on. -/
theorem Seated.mem_names_above (name : String) : name ∈ below.names ↔
    ∃ root ∈ atlas.mounts, ∃ rest, segments root = segments path ++ name :: rest := by
  obtain ⟨neat, _⟩ := seated.located located
  constructor
  · intro member
    obtain ⟨site, known⟩ := Option.ne_none_iff_exists'.mp (Sites.find?_eq_none.not.mpr (not_not.mpr member))
    obtain ⟨more, overlay, found⟩ := (neat.found known).exists_at?
    rw [← Sites.at?_site located known more] at found
    obtain ⟨listed, same⟩ := seated.seated.mp found
    refine ⟨overlay.root, mem_mounts.mpr ⟨overlay, listed, rfl⟩, more, ?_⟩
    rw [← same, List.append_assoc, List.singleton_append]
  · rintro ⟨root, listed, rest, same⟩
    obtain ⟨overlay, member, rfl⟩ := mem_mounts.mp listed
    have found := seated.seated.mpr ⟨member, same.symm⟩
    rw [← (Sites.locate_above located _).2] at found
    exact Sites.mem_names_of_at? found

theorem Seated.overlays_site (absolute : path.toList.head? = some '/') {name : String} {site : Site}
    (known : below.find? name = some site) : site.overlays = atlas.mountedBelow (path ++ name) := by
  obtain ⟨neat, _⟩ := seated.located located
  have here := neat.found known
  have leads := Sites.at?_site located known
  obtain ⟨more, overlay, found⟩ := here.exists_at?
  have areSteps : AreSteps (segments path ++ [name]) :=
    (seated.each _ _ ((leads more).trans found)).steps.of_prefix (List.prefix_append _ _)
  have ascending : site.overlays.Pairwise fun overlay other => overlay.root < other.root := by
    cases site with
    | mount overlay => exact List.pairwise_singleton _ _
    | dir inner =>
      exact Sites.Every.ascending (segments path ++ [name]) ⟨here.2, fun more overlay found =>
        seated.each _ _ ((leads more).trans found)⟩
  have same := seated.eq_mountedBelow areSteps ascending fun overlay => by
    simp only [leads]
    exact Site.mem_overlays here
  rwa [dirOf_snoc, ← toList_of_absolute absolute, String.ofList_append, String.ofList_toList,
    String.ofList_toList] at same

end

/-- The figures of a directory above snapshots that can all be read. -/
theorem Readable.figures_above (readable : atlas.Readable) (seated : atlas.Seated) (above : atlas.IsAbove path) :
    ∃ below digests, atlas.sites.locate (segments path) = some (.above below) ∧ Sites.Counted below.entries digests ∧
      atlas.figures path = .ok { digest := Sites.total digests, children := .ofList digests } := by
  obtain ⟨absolute, ends⟩ := seated.absolute_above above
  obtain ⟨below, routed⟩ := (seated.route_above_iff absolute).mpr above
  have located := route_above.mp routed
  obtain ⟨neat, each⟩ := readable.served.located located
  have shown : ∀ overlay ∈ below.overlays, ∃ digest, overlay.view.digest = .ok digest ∧
      Overlay.Hold [overlay] digest.shares := by
    intro overlay member
    obtain ⟨more, found⟩ := (Sites.mem_overlays neat).mp member
    exact (each more overlay found).hold
  obtain ⟨digests, added, counted⟩ := Sites.exists_counted shown
  refine ⟨below, digests, located, counted, ?_⟩
  have led : atlas.target path = .ok (.above below) := by rw [target, located]
  simp only [figures, led, bind, Except.bind, if_pos ends, Sites.summary, added]
  rfl

/-- What a query shows for such a directory: names put in, and claimants. -/
theorem summary_eq (naming : Naming) {digest : Digest} {digests : List (String × Digest)}
    (ascending : Entries.Ascending digests) (known : atlas.figures path = .ok { digest, children := .ofList digests }) :
    ∃ summary, atlas.summary naming path = .ok summary ∧
      summary.digest = Digest.named naming { digest with claimedBy := atlas.claimant path } ∧
      summary.children.entries = digests.map fun item =>
        (item.1, Digest.named naming { item.2 with claimedBy := atlas.claimant (path ++ item.1) }) := by
  refine ⟨_, by rw [summary, known]; rfl, rfl, ?_⟩
  have entries := Catalog.entries_ofList ascending
  change Entries.map (fun _ => Digest.named naming) (Entries.map (fun name (child : Digest) =>
    { child with claimedBy := atlas.claimant (path ++ name) }) (Catalog.ofList digests).entries) = _
  rw [entries, Entries.map, Entries.map, List.map_map]
  rfl

theorem Readable.sumsUp (readable : atlas.Readable) (above : atlas.IsAbove path) (naming : Naming) :
    ∃ summary, atlas.summary naming path = .ok summary ∧ atlas.SumsUp path summary := by
  have seated : atlas.Seated :=
    ⟨readable.served.neat, fun names overlay found => (readable.served.each _ _ found).toSeat⟩
  obtain ⟨absolute, _⟩ := seated.absolute_above above
  obtain ⟨below, digests, located, counted, figures⟩ := readable.figures_above seated above
  obtain ⟨neat, _⟩ := seated.located located
  have names : digests.map (·.1) = below.names := counted.names.trans (Sites.names_eq below).symm
  have ascending : Entries.Ascending digests := by
    rw [Entries.Ascending, ← List.pairwise_map (f := fun item : String × Digest => item.1) (R := (· < ·)), names]
    exact neat.names_ascending
  obtain ⟨summary, shown, digest, children⟩ := summary_eq naming ascending figures
  have whole := counted.total
  rw [seated.overlays_above absolute located] at whole
  have bare : summary.digest.shares.map Share.bare = (Sites.total digests).shares := by
    rw [digest]
    exact Digest.bare_shown whole.normal naming _
  have inner : ∀ item ∈ digests, ∃ site, below.find? item.1 = some site ∧ Overlay.Hold site.overlays item.2.shares := by
    intro item member
    obtain ⟨⟨name, site⟩, listed, same, hold⟩ := (exists_of_forall₂ counted).2 item member
    exact ⟨site, same ▸ neat.mem_entries.mp listed, hold⟩
  have once : ∀ path, (atlas.mountedBelow path).Nodup := fun path =>
    (nodup_of_ascending (Sites.Every.ascending [] seated)).filter _
  refine ⟨summary, shown, ⟨⟨once _, ?_, ?_⟩, fun name => ?_, fun name child found => ?_, ?_⟩⟩
  · rw [bare]
    exact whole.adds
  · rw [digest]
    rfl
  · rw [← seated.mem_names_above located, ← names, Catalog.names, children, List.map_map]
    rfl
  · rw [Catalog.get?_eq_some, children, List.mem_map] at found
    obtain ⟨item, member, same⟩ := found
    obtain ⟨rfl, rfl⟩ := Prod.mk.inj same
    obtain ⟨site, known, hold⟩ := inner item member
    rw [seated.overlays_site located absolute known] at hold
    refine ⟨once _, ?_, rfl⟩
    rw [Digest.bare_shown hold.normal naming]
    exact hold.adds
  · have values : (summary.children.values.map fun child => child.shares.map Share.bare) =
        digests.map fun item => item.2.shares := by
      rw [Catalog.values, children, List.map_map, List.map_map]
      refine List.map_congr_left fun item member => ?_
      obtain ⟨_, _, hold⟩ := inner item member
      exact Digest.bare_shown hold.normal naming _
    rw [values, bare]
    exact counted.adds

/-- Whatever has been done to an atlas, a directory above mounted snapshots shows each of those below it once, however
figures are put together, and so does each of its subdirectories. -/
theorem mounts_counted_once {rules : RuleSet} {start : Atlas} (idsFit : rules.IdsFit) (loaded : ofRules rules = .ok start)
    {calls : List Call} (plain : ∀ call ∈ calls, call.Plain) (naming : Naming)
    (above : (start.afterCalls calls).IsAbove path) : ∃ summary,
      (start.afterCalls calls).summary naming path = .ok summary ∧ (start.afterCalls calls).SumsUp path summary :=
  ((readable_of_ofRules idsFit loaded).afterCalls plain).sumsUp above naming

/-- The directory above everything, with one mounted snapshot below. -/
theorem mounts_counted_once_at_top : ∃ (start : Atlas) (lower : StoredTree) (summary : Summary),
    ofRules .empty = .ok start ∧ (Call.addTree lower "tree").Plain ∧
    (start.afterCalls [.addTree lower "tree"]).mounts = ["/a/"] ∧
    (start.afterCalls [.addTree lower "tree"]).summary ({} : NameTable).name "/" = .ok summary ∧
    (start.afterCalls [.addTree lower "tree"]).SumsUp "/" summary ∧ "a/" ∈ summary.children.names := by
  obtain ⟨census, start, lower, recorded, fits, _, _, begun, opened, listed⟩ := exists_single_mount
  have plain : (Call.addTree lower "tree").Plain := ⟨census, recorded, fits, opened⟩
  obtain ⟨summary, shown, sumsUp⟩ := mounts_counted_once RuleSet.regular_empty.idsFit begun (fun call member => by
    obtain rfl := List.mem_singleton.mp member
    exact plain) ({} : NameTable).name (Or.inl rfl)
  refine ⟨start, lower, summary, begun, plain, listed, shown, sumsUp, (sumsUp.children "a/").mpr ⟨"/a/", ?_, [], ?_⟩⟩
  · rw [listed]
    exact List.mem_singleton.mpr rfl
  · decide +kernel

end Atlas
end BackupAtlas
