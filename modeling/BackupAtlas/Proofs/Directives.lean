import Mathlib.Data.List.Nodup
import BackupAtlas.Plan
import BackupAtlas.Proofs.Defaults
import BackupAtlas.Proofs.DirTrees

namespace BackupAtlas

open TreePath

namespace Terrain

namespace Ground

def walks (ground : Ground) (inherited : Default) (dirty : Bool) (below : Forest Ground) : Bool :=
  ground.leadsToScope || ((dirty || below.any (·.changed)) &&
    match ground.default inherited with
    | .walk => true
    | .toRule _ => ground.rules.any (fun rule => decide (rule.1 ≠ ['*'])) || below.any fun ground =>
        decide (ground.rules ≠ []))

/-- The directive for a directory that is not walked. -/
def shortcut (ground : Ground) (inherited : Default) (dirty : Bool) (below : Forest Ground) : Directive :=
  let rule := match ground.default inherited with
    | .toRule rule => rule
    | .walk => 0
  if dirty || below.any (·.changed) then .assign rule else .reuse rule

def walked (ground : Ground) (path : List Char) (inherited : Default) (dirty : Bool) : List (List Char × Directive) :=
  (path, .process) :: (path ++ ['*', '/'], (ground.default inherited).directive dirty) ::
    ground.heads.map fun entry => (path ++ entry.1.toList ++ ['*', '/'], entry.2.directive dirty)

/-- The directives of a directory that is walked come before those of the directories below it. -/
theorem directives_eq (ground : Ground) (path : List Char) (inherited : Default) (dirty : Bool) (below : Forest Ground)
    (inside : List (List Char × Directive)) : ground.directives path inherited dirty below inside =
      if ground.walks inherited dirty below then ground.walked path inherited dirty ++ inside
      else [(path, ground.shortcut inherited dirty below)] := by
  rw [directives, walks, shortcut, walked]
  cases ground.leadsToScope with
  | true => simp
  | false =>
    cases dirty with
    | true =>
      cases ground.default inherited with
      | walk => simp
      | toRule rule => simp; rfl
    | false =>
      cases below.any (·.changed) with
      | true =>
        cases ground.default inherited with
        | walk => simp
        | toRule rule => simp; rfl
      | false =>
        simp only [Bool.not_false, Bool.and_true, Bool.false_or, Bool.or_false, if_true, Bool.false_eq_true, if_false]
        cases ground.default inherited <;> rfl

end Ground

/-- Where a plan stands at a directory: what holds for it from above, and the tree from there on. -/
structure Stop where
  inherited : Default
  dirty : Bool
  tree : DirTree Ground

namespace Stop

def ofTree (tree : DirTree Ground) : Stop := ⟨.toRule 0, tree.label.isDirty false, tree⟩

def default (stop : Stop) : Default := stop.tree.label.default stop.inherited

def walks (stop : Stop) : Bool := stop.tree.label.walks stop.inherited stop.dirty stop.tree.below

def directive (stop : Stop) : Directive :=
  if stop.walks then .process else stop.tree.label.shortcut stop.inherited stop.dirty stop.tree.below

def defaultFor (stop : Stop) (name : String) : Default := inherit stop.default stop.tree.label.heads name

def next (stop : Stop) (name : String) : Option Stop :=
  (stop.tree.below.find? name).map fun (ground, below) =>
    ⟨stop.defaultFor name, ground.isDirty stop.dirty, ⟨ground, below⟩⟩

/-- Follows names as long as directories are walked. -/
def visit : List String → Stop → Option Stop
  | [], stop => some stop
  | name :: names, stop => if stop.walks then (stop.next name).bind (visit names) else none

/-- The patterns for the directory itself and for its subdirectories without claims. -/
def patterns (stop : Stop) (path : List Char) : List (List Char × Directive) :=
  if stop.walks then stop.tree.label.walked path stop.inherited stop.dirty else [(path, stop.directive)]

/-- The patterns for the directory and all that are visited below it. -/
def directives (stop : Stop) (path : List Char) : List (List Char × Directive) :=
  stop.tree.label.directives path stop.inherited stop.dirty stop.tree.below
    (directivesBelow path stop.dirty stop.default stop.tree.label.heads stop.tree.below)

theorem directives_eq (stop : Stop) (path : List Char) : stop.directives path =
    stop.patterns path ++ if stop.walks then
      directivesBelow path stop.dirty stop.default stop.tree.label.heads stop.tree.below else [] := by
  rw [directives, Ground.directives_eq, patterns, ← walks]
  by_cases walked : stop.walks
  · simp only [if_pos walked]
  · simp only [if_neg walked, List.append_nil, directive]

theorem mem_directivesBelow {forest : Forest Ground} (ascending : forest.Ascending) (path : List Char) (dirty : Bool)
    (default : Default) (heads : List (String × Default)) {entry : List Char × Directive} :
    entry ∈ directivesBelow path dirty default heads forest ↔ ∃ name ground below,
      forest.find? name = some (ground, below) ∧
      entry ∈ directives ⟨inherit default heads name, ground.isDirty dirty, ⟨ground, below⟩⟩ (path ++ name.toList) := by
  induction forest with
  | nil => simp [directivesBelow, Forest.find?]
  | cons key ground below rest _ ih =>
    rw [directivesBelow, List.mem_append, ih ascending.2.1]
    constructor
    · rintro (here | ⟨name, found, inside, known, later⟩)
      · exact ⟨key, ground, below, by simp [Forest.find?], here⟩
      · have differs : name ≠ key := by
          rintro rfl
          have listed := Forest.find?_isSome.mp (by rw [known]; rfl)
          exact String.lt_irrefl _ (ascending.2.2 _ listed)
        exact ⟨name, found, inside, by simp [Forest.find?, differs, known], later⟩
    · rintro ⟨name, found, inside, known, member⟩
      rw [Forest.find?] at known
      split at known
      · rename_i same
        subst same
        cases known
        exact Or.inl member
      · exact Or.inr ⟨name, found, inside, known, member⟩

theorem next_ascending {stop after : Stop} {name : String} (ascending : stop.tree.below.Ascending)
    (stepped : stop.next name = some after) : after.tree.below.Ascending := by
  obtain ⟨⟨ground, below⟩, found, rfl⟩ := Option.map_eq_some_iff.mp stepped
  exact ascending.below found

/-- The directives below a directory that is walked are those of its subdirectories. -/
theorem mem_directives {stop : Stop} (ascending : stop.tree.below.Ascending) (path : List Char)
    {entry : List Char × Directive} : entry ∈ stop.directives path ↔ entry ∈ stop.patterns path ∨
      (stop.walks ∧ ∃ name after, stop.next name = some after ∧ entry ∈ after.directives (path ++ name.toList)) := by
  rw [directives_eq, List.mem_append]
  by_cases walked : stop.walks
  · rw [if_pos walked, mem_directivesBelow ascending]
    simp only [walked, true_and, next, Option.map_eq_some_iff, Prod.exists]
    constructor
    · rintro (here | ⟨name, ground, below, found, member⟩)
      · exact Or.inl here
      · exact Or.inr ⟨name, _, ⟨ground, below, found, rfl⟩, member⟩
    · rintro (here | ⟨name, _, ⟨ground, below, found, rfl⟩, member⟩)
      · exact Or.inl here
      · exact Or.inr ⟨name, ground, below, found, member⟩
  · simp [walked]

/-- Every directive belongs to a directory that is visited. -/
theorem mem_directives_iff {stop : Stop} (ascending : stop.tree.below.Ascending) (path : List Char)
    {entry : List Char × Directive} : entry ∈ stop.directives path ↔ ∃ names place,
      stop.visit names = some place ∧ entry ∈ place.patterns (path ++ (names.map String.toList).flatten) := by
  constructor
  · obtain ⟨inherited, dirty, ⟨ground, forest⟩⟩ := stop
    intro member
    induction forest using Forest.induction generalizing inherited dirty ground path with
    | step forest ih =>
      rcases (mem_directives ascending path).mp member with here | ⟨walked, name, after, stepped, inside⟩
      · exact ⟨[], _, rfl, by simpa using here⟩
      · obtain ⟨⟨inner, below⟩, found, rfl⟩ := Option.map_eq_some_iff.mp stepped
        obtain ⟨names, place, visited, listed⟩ := ih name inner below found _ _ _ _ (ascending.below found) inside
        refine ⟨name :: names, place, ?_, by simpa using listed⟩
        rw [visit, if_pos walked, stepped]
        exact visited
  · rintro ⟨names, place, visited, listed⟩
    induction names generalizing stop path with
    | nil =>
      obtain rfl := Option.some.inj visited
      exact (mem_directives ascending path).mpr (Or.inl (by simpa using listed))
    | cons name names ih =>
      rw [visit] at visited
      split at visited
      · rename_i walked
        obtain ⟨after, stepped, visited⟩ := Option.bind_eq_some_iff.mp visited
        refine (mem_directives ascending path).mpr (Or.inr ⟨walked, name, after, stepped, ?_⟩)
        exact ih (next_ascending ascending stepped) _ visited (by simpa using listed)
      · exact absurd visited (by simp)

/-- To visit a directory is to visit the one above it, which has to be walked. -/
theorem visit_snoc (names : List String) (name : String) (stop : Stop) : stop.visit (names ++ [name]) =
    (stop.visit names).bind fun place => if place.walks then place.next name else none := by
  induction names generalizing stop with
  | nil =>
    rw [List.nil_append, visit, visit, Option.bind_some]
    split
    · cases stop.next name <;> rfl
    · rfl
  | cons head names ih =>
    rw [List.cons_append, visit, visit]
    split
    · cases stop.next head with
      | none => rfl
      | some after => exact ih after
    · rfl

theorem visit_tree {names : List String} {stop place : Stop} (visited : stop.visit names = some place) :
    stop.tree.sub? names = some place.tree := by
  induction names generalizing stop with
  | nil => rw [← Option.some.inj visited]; rfl
  | cons name names ih =>
    rw [visit] at visited
    split at visited
    · obtain ⟨after, stepped, visited⟩ := Option.bind_eq_some_iff.mp visited
      obtain ⟨⟨ground, below⟩, found, rfl⟩ := Option.map_eq_some_iff.mp stepped
      rw [DirTree.sub?, found]
      exact ih visited
    · exact absurd visited (by simp)

end Stop

/-- The patterns for a directory, walked or not. -/
def Ground.texts (ground : Ground) (path : List Char) : List (List Char) :=
  path :: (path ++ ['*', '/']) :: ground.heads.map fun entry => path ++ entry.1.toList ++ ['*', '/']

/-- The patterns of a directory are among the texts that it can have. -/
theorem Ground.directives_texts (ground : Ground) (path : List Char) (inherited : Default) (dirty : Bool)
    (below : Forest Ground) (inside : List (List Char × Directive)) :
    ((ground.directives path inherited dirty below inside).map (·.1)).Sublist
      (ground.texts path ++ inside.map (·.1)) := by
  rw [directives_eq]
  split
  · rw [walked, texts, List.map_append, List.map_cons, List.map_cons, List.map_map]
    exact List.Sublist.refl _
  · rw [texts]
    simp

theorem directivesBelow_texts (path : List Char) (dirty : Bool) (default : Default) (heads : List (String × Default))
    (forest : Forest Ground) : ((directivesBelow path dirty default heads forest).map (·.1)).Sublist
      (forest.listing.flatMap fun entry => entry.2.texts (path ++ (entry.1.map String.toList).flatten)) := by
  induction forest generalizing path dirty default heads with
  | nil => exact List.Sublist.refl _
  | cons name ground below rest ihBelow ihRest =>
    rw [directivesBelow, Forest.listing, List.map_append, List.flatMap_cons, List.flatMap_append, List.flatMap_map,
      ← List.append_assoc]
    refine List.Sublist.append ?_ (ihRest _ _ _ _)
    refine (ground.directives_texts _ _ _ _ _).trans ?_
    have inner := ihBelow (path ++ name.toList) (ground.isDirty dirty)
      (ground.default (inherit default heads name)) ground.heads
    refine List.Sublist.append (by simp) ?_
    simpa using inner

/-- A directory is tidy if its path has no star, and neither has any pattern of it a slash. -/
def Tidy (names : List String) (ground : Ground) : Prop :=
  AreSteps names ∧ '*' ∉ dirOf names ∧ ∀ rule ∈ ground.rules, '/' ∉ rule.1

theorem Ground.plain_heads {ground : Ground} (plain : ∀ rule ∈ ground.rules, '/' ∉ rule.1) {text : String}
    {default : Default} (member : (text, default) ∈ ground.heads) : '/' ∉ text.toList ∧ '*' ∉ text.toList := by
  have describes := ground.describes_heads
  have known := (Entries.get?_eq_some describes.ascending).mpr member
  obtain ⟨⟨pattern, id⟩, among, rest, cut⟩ := (describes.known text (describes.nonempty _ member)).mpr
    (by rw [known]; rfl)
  obtain ⟨rfl, starless⟩ := Pattern.cut?_eq_some.mp cut
  exact ⟨fun slash => plain _ among (List.mem_append_left _ slash), starless⟩

/-- A text for a directory tells the directory and, behind it, the start of the names it is for. -/
theorem Ground.mem_texts {ground : Ground} (plain : ∀ rule ∈ ground.rules, '/' ∉ rule.1) {path text : List Char}
    (member : text ∈ ground.texts path) :
    text = path ∨ ∃ head, '/' ∉ head ∧ '*' ∉ head ∧ text = path ++ head ++ ['*', '/'] := by
  rw [texts, List.mem_cons, List.mem_cons] at member
  rcases member with rfl | rfl | listed
  · exact Or.inl rfl
  · exact Or.inr ⟨[], by simp, by simp, by simp⟩
  · obtain ⟨⟨head, default⟩, among, rfl⟩ := List.mem_map.mp listed
    obtain ⟨noSlash, noStar⟩ := plain_heads plain among
    exact Or.inr ⟨head.toList, noSlash, noStar, rfl⟩

/-- The texts of one directory are distinct. -/
theorem Ground.texts_nodup (ground : Ground) (path : List Char) : (ground.texts path).Nodup := by
  have describes := ground.describes_heads
  rw [texts, List.nodup_cons, List.nodup_cons]
  refine ⟨?_, ?_, ?_⟩
  · intro member
    rcases List.mem_cons.mp member with same | listed
    · exact absurd (congrArg List.length same) (by simp)
    · obtain ⟨⟨head, default⟩, _, same⟩ := List.mem_map.mp listed
      exact absurd (congrArg List.length same) (by simp)
  · intro member
    obtain ⟨⟨head, default⟩, among, same⟩ := List.mem_map.mp member
    have empty : head.toList = [] := by simpa using same
    exact describes.nonempty _ among (String.toList_inj.mp empty)
  · refine List.pairwise_map.mpr (describes.ascending.imp ?_)
    intro a b less same
    have equal := List.append_cancel_left (List.append_cancel_right same)
    exact String.lt_irrefl _ (String.toList_inj.mp equal ▸ less)

/-- In a tree of tidy directories no two patterns of directives are the same. -/
theorem directives_nodup {tree : DirTree Ground} (ascending : tree.below.Ascending)
    (tidy : ∀ entry ∈ tree.listing, Tidy entry.1 entry.2) :
    (((Stop.ofTree tree).directives ['/']).map (·.1)).Nodup := by
  have listed : (((Stop.ofTree tree).directives ['/']).map (·.1)).Sublist
      (tree.listing.flatMap fun entry => entry.2.texts (dirOf entry.1)) := by
    rw [DirTree.listing, List.flatMap_cons]
    refine (Ground.directives_texts _ _ _ _ _ _).trans (List.Sublist.append (List.Sublist.refl _) ?_)
    exact directivesBelow_texts _ _ _ _ _
  refine listed.nodup ?_
  rw [List.nodup_flatMap]
  refine ⟨fun entry _ => entry.2.texts_nodup (dirOf entry.1), ?_⟩
  refine List.Pairwise.imp_of_mem ?_ (List.pairwise_map.mp (DirTree.listing_nodup ascending))
  intro first second memberFirst memberSecond differ text inFirst inSecond
  obtain ⟨steps, starless, plain⟩ := tidy first memberFirst
  obtain ⟨steps', starless', plain'⟩ := tidy second memberSecond
  rcases Ground.mem_texts plain inFirst with rfl | ⟨head, noSlash, noStar, rfl⟩
  · rcases Ground.mem_texts plain' inSecond with same | ⟨head, _, _, same⟩
    · exact differ (dirOf_inj steps steps' same)
    · rw [same] at starless
      simp at starless
  · rcases Ground.mem_texts plain' inSecond with same | ⟨other, noSlash', noStar', same⟩
    · rw [← same] at starless'
      simp at starless'
    · exact differ (dirOf_append_inj steps steps' noSlash noSlash' (List.append_cancel_right same)).1

end Terrain
end BackupAtlas
