import BackupAtlas.Proofs.Directives
import BackupAtlas.Proofs.SearchMemory

namespace BackupAtlas

open TreePath

namespace Matcher

variable {α : Type} {patterns : List (List Char × α)} {matcher : Matcher α}

/-- A pattern without stars decides for its own text. -/
theorem lookup_text (distinct : (patterns.map (·.1)).Nodup) (compiled : compile patterns = .ok matcher)
    {path : List Char} {value : α} (starless : '*' ∉ path) (member : (path, value) ∈ patterns) :
    matcher.lookup path = some value := by
  obtain ⟨made, also, answers⟩ := lookup_spec distinct
  obtain rfl := Except.ok.inj (also.symm.trans compiled)
  have plain := Symbol.map_ofChar starless
  rcases answers path with ⟨_, nothing⟩ | ⟨text, found, looked, listed, decides⟩
  · exact absurd (by rw [plain, matches_literals]) (nothing _ member)
  · have same := decides.unique (Decides.of_literals ⟨_, member, plain.symm⟩)
    rw [← plain] at same
    obtain rfl := (List.map_inj_right fun _ _ => @Symbol.ofChar_injective _ _).mp same
    rw [looked, (Prod.mk.inj (List.inj_on_of_nodup_map distinct listed member rfl)).2]

/-- The pattern for the subdirectories whose names start with `head`. -/
def dirPattern (head : List Char) : List Char := head ++ ['*', '/']

/-- The pattern for subdirectories matches the paths of directories below its head. -/
theorem matches_dirPattern {head path : List Char} (starless : '*' ∉ head) :
    Matches ((dirPattern head).map .ofChar) path ↔ head <+: path ∧ head ≠ path ∧ path.getLast? = some '/' := by
  rw [dirPattern, List.map_append, Symbol.map_ofChar starless, matches_literals_append]
  constructor
  · rintro ⟨rest, rfl, last, suffix, _, rfl, rfl⟩
    obtain ⟨front, rfl⟩ := suffix
    refine ⟨List.prefix_append _ _, ?_, by simp⟩
    intro same
    simpa using congrArg List.length same
  · rintro ⟨⟨rest, rfl⟩, differs, last⟩
    rcases List.eq_nil_or_concat rest with rfl | ⟨front, c, rfl⟩
    · simp at differs
    · rw [List.concat_eq_append, ← List.append_assoc, List.getLast?_concat] at last
      obtain rfl := Option.some.inj last
      exact ⟨_, rfl, ['/'], by rw [List.concat_eq_append]; exact List.suffix_append _ _, [], rfl, rfl⟩

/-- Among texts and patterns for subdirectories, the longest start in front of a path decides, unless
the path itself is among the texts. -/
theorem lookup_dirPattern (distinct : (patterns.map (·.1)).Nodup) (compiled : compile patterns = .ok matcher)
    (shaped : ∀ entry ∈ patterns, '*' ∉ entry.1 ∨ ∃ head, '*' ∉ head ∧ entry.1 = dirPattern head)
    {path head : List Char} {value : α} (member : (dirPattern head, value) ∈ patterns) (starless : '*' ∉ head)
    (held : head <+: path) (deeper : head ≠ path) (isDir : path.getLast? = some '/')
    (unlisted : '*' ∉ path → ∀ value, (path, value) ∉ patterns)
    (longest : ∀ other value, (dirPattern other, value) ∈ patterns → '*' ∉ other → other <+: path → other ≠ path →
      other.length ≤ head.length) : matcher.lookup path = some value := by
  obtain ⟨made, also, answers⟩ := lookup_spec distinct
  obtain rfl := Except.ok.inj (also.symm.trans compiled)
  have fits := (matches_dirPattern starless).mpr ⟨held, deeper, isDir⟩
  have start : ∀ {head : List Char}, '*' ∉ head → literalHead ((dirPattern head).map .ofChar) = head := by
    intro head plain
    rw [dirPattern, List.map_append, Symbol.map_ofChar plain, literalHead_literals_append]
    exact List.append_nil head
  rcases answers path with ⟨_, nothing⟩ | ⟨text, found, looked, listed, decides⟩
  · exact absurd fits (nothing _ member)
  · rcases shaped _ listed with plain | ⟨other, plain, rfl⟩
    · have same := decides.fits
      rw [Symbol.map_ofChar plain, matches_literals] at same
      subst same
      exact absurd listed (unlisted plain _)
    · obtain ⟨heldOther, differs, _⟩ := (matches_dirPattern plain).mp decides.fits
      have longer := decides.literalHead_le ⟨_, member, rfl⟩ fits
      rw [start starless, start plain] at longer
      have equal := Nat.le_antisymm (longest other found listed plain heldOther differs) longer
      have same : other = head :=
        (List.prefix_of_prefix_length_le heldOther held (Nat.le_of_eq equal)).eq_of_length equal
      subst same
      rw [looked, (Prod.mk.inj (List.inj_on_of_nodup_map distinct listed member rfl)).2]

end Matcher
namespace Terrain

variable {tree : DirTree Ground} {names : List String} {place : Stop}

/-- The patterns for a directory without claims are those for directories, behind its path. -/
theorem Stop.mem_patterns {path text : List Char} {directive : Directive}
    (plain : ∀ rule ∈ place.tree.label.rules, '/' ∉ rule.1) (member : (text, directive) ∈ place.patterns path) :
    text = path ∨ ∃ head, text = Matcher.dirPattern (path ++ head) ∧ '/' ∉ head ∧ '*' ∉ head ∧ place.walks ∧
      (head = [] ∨ ∃ name default, (name, default) ∈ place.tree.label.heads ∧ head = name.toList) := by
  rw [Stop.patterns] at member
  split at member
  · rename_i walked
    rw [Ground.walked, List.mem_cons, List.mem_cons] at member
    rcases member with same | same | listed
    · exact Or.inl (Prod.mk.inj same).1
    · refine Or.inr ⟨[], ?_, by simp, by simp, walked, Or.inl rfl⟩
      rw [(Prod.mk.inj same).1, Matcher.dirPattern, List.append_nil]
    · obtain ⟨⟨name, default⟩, among, same⟩ := List.mem_map.mp listed
      obtain ⟨noSlash, noStar⟩ := Ground.plain_heads plain among
      exact Or.inr ⟨name.toList, (Prod.mk.inj same).1.symm, noSlash, noStar, walked, Or.inr ⟨name, default, among, rfl⟩⟩
  · exact Or.inl (Prod.mk.inj (List.mem_singleton.mp member)).1

/-- In a directory that is walked the longest start of a name has the default for that name. -/
theorem Stop.exists_start (walked : place.walks) (plain : ∀ rule ∈ place.tree.label.rules, '/' ∉ rule.1)
    (path : List Char) (name : String) : ∃ head : List Char,
      (Matcher.dirPattern (path ++ head), (place.defaultFor name).directive place.dirty) ∈ place.patterns path ∧
      '/' ∉ head ∧ '*' ∉ head ∧ head <+: name.toList ∧
      ∀ entry ∈ place.tree.label.heads, entry.1.toList <+: name.toList → entry.1.toList.length ≤ head.length := by
  have describes := place.tree.label.describes_heads
  rw [Stop.patterns, if_pos walked, Ground.walked, Stop.defaultFor, inherit]
  split
  · rename_i text default last
    obtain ⟨listed, held, longest⟩ := describes.ascending.longest last
    obtain ⟨noSlash, noStar⟩ := Ground.plain_heads plain listed
    refine ⟨text.toList, ?_, noSlash, noStar, held, fun entry member within => (longest entry member within).length_le⟩
    exact List.mem_cons_of_mem _ (List.mem_cons_of_mem _ (List.mem_map.mpr ⟨_, listed, rfl⟩))
  · rename_i missing
    rw [List.getLast?_eq_none_iff, List.filter_eq_nil_iff] at missing
    refine ⟨[], ?_, by simp, by simp, List.nil_prefix, fun entry member within => ?_⟩
    · rw [List.append_nil]
      exact List.mem_cons_of_mem _ List.mem_cons_self
    · exact absurd (List.isPrefixOf_iff_prefix.mpr within) (missing entry member)

/-- Every directive belongs to a directory that is visited. -/
theorem mem_ofTree_directives (ascending : tree.below.Ascending) {entry : List Char × Directive} :
    entry ∈ (Stop.ofTree tree).directives ['/'] ↔
    ∃ names place, (Stop.ofTree tree).visit names = some place ∧ entry ∈ place.patterns (dirOf names) :=
  Stop.mem_directives_iff ascending ['/']

/-- No directory that is visited lies behind one that is missing. -/
theorem visited_above (visited : (Stop.ofTree tree).visit names = some place) {name : String}
    (missing : place.tree.below.find? name = none) {others more : List String} {stop : Stop}
    (there : (Stop.ofTree tree).visit others = some stop) (within : others <+: names ++ name :: more) :
    others <+: names := by
  rcases List.prefix_or_prefix_of_prefix within (List.prefix_append names (name :: more)) with shorter | longer
  · exact shorter
  · obtain ⟨behind, rfl⟩ := longer
    cases behind with
    | nil =>
      exact ⟨[], by rw [List.append_nil, List.append_nil]⟩
    | cons key behind =>
      obtain ⟨rest, same⟩ := within
      rw [List.append_assoc, List.append_cancel_left_eq, List.cons_append, List.cons.injEq] at same
      have found := Stop.visit_tree there
      rw [DirTree.sub?_append, Stop.visit_tree visited, Option.bind_some, DirTree.sub?, same.1, missing] at found
      exact absurd found (by simp)

section

variable (ascending : tree.below.Ascending) (tidy : ∀ entry ∈ tree.listing, Tidy entry.1 entry.2)

include ascending tidy

theorem tidy_of_visit (visited : (Stop.ofTree tree).visit names = some place) : Tidy names place.tree.label :=
  tidy (names, _) ((DirTree.mem_listing ascending).mpr ⟨_, Stop.visit_tree visited⟩)

/-- Patterns of directives are literal, or literal with a star for a subdirectory. -/
theorem shaped_directives : ∀ entry ∈ (Stop.ofTree tree).directives ['/'],
    '*' ∉ entry.1 ∨ ∃ head, '*' ∉ head ∧ entry.1 = Matcher.dirPattern head := by
  rintro ⟨text, directive⟩ listed
  obtain ⟨others, stop, there, inside⟩ := (mem_ofTree_directives ascending).mp listed
  obtain ⟨_, clean, tidyRules⟩ := tidy_of_visit ascending tidy there
  rcases Stop.mem_patterns tidyRules inside with rfl | ⟨start, rfl, _, noStar, _⟩
  · exact Or.inl clean
  · exact Or.inr ⟨_, fun star => (List.mem_append.mp star).elim clean noStar, rfl⟩

variable {dirs : Matcher Directive} (compiled : Matcher.compile ((Stop.ofTree tree).directives ['/']) = .ok dirs)

include compiled

/-- A directory with directives of its own gets the one that is meant for it. -/
theorem lookup_visited (visited : (Stop.ofTree tree).visit names = some place) :
    dirs.lookup (dirOf names) = some place.directive := by
  refine Matcher.lookup_text (directives_nodup ascending tidy) compiled (tidy_of_visit ascending tidy visited).2.1 ?_
  refine (mem_ofTree_directives ascending).mpr ⟨names, place, visited, ?_⟩
  rw [Stop.patterns, Stop.directive]
  by_cases walked : place.walks
  · rw [if_pos walked, if_pos walked]
    exact List.mem_cons_self
  · rw [if_neg walked, if_neg walked]
    exact List.mem_singleton.mpr rfl

omit compiled in
/-- What lies below a directory that is not visited has no directive of its own. -/
theorem not_mem_directives (visited : (Stop.ofTree tree).visit names = some place) {name : String}
    (missing : place.tree.below.find? name = none) {more : List String} (whole : AreSteps (names ++ name :: more))
    (clean : '*' ∉ dirOf (names ++ name :: more)) (directive : Directive) :
    (dirOf (names ++ name :: more), directive) ∉ (Stop.ofTree tree).directives ['/'] := by
  intro listed
  obtain ⟨others, stop, there, inside⟩ := (mem_ofTree_directives ascending).mp listed
  obtain ⟨stepsOther, _, tidyRules⟩ := tidy_of_visit ascending tidy there
  rcases Stop.mem_patterns tidyRules inside with same | ⟨start, same, _⟩
  · obtain rfl := dirOf_inj whole stepsOther same
    have shorter := (visited_above visited missing there (List.prefix_refl _)).length_le
    rw [List.length_append, List.length_cons] at shorter
    omega
  · rw [same] at clean
    exact clean (by simp [Matcher.dirPattern])

omit compiled in
/-- Of the patterns that lead there, that of the longest start of the next name is the longest. -/
theorem length_le_of_directive (visited : (Stop.ofTree tree).visit names = some place) {name : String}
    (missing : place.tree.below.find? name = none) (step : IsStep name.toList) {more : List String}
    (whole : AreSteps (names ++ name :: more)) {head other : List Char} {directive : Directive}
    (longest : ∀ entry ∈ place.tree.label.heads, entry.1.toList <+: name.toList →
      entry.1.toList.length ≤ head.length)
    (listed : (Matcher.dirPattern other, directive) ∈ (Stop.ofTree tree).directives ['/'])
    (within : other <+: dirOf (names ++ name :: more)) : other.length ≤ (dirOf names ++ head).length := by
  obtain ⟨others, stop, there, inside⟩ := (mem_ofTree_directives ascending).mp listed
  obtain ⟨stepsOther, clean, tidyRules⟩ := tidy_of_visit ascending tidy there
  rcases Stop.mem_patterns tidyRules inside with same | ⟨start, same, noSlashStart, _, _, known⟩
  · rw [← same] at clean
    exact absurd (by simp [Matcher.dirPattern]) clean
  · obtain rfl := List.append_cancel_right same
    have leads := visited_above visited missing there ((dirOf_prefix_iff stepsOther whole List.not_mem_nil).mp
      (by rw [List.append_nil]; exact (List.prefix_append _ _).trans within))
    obtain ⟨behind, same⟩ := leads
    cases behind with
    | nil =>
      -- the same directory, so the start is one of the next name
      rw [List.append_nil] at same
      subst same
      obtain rfl := Option.some.inj (visited.symm.trans there)
      rw [dirOf_append, List.prefix_append_right_inj, List.map_cons, List.flatten_cons] at within
      have starts := (step.starts noSlashStart within).1
      rw [List.length_append, List.length_append]
      refine Nat.add_le_add_left ?_ _
      rcases known with rfl | ⟨text, default, among, rfl⟩
      · exact Nat.zero_le _
      · exact longest _ among starts
    | cons key behind =>
      subst same
      have stepKey : IsStep key.toList := whole key (by simp)
      rw [List.append_assoc, List.cons_append, dirOf_append, List.prefix_append_right_inj, List.map_cons,
        List.flatten_cons] at within
      have shorter := (stepKey.starts noSlashStart within).2
      rw [dirOf_append, List.map_cons, List.flatten_cons]
      simp only [List.length_append]
      omega

/-- Below a directory that is walked, what has no directives of its own gets the default for the next
name, however deep it lies. -/
theorem lookup_below (visited : (Stop.ofTree tree).visit names = some place) (walked : place.walks) {name : String}
    (missing : place.tree.below.find? name = none) (step : IsStep name.toList) {more : List String}
    (areSteps : AreSteps more) :
    dirs.lookup (dirOf (names ++ name :: more)) = some ((place.defaultFor name).directive place.dirty) := by
  obtain ⟨steps, starless, plain⟩ := tidy_of_visit ascending tidy visited
  obtain ⟨head, member, noSlash, noStar, held, longest⟩ := Stop.exists_start walked plain (dirOf names) name
  have whole : AreSteps (names ++ name :: more) :=
    steps.append fun other listed => (List.mem_cons.mp listed).elim (fun same => same ▸ step) (areSteps other)
  have split := dirOf_append names (name :: more)
  rw [List.map_cons, List.flatten_cons] at split
  have inside : head <+: name.toList ++ (more.map String.toList).flatten := held.trans (List.prefix_append _ _)
  refine Matcher.lookup_dirPattern (directives_nodup ascending tidy) compiled (shaped_directives ascending tidy)
    ((mem_ofTree_directives ascending).mpr ⟨names, place, visited, member⟩) ?_ ?_ ?_ ?_ ?_ ?_
  · exact fun star => (List.mem_append.mp star).elim starless noStar
  · rw [split]
    exact (List.prefix_append_right_inj _).mpr inside
  · rw [split]
    intro same
    have shorter := (step.starts noSlash inside).2
    have equal := congrArg List.length (List.append_cancel_left same)
    rw [List.length_append] at equal
    omega
  · have last := isAbsoluteDir_dirOf whole
    simp only [isAbsoluteDir, isDir, String.toList_ofList, Bool.and_eq_true, beq_iff_eq] at last
    exact last.2
  · exact not_mem_directives ascending tidy visited missing whole
  · intro other directive listed _ within _
    exact length_le_of_directive ascending tidy visited missing step whole longest listed within

end

end Terrain
end BackupAtlas
