import Mathlib.Data.List.Induction
import BackupAtlas.Proofs.DirectiveLookup

namespace BackupAtlas

open TreePath

namespace RuleMap

/-- The rule for a path from the directories above the last one. -/
def upToAbove (map : RuleMap) (path : List Char) : List String → Option Nat
  | [] => none
  | _ :: trail => map.upTo path trail

theorem upTo_eq (map : RuleMap) (path : List Char) (trail : List String) :
    map.upTo path trail = (map.own path trail.reverse).or (map.upToAbove path trail) := by
  cases trail with
  | nil => exact (Option.or_none).symm
  | cons name trail => rfl

/-- The rule of a file in the directory to which names lead, or 0. -/
def ruleOf (map : RuleMap) (names : List String) (rest : List Char) : Nat :=
  (map.upTo (dirOf names ++ rest) names.reverse).getD 0

theorem own_eq_none_of_empty {map : RuleMap} {names : List String} (empty : map names = []) (path : List Char) :
    map.own path names = none := by
  rw [own, empty]
  have distinct : (([] : List (List Char × Nat)).map (·.1)).Nodup := List.nodup_nil
  rcases pick_spec distinct (path.drop (dirOf names).length) with ⟨failed, _⟩ | ⟨_, _, _, member, _⟩
  · exact failed
  · exact absurd member List.not_mem_nil

/-- Directories without rules do not matter. -/
theorem upTo_below (map : RuleMap) (names : List String) (path : List Char) {more : List String}
    (empty : ∀ inner, inner ≠ [] → map (names ++ inner) = []) :
    map.upTo path (names ++ more).reverse = map.upTo path names.reverse := by
  rw [List.reverse_append]
  refine upTo_append map path _ _ fun inner _ some => ?_
  rw [List.reverse_append, List.reverse_reverse]
  exact own_eq_none_of_empty (empty _ (by simpa using some)) path

/-- Directories with the same rules do not make a difference. -/
theorem upTo_congr_below (old new : RuleMap) (names : List String) (path : List Char) {more : List String}
    (same : ∀ inner, inner ≠ [] → old (names ++ inner) = new (names ++ inner))
    (start : old.upTo path names.reverse = new.upTo path names.reverse) :
    old.upTo path (names ++ more).reverse = new.upTo path (names ++ more).reverse := by
  induction more using List.reverseRecOn with
  | nil => simpa using start
  | append_singleton more name ih =>
    have here := same (more ++ [name]) (by simp)
    rw [← List.append_assoc, List.reverse_append, List.reverse_singleton, List.singleton_append, upTo, upTo, ih]
    rw [List.reverse_cons, List.reverse_reverse, List.append_assoc, own, own, here]

end RuleMap
namespace Terrain

/-- One of two directories holds the other. -/
def Comparable (scope names : List String) : Prop := names <+: scope ∨ scope <+: names

theorem Comparable.of_append {scope names more : List String} (comparable : Comparable scope (names ++ more)) :
    Comparable scope names := by
  rcases comparable with above | below
  · exact Or.inl ((List.prefix_append _ _).trans above)
  · exact (List.prefix_or_prefix_of_prefix below (List.prefix_append names more)).symm

/-- A tree that says for a scope what the rules of each directory are, and is unchanged only where an
older map has the same rules. -/
structure Surveyed (scope : List String) (old new : RuleMap) (tree : DirTree Ground) : Prop where
  proper : new.Proper
  ascending : tree.below.Ascending
  tidy : ∀ entry ∈ tree.listing, Tidy entry.1 entry.2
  rules_eq : ∀ names, Comparable scope names → (tree.labelAt {} names).rules = new names
  same : ∀ names, Comparable scope names → (tree.labelAt {} names).changed = false → old names = new names
  leads : ∀ names, names <+: scope → (tree.labelAt {} names).leadsToScope ∧ (tree.sub? names).isSome

namespace Surveyed

variable {scope names : List String} {old new : RuleMap} {tree : DirTree Ground} {place : Stop}

theorem sub?_of_visit (visited : (Stop.ofTree tree).visit names = some place) : tree.sub? names = some place.tree :=
  Stop.visit_tree visited

theorem rules_of_visit (surveyed : Surveyed scope old new tree) (comparable : Comparable scope names)
    (visited : (Stop.ofTree tree).visit names = some place) : place.tree.label.rules = new names := by
  rw [← surveyed.rules_eq names comparable, DirTree.labelAt_of_some (sub?_of_visit visited)]

theorem same_of_visit (surveyed : Surveyed scope old new tree) (comparable : Comparable scope names)
    (visited : (Stop.ofTree tree).visit names = some place) (unchanged : place.tree.label.changed = false) :
    old names = new names := by
  refine surveyed.same names comparable ?_
  rw [DirTree.labelAt_of_some (sub?_of_visit visited)]
  exact unchanged

theorem visit_snoc_some {name : String} {stop : Stop} (visited : stop.visit (names ++ [name]) = some place) :
    ∃ above, stop.visit names = some above ∧ above.walks ∧ above.next name = some place := by
  rw [Stop.visit_snoc] at visited
  obtain ⟨above, there, stepped⟩ := Option.bind_eq_some_iff.mp visited
  split at stepped
  · rename_i walked
    exact ⟨above, there, walked, stepped⟩
  · exact absurd stepped (by simp)

theorem next_some {name : String} {above : Stop} (stepped : above.next name = some place) :
    place.inherited = above.defaultFor name ∧ place.dirty = place.tree.label.isDirty above.dirty ∧
      above.tree.below.find? name = some (place.tree.label, place.tree.below) := by
  obtain ⟨⟨ground, below⟩, found, rfl⟩ := Option.map_eq_some_iff.mp stepped
  exact ⟨rfl, rfl, found⟩

theorem own_eq_pick (surveyed : Surveyed scope old new tree) (comparable : Comparable scope names)
    (visited : (Stop.ofTree tree).visit names = some place) (rest : List Char) :
    new.own (dirOf names ++ rest) names = pick place.tree.label.rules rest := by
  rw [RuleMap.own, List.drop_left, surveyed.rules_of_visit comparable visited]

theorem distinct_of_visit (surveyed : Surveyed scope old new tree) (comparable : Comparable scope names)
    (visited : (Stop.ofTree tree).visit names = some place) : (place.tree.label.rules.map (·.1)).Nodup :=
  surveyed.rules_of_visit comparable visited ▸ surveyed.proper.distinct names

theorem plain_of_visit (surveyed : Surveyed scope old new tree) (comparable : Comparable scope names)
    (visited : (Stop.ofTree tree).visit names = some place) : ∀ rule ∈ place.tree.label.rules, '/' ∉ rule.1 :=
  surveyed.rules_of_visit comparable visited ▸ surveyed.proper.plain names

/-- The rule that a directory inherits is the one from the directories above it. -/
theorem inherited_sound (surveyed : Surveyed scope old new tree) (comparable : Comparable scope names)
    (visited : (Stop.ofTree tree).visit names = some place) {rule : Nat} (settled : place.inherited = .toRule rule)
    (rest : List Char) : (new.upToAbove (dirOf names ++ rest) names.reverse).getD 0 = rule := by
  induction names using List.reverseRecOn generalizing place rule rest with
  | nil =>
    obtain rfl := Option.some.inj visited
    exact Default.toRule.inj settled
  | append_singleton names key ih =>
    obtain ⟨above, there, _, stepped⟩ := visit_snoc_some visited
    have step : IsStep key.toList := (tidy_of_visit surveyed.ascending surveyed.tidy visited).1 key (by simp)
    have pick := surveyed.own_eq_pick comparable.of_append there (key.toList ++ rest)
    rw [(next_some stepped).1] at settled
    rw [List.reverse_append, List.reverse_singleton, List.singleton_append, RuleMap.upToAbove, RuleMap.upTo_eq,
      List.reverse_reverse, dirOf_snoc, List.append_assoc, pick]
    rcases Ground.inherit_settles (surveyed.distinct_of_visit comparable.of_append there)
      (surveyed.plain_of_visit comparable.of_append there) step settled with here | ⟨nothing, higher⟩
    · rw [here]
      rfl
    · rw [nothing, Option.none_or]
      exact ih comparable.of_append there higher _

/-- The default that a directory has for a subdirectory is true of everything below that. -/
theorem default_sound (surveyed : Surveyed scope old new tree) (comparable : Comparable scope names)
    (visited : (Stop.ofTree tree).visit names = some place) {name : String} (step : IsStep name.toList) {rule : Nat}
    (settled : place.defaultFor name = .toRule rule) (rest : List Char) :
    (new.upTo (dirOf (names ++ [name]) ++ rest) names.reverse).getD 0 = rule := by
  have pick := surveyed.own_eq_pick comparable visited (name.toList ++ rest)
  rw [RuleMap.upTo_eq, List.reverse_reverse, dirOf_snoc, List.append_assoc, pick]
  rcases Ground.inherit_settles (surveyed.distinct_of_visit comparable visited)
    (surveyed.plain_of_visit comparable visited) step settled with here | ⟨nothing, higher⟩
  · rw [here]
    rfl
  · rw [nothing, Option.none_or]
    exact surveyed.inherited_sound comparable visited higher _

/-- Nothing has changed for what lies below a clean directory, as far as its rules and those above it go. -/
theorem clean_sound (surveyed : Surveyed scope old new tree) (comparable : Comparable scope names)
    (visited : (Stop.ofTree tree).visit names = some place) (clean : place.dirty = false) (rest : List Char) :
    old.upTo (dirOf names ++ rest) names.reverse = new.upTo (dirOf names ++ rest) names.reverse := by
  induction names using List.reverseRecOn generalizing place rest with
  | nil =>
    obtain rfl := Option.some.inj visited
    have unchanged : tree.label.changed = false := by simpa [Stop.ofTree, Ground.isDirty] using clean
    have same := surveyed.same_of_visit comparable visited unchanged
    rw [RuleMap.upTo_eq, RuleMap.upTo_eq, RuleMap.own, RuleMap.own, List.reverse_reverse, same]
    rfl
  | append_singleton names key ih =>
    obtain ⟨above, there, _, stepped⟩ := visit_snoc_some visited
    rw [(next_some stepped).2.1, Ground.isDirty, Bool.or_eq_false_iff] at clean
    have same := surveyed.same_of_visit comparable visited clean.1
    have own : old.own (dirOf (names ++ [key]) ++ rest) (names ++ [key]) =
        new.own (dirOf (names ++ [key]) ++ rest) (names ++ [key]) := by rw [RuleMap.own, RuleMap.own, same]
    rw [RuleMap.upTo_eq, RuleMap.upTo_eq, List.reverse_reverse, own]
    cases shield : place.tree.label.star? with
    | some rule =>
      -- a star of its own decides for everything below
      obtain ⟨value, found⟩ : ∃ value, new.own (dirOf (names ++ [key]) ++ rest) (names ++ [key]) = some value := by
        rw [surveyed.own_eq_pick comparable visited]
        rcases pick_spec (surveyed.distinct_of_visit comparable visited) rest with ⟨_, nothing⟩ | ⟨_, value, found, _⟩
        · exact absurd (Ground.matches_star rest) (nothing _ (Ground.star?_eq_some shield))
        · exact ⟨value, found⟩
      rw [found]
      rfl
    | none =>
      have cleanAbove : above.dirty = false := by simpa [shield] using clean.2
      have higher := ih comparable.of_append there cleanAbove (key.toList ++ rest)
      rw [← List.append_assoc, ← dirOf_snoc] at higher
      rw [List.reverse_append, List.reverse_singleton, List.singleton_append, RuleMap.upToAbove,
        RuleMap.upToAbove, higher]

end Surveyed

/-- A directory that a build walks. It has to be walked, or it lies below such a directory, in a
subdirectory without claims whose files may go to different rules. -/
inductive Station (tree : DirTree Ground) : List String → Prop
  | visited {names : List String} {place : Stop} (visited : (Stop.ofTree tree).visit names = some place)
    (walked : place.walks) : Station tree names
  | beyond {names more : List String} {name : String} {place : Stop}
    (visited : (Stop.ofTree tree).visit names = some place) (walked : place.walks)
    (missing : place.tree.below.find? name = none) (step : IsStep name.toList)
    (walk : place.defaultFor name = .walk) (areSteps : AreSteps more) : Station tree (names ++ name :: more)

/-- Only a default that leaves the choice open sends a walk on. -/
theorem Default.eq_walk {default : Default} {dirty : Bool} (processed : default.directive dirty = .process) :
    default = .walk := by
  cases default with
  | walk => rfl
  | toRule rule =>
    rw [Default.directive] at processed
    split at processed <;> exact absurd processed (by simp)

/-- What is kept is clean. -/
theorem Default.not_dirty {default : Default} {dirty : Bool} {rule : Nat}
    (reused : default.directive dirty = .reuse rule) : dirty = false := by
  cases dirty with
  | false => rfl
  | true => cases default <;> simp [Default.directive] at reused

theorem Stop.walks_of_process {place : Stop} (processed : place.directive = .process) : place.walks := by
  rw [Stop.directive] at processed
  split at processed
  · assumption
  · rw [Ground.shortcut] at processed
    split at processed <;> exact absurd processed (by simp)

theorem Stop.not_dirty {place : Stop} {rule : Nat} (reused : place.directive = .reuse rule) : place.dirty = false := by
  rw [Stop.directive, Ground.shortcut] at reused
  split at reused
  · exact absurd reused (by simp)
  · split at reused
    · exact absurd reused (by simp)
    · rename_i clean
      simp only [Bool.not_eq_true, Bool.or_eq_false_iff] at clean
      exact clean.1

end Terrain

/-- What a directive promises of everything below the directory to which names lead. -/
def Directive.Sound (old new : RuleMap) (names : List String) : Directive → Prop
  | .process => True
  | .assign rule => ∀ more rest, new.ruleOf (names ++ more) rest = rule
  | .reuse _ => ∀ more rest, old.ruleOf (names ++ more) rest = new.ruleOf (names ++ more) rest
  | .unmatched => False

namespace Terrain.Surveyed

variable {scope names : List String} {old new : RuleMap} {tree : DirTree Ground} {place : Stop}

/-- A directory without claims at or below it has the rule that comes from above. -/
theorem assign_sound (surveyed : Surveyed scope old new tree) (within : scope <+: names)
    (visited : (Stop.ofTree tree).visit names = some place) {name : String} (step : IsStep name.toList)
    (empty : ∀ inner, new (names ++ [name] ++ inner) = []) {rule : Nat}
    (settled : place.defaultFor name = .toRule rule) :
    Directive.Sound old new (names ++ [name]) (.assign rule) := by
  intro more rest
  have whole : dirOf (names ++ [name] ++ more) ++ rest =
      dirOf (names ++ [name]) ++ ((more.map String.toList).flatten ++ rest) := by
    rw [dirOf_append (names ++ [name]), List.append_assoc]
  have here := empty []
  rw [List.append_nil] at here
  rw [RuleMap.ruleOf, RuleMap.upTo_below new (names ++ [name]) _ fun inner _ => empty inner, RuleMap.upTo_eq,
    List.reverse_reverse, RuleMap.own_eq_none_of_empty here, Option.none_or, whole, List.reverse_append,
    List.reverse_singleton, List.singleton_append]
  exact surveyed.default_sound (Or.inr within) visited step settled _

/-- A directory below which no rule has changed keeps its rules. -/
theorem reuse_sound {old new : RuleMap} {names : List String} (rule : Nat)
    (same : ∀ inner, inner ≠ [] → old (names ++ inner) = new (names ++ inner))
    (start : ∀ rest, old.upTo (dirOf names ++ rest) names.reverse = new.upTo (dirOf names ++ rest) names.reverse) :
    Directive.Sound old new names (.reuse rule) := by
  intro more rest
  have whole : dirOf (names ++ more) ++ rest = dirOf names ++ ((more.map String.toList).flatten ++ rest) := by
    rw [dirOf_append, List.append_assoc]
  rw [RuleMap.ruleOf, RuleMap.ruleOf, RuleMap.upTo_congr_below old new names _ same]
  rw [whole]
  exact start _

/-- The directive of a directory that is visited but not walked keeps its promise. -/
theorem shortcut_sound (surveyed : Surveyed scope old new tree) (within : scope <+: names)
    (visited : (Stop.ofTree tree).visit names = some place) (unwalked : place.walks = false) :
    place.directive.Sound old new names := by
  have comparable : ∀ inner, Comparable scope (names ++ inner) := fun inner =>
    Or.inr (within.trans (List.prefix_append _ _))
  have here : Comparable scope names := Or.inr within
  have label : ∀ inner, tree.labelAt {} (names ++ inner) = place.tree.labelAt {} inner := fun inner =>
    DirTree.labelAt_append {} (sub?_of_visit visited)
  have ascending := DirTree.sub?_ascending surveyed.ascending (sub?_of_visit visited)
  rw [Stop.directive, unwalked, if_neg Bool.false_ne_true, Ground.shortcut]
  rw [Stop.walks, Ground.walks, Bool.or_eq_false_iff] at unwalked
  by_cases news : place.dirty || place.tree.below.any (·.changed)
  · rw [if_pos news]
    rw [news, Bool.true_and] at unwalked
    cases settled : place.tree.label.default place.inherited with
    | walk => simp [settled] at unwalked
    | toRule rule =>
      simp only [settled, Bool.or_eq_false_iff] at unwalked
      obtain ⟨_, onlyStar, none⟩ := unwalked
      have empty : ∀ inner, inner ≠ [] → new (names ++ inner) = [] := by
        intro inner some
        rw [← surveyed.rules_eq _ (comparable inner), label]
        simpa using DirTree.labelAt_of_any ascending none (by simp) some
      intro more rest
      have whole : dirOf (names ++ more) ++ rest = dirOf names ++ ((more.map String.toList).flatten ++ rest) := by
        rw [dirOf_append, List.append_assoc]
      rw [RuleMap.ruleOf, RuleMap.upTo_below new names _ empty, whole, RuleMap.upTo_eq, List.reverse_reverse,
        surveyed.own_eq_pick here visited]
      have stars : ∀ entry ∈ place.tree.label.rules, StartsWith "" entry.1 := by
        intro entry member
        have star : entry.1 = ['*'] := by simpa using List.any_eq_false.mp onlyStar entry member
        exact ⟨[], by rw [star]; rfl⟩
      rcases Ground.default_settles (surveyed.distinct_of_visit here visited) settled
        fun entry member _ => stars entry member with found | ⟨nothing, higher⟩
      · rw [found]
        rfl
      · rw [nothing, Option.none_or]
        exact surveyed.inherited_sound here visited higher _
  · rw [if_neg news]
    rw [Bool.not_eq_true, Bool.or_eq_false_iff] at news
    refine reuse_sound _ (fun inner some => ?_) (surveyed.clean_sound here visited news.1)
    refine surveyed.same _ (comparable inner) ?_
    rw [label]
    exact DirTree.labelAt_of_any ascending news.2 rfl some

/-- Nothing is known of what lies at or below a directory that is missing. -/
theorem labelAt_missing (visited : (Stop.ofTree tree).visit names = some place) {name : String}
    (missing : place.tree.below.find? name = none) (inner : List String) :
    tree.labelAt {} (names ++ [name] ++ inner) = {} := by
  rw [List.append_assoc, DirTree.labelAt_append {} (sub?_of_visit visited)]
  refine DirTree.labelAt_of_none ?_
  rw [List.singleton_append, DirTree.sub?, missing]
  rfl

/-- The directive of a subdirectory that is missing keeps its promise. -/
theorem default_directive_sound (surveyed : Surveyed scope old new tree) (within : scope <+: names)
    (visited : (Stop.ofTree tree).visit names = some place) {name : String}
    (missing : place.tree.below.find? name = none) (step : IsStep name.toList) :
    ((place.defaultFor name).directive place.dirty).Sound old new (names ++ [name]) := by
  have comparable : ∀ inner, Comparable scope (names ++ [name] ++ inner) := fun inner =>
    Or.inr (within.trans ((List.prefix_append _ _).trans (List.prefix_append _ _)))
  have empty : ∀ inner, new (names ++ [name] ++ inner) = [] := by
    intro inner
    rw [← surveyed.rules_eq _ (comparable inner), labelAt_missing visited missing]
  have same : ∀ inner, old (names ++ [name] ++ inner) = new (names ++ [name] ++ inner) := by
    intro inner
    refine surveyed.same _ (comparable inner) ?_
    rw [labelAt_missing visited missing]
  cases settled : place.defaultFor name with
  | walk => trivial
  | toRule rule =>
    rw [Default.directive]
    split
    · exact surveyed.assign_sound within visited step empty settled
    · rename_i clean
      rw [Bool.not_eq_true] at clean
      refine reuse_sound rule (fun inner _ => same inner) fun rest => ?_
      have here := same []
      rw [List.append_nil] at here
      have above := surveyed.clean_sound (Or.inr within) visited clean (name.toList ++ rest)
      rw [← List.append_assoc, ← dirOf_snoc] at above
      rw [List.reverse_append, List.reverse_singleton, List.singleton_append, RuleMap.upTo, RuleMap.upTo, above]
      rw [List.reverse_cons, List.reverse_reverse, RuleMap.own, RuleMap.own, here]

/-- Some directory that is visited is clean. -/
def Clean (scope : List String) (tree : DirTree Ground) : Prop :=
  ∃ names place, Comparable scope names ∧ (Stop.ofTree tree).visit names = some place ∧ place.dirty = false

/-- Nothing is clean where everything counts as changed. -/
theorem not_clean (surveyed : Surveyed scope old new tree) (top : tree.label.changed = true)
    (everywhere : ∀ names, Comparable scope names → new names ≠ [] → (tree.labelAt {} names).changed = true) :
    ¬ Clean scope tree := by
  rintro ⟨names, place, comparable, visited, clean⟩
  induction names using List.reverseRecOn generalizing place with
  | nil =>
    obtain rfl := Option.some.inj visited
    rw [Stop.ofTree, Ground.isDirty, top] at clean
    exact absurd clean (by simp)
  | append_singleton names key ih =>
    obtain ⟨above, there, _, stepped⟩ := visit_snoc_some visited
    rw [(next_some stepped).2.1, Ground.isDirty, Bool.or_eq_false_iff, Bool.and_eq_false_iff] at clean
    rcases clean.2 with higher | shield
    · exact ih above comparable.of_append there higher
    · obtain ⟨rule, found⟩ : ∃ rule, place.tree.label.star? = some rule := by
        simpa [Option.isNone_eq_false_iff, Option.isSome_iff_exists] using shield
      have ruled : new (names ++ [key]) ≠ [] := by
        rw [← surveyed.rules_of_visit comparable visited]
        exact List.ne_nil_of_mem (Ground.star?_eq_some found)
      have changed := everywhere _ comparable ruled
      rw [DirTree.labelAt_of_some (sub?_of_visit visited), clean.1] at changed
      exact absurd changed (by simp)

/-- Every subdirectory of a directory that is walked has a directive that keeps its promise, and is
walked itself if that says so. -/
theorem station_child (surveyed : Surveyed scope old new tree) {dirs : Matcher Directive}
    (compiled : Matcher.compile ((Stop.ofTree tree).directives ['/']) = .ok dirs) (within : scope <+: names)
    (station : Station tree names) {name : String} (step : IsStep name.toList) : ∃ directive,
      dirs.lookup (dirOf (names ++ [name])) = some directive ∧ directive.Sound old new (names ++ [name]) ∧
      (directive = .process → Station tree (names ++ [name])) ∧
      (∀ rule, directive = .reuse rule → Clean scope tree) := by
  cases station with
  | @visited _ place visited walked =>
    cases found : place.tree.below.find? name with
    | none =>
      refine ⟨_, lookup_below surveyed.ascending surveyed.tidy compiled visited walked found step areSteps_nil,
        surveyed.default_directive_sound within visited found step, fun processed => ?_, fun rule reused => ?_⟩
      · exact .beyond visited walked found step (Default.eq_walk processed) areSteps_nil
      · exact ⟨names, place, Or.inr within, visited, Default.not_dirty reused⟩
    | some inner =>
      obtain ⟨ground, below⟩ := inner
      have stepped : (Stop.ofTree tree).visit (names ++ [name]) =
          some ⟨place.defaultFor name, ground.isDirty place.dirty, ⟨ground, below⟩⟩ := by
        rw [Stop.visit_snoc, visited, Option.bind_some, if_pos walked, Stop.next, found]
        rfl
      refine ⟨_, lookup_visited surveyed.ascending surveyed.tidy compiled stepped, ?_, fun processed => ?_,
        fun rule reused => ?_⟩
      · by_cases walks : (Stop.mk (place.defaultFor name) (ground.isDirty place.dirty) ⟨ground, below⟩).walks
        · rw [Stop.directive, if_pos walks]
          trivial
        · exact surveyed.shortcut_sound (within.trans (List.prefix_append _ _)) stepped (by simpa using walks)
      · exact .visited stepped (Stop.walks_of_process processed)
      · exact ⟨_, _, Or.inr (within.trans (List.prefix_append _ _)), stepped, Stop.not_dirty reused⟩
  | @beyond above more key place visited walked missing stepKey walk areSteps =>
    have deeper : AreSteps (more ++ [name]) := areSteps.snoc step
    refine ⟨.process, ?_, trivial, fun _ => ?_, fun rule reused => absurd reused (by simp)⟩
    · rw [List.append_assoc, List.cons_append,
        lookup_below surveyed.ascending surveyed.tidy compiled visited walked missing stepKey deeper, walk]
      rfl
    · rw [List.append_assoc, List.cons_append]
      exact .beyond visited walked missing stepKey walk deeper

/-- The scope and all directories above it are visited and walked. -/
theorem visited_scope (surveyed : Surveyed scope old new tree) :
    ∃ place, (Stop.ofTree tree).visit scope = some place ∧ place.walks := by
  have leading : ∀ names, names <+: scope → ∃ place, (Stop.ofTree tree).visit names = some place ∧ place.walks := by
    intro names
    induction names using List.reverseRecOn with
    | nil =>
      intro held
      refine ⟨_, rfl, ?_⟩
      rw [Stop.walks, Ground.walks, Bool.or_eq_true]
      exact Or.inl (surveyed.leads [] held).1
    | append_singleton names name ih =>
      intro held
      obtain ⟨place, visited, walked⟩ := ih ((List.prefix_append _ _).trans held)
      obtain ⟨leads, there⟩ := surveyed.leads _ held
      obtain ⟨found, here⟩ := Option.isSome_iff_exists.mp there
      rw [DirTree.labelAt_of_some here] at leads
      rw [DirTree.sub?_append, sub?_of_visit visited, Option.bind_some, DirTree.sub?, Option.bind_eq_some_iff] at here
      obtain ⟨⟨ground, below⟩, known, same⟩ := here
      obtain rfl := Option.some.inj same
      refine ⟨⟨place.defaultFor name, ground.isDirty place.dirty, ⟨ground, below⟩⟩, ?_, ?_⟩
      · rw [Stop.visit_snoc, visited, Option.bind_some, if_pos walked, Stop.next, known]
        rfl
      · rw [Stop.walks, Ground.walks, Bool.or_eq_true]
        exact Or.inl leads
  exact leading scope (List.prefix_refl _)

/-- The build starts in a directory that is walked. -/
theorem station_scope (surveyed : Surveyed scope old new tree) : Station tree scope := by
  obtain ⟨place, visited, walked⟩ := surveyed.visited_scope
  exact .visited visited walked

end Terrain.Surveyed
end BackupAtlas
