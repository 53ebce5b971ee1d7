import Mathlib.Data.List.Nodup
import BackupAtlas.Proofs.Paths
import BackupAtlas.Proofs.SearchMemory

namespace BackupAtlas

open TreePath

/-- The rules of directories, patterns with ids, by the names that lead to a directory. -/
abbrev RuleMap := List String → List (List Char × Nat)

/-- What the rules of a single directory say of the rest of a path behind that directory. -/
def pick (rules : List (List Char × Nat)) (rest : List Char) : Option Nat :=
  match Matcher.compile rules with
  | .ok matcher => matcher.lookup rest
  | .error _ => none

/-- The rule that is picked in a directory is the one with the pattern that decides. -/
theorem pick_spec {rules : List (List Char × Nat)} (distinct : (rules.map (·.1)).Nodup) (rest : List Char) :
    (pick rules rest = none ∧ ∀ entry ∈ rules, ¬ Matches (entry.1.map .ofChar) rest) ∨
      ∃ text rule, pick rules rest = some rule ∧ (text, rule) ∈ rules ∧
        Decides (text.map .ofChar) (Matcher.isListed rules) rest := by
  obtain ⟨matcher, compiled, answers⟩ := Matcher.lookup_spec distinct
  simp only [pick, compiled]
  exact answers rest

namespace RuleMap

/-- Patterns are names without slashes, all different in one directory, and only directories whose
paths have no star have rules. -/
structure Proper (map : RuleMap) : Prop where
  distinct : ∀ names, ((map names).map (·.1)).Nodup
  plain : ∀ names, ∀ entry ∈ map names, '/' ∉ entry.1
  steps : ∀ names, map names ≠ [] → AreSteps names
  starless : ∀ names, map names ≠ [] → '*' ∉ dirOf names

/-- What the rules of one directory say of a path below it. -/
def own (map : RuleMap) (path : List Char) (names : List String) : Option Nat :=
  pick (map names) (path.drop (dirOf names).length)

/-- The rule from the deepest directory that has one for a path. The names of the directory stand in
reverse. -/
def upTo (map : RuleMap) (path : List Char) : List String → Option Nat
  | [] => map.own path []
  | name :: trail => (map.own path (name :: trail).reverse).or (map.upTo path trail)

/-- Patterns that are those of all rules in the directories in scope. -/
structure Lists (map : RuleMap) (inScope : List String → Prop) (patterns : List (List Char × Nat)) : Prop where
  distinct : (patterns.map (·.1)).Nodup
  mem_iff : ∀ text rule, (text, rule) ∈ patterns ↔
    ∃ names pattern, inScope names ∧ (pattern, rule) ∈ map names ∧ text = dirOf names ++ pattern

variable {map : RuleMap} {inScope : List String → Prop} {patterns : List (List Char × Nat)}

/-- Directories without a matching rule are passed over on the way up. -/
theorem upTo_append (map : RuleMap) (path : List Char) (more trail : List String)
    (nothing : ∀ inner, inner <:+ more → inner ≠ [] → map.own path (inner ++ trail).reverse = none) :
    map.upTo path (more ++ trail) = map.upTo path trail := by
  induction more with
  | nil => rfl
  | cons name more ih =>
    have here := nothing (name :: more) (List.suffix_refl _) (by simp)
    rw [List.cons_append] at here ⊢
    rw [upTo, here, Option.none_or]
    exact ih fun inner suffix => nothing inner (suffix.trans (List.suffix_cons _ _))

/-- The first matching rule on the way up decides. -/
theorem upTo_of_own {path : List Char} {trail : List String} {rule : Nat}
    (found : map.own path trail.reverse = some rule) : map.upTo path trail = some rule := by
  cases trail with
  | nil => exact found
  | cons name trail => rw [upTo, found, Option.some_or]

theorem upTo_eq_none {path : List Char} {trail : List String}
    (nothing : ∀ inner, inner <:+ trail → map.own path inner.reverse = none) : map.upTo path trail = none := by
  induction trail with
  | nil => exact nothing [] (List.suffix_refl _)
  | cons name trail ih =>
    rw [upTo, nothing _ (List.suffix_refl _), Option.none_or]
    exact ih fun inner suffix => nothing inner (suffix.trans (List.suffix_cons _ _))

namespace Proper

/-- A rule of a directory matches what its pattern matches behind the path of the directory. -/
theorem matches_iff (proper : map.Proper) {names : List String} {pattern path : List Char} {rule : Nat}
    (member : (pattern, rule) ∈ map names) : Matches ((dirOf names ++ pattern).map .ofChar) path ↔
      ∃ rest, path = dirOf names ++ rest ∧ Matches (pattern.map .ofChar) rest := by
  rw [List.map_append, Symbol.map_ofChar (proper.starless names (List.ne_nil_of_mem member)), matches_literals_append]

theorem own_eq_none (proper : map.Proper) (names : List String) (path : List Char)
    (nothing : ∀ pattern rule, (pattern, rule) ∈ map names → ¬ Matches ((dirOf names ++ pattern).map .ofChar) path)
    (held : dirOf names <+: path) : map.own path names = none := by
  obtain ⟨rest, rfl⟩ := held
  rw [own, List.drop_left]
  rcases pick_spec (proper.distinct names) rest with ⟨failed, _⟩ | ⟨pattern, rule, _, member, decides⟩
  · exact failed
  · exact absurd ((proper.matches_iff member).mpr ⟨rest, rfl, decides.fits⟩) (nothing pattern rule member)

/-- The pattern that decides among those of all directories decides in its own directory. -/
theorem own_eq_some (proper : map.Proper) (lists : map.Lists inScope patterns) {names : List String}
    {pattern path : List Char} {rule : Nat} (inside : inScope names) (member : (pattern, rule) ∈ map names)
    (decides : Decides ((dirOf names ++ pattern).map .ofChar) (Matcher.isListed patterns) path) :
    map.own path names = some rule := by
  have plain := Symbol.map_ofChar (proper.starless names (List.ne_nil_of_mem member))
  rw [List.map_append, plain, decides_literals_append] at decides
  obtain ⟨rest, rfl, decides⟩ := decides
  have here : Decides (pattern.map .ofChar) (Matcher.isListed (map names)) rest := by
    refine decides.of_fewer ?_ ⟨(pattern, rule), member, rfl⟩
    rintro other ⟨entry, listed, rfl⟩
    refine ⟨(dirOf names ++ entry.1, entry.2), ?_, by rw [List.map_append, plain]⟩
    exact (lists.mem_iff _ _).mpr ⟨names, entry.1, inside, listed, rfl⟩
  rw [own, List.drop_left]
  rcases pick_spec (proper.distinct names) rest with ⟨_, nothing⟩ | ⟨text, value, found, listed, also⟩
  · exact absurd here.fits (nothing _ member)
  · have same := (List.map_inj_right fun _ _ => @Symbol.ofChar_injective _ _).mp (here.unique also)
    subst same
    have equal := (Prod.mk.inj (List.inj_on_of_nodup_map (proper.distinct names) listed member rfl)).2
    rw [found, equal]

end Proper

/-- Of two directories with a matching rule the deeper one decides. -/
theorem Proper.deepest (proper : map.Proper) {names above : List String} {pattern other path : List Char}
    {rule value : Nat} (member : (pattern, rule) ∈ map names) (also : (other, value) ∈ map above)
    (decides : Decides ((dirOf above ++ other).map .ofChar) (Matcher.isListed patterns) path)
    (listed : (dirOf names ++ pattern, rule) ∈ patterns)
    (fits : Matches ((dirOf names ++ pattern).map .ofChar) path) : names <+: above := by
  have stepsNames := proper.steps names (List.ne_nil_of_mem member)
  have stepsAbove := proper.steps above (List.ne_nil_of_mem also)
  have longest := decides.literalHead_le ⟨_, listed, rfl⟩ fits
  have head := fits.literalHead_prefix
  have headAbove := decides.fits.literalHead_prefix
  rw [List.map_append, Symbol.map_ofChar (proper.starless _ (List.ne_nil_of_mem member)),
    literalHead_literals_append] at head longest
  rw [List.map_append, Symbol.map_ofChar (proper.starless _ (List.ne_nil_of_mem also)),
    literalHead_literals_append] at headAbove longest
  rw [literalHead_ofChar] at headAbove longest
  rw [literalHead_ofChar] at longest
  -- both literal starts are in front of the path, so the directory is in front of the longer one
  have held : dirOf names <+: dirOf above ++ other.takeWhile (· != '*') := by
    refine List.prefix_of_prefix_length_le ((List.prefix_append _ _).trans head) headAbove ?_
    refine Nat.le_trans ?_ longest
    simp
  refine (dirOf_prefix_iff stepsNames stepsAbove ?_).mp held
  exact fun slash => proper.plain above _ also ((List.takeWhile_prefix _).subset slash)

/-- What a search among all patterns in scope finds for a file. -/
theorem Lists.lookup_spec (lists : map.Lists inScope patterns) (proper : map.Proper) :
    ∃ matcher, Matcher.compile patterns = .ok matcher ∧
      (∀ path, path.head? ≠ some '/' → matcher.lookup path = none) ∧
      ∀ names rest, AreSteps names → '/' ∉ rest → (∀ above, above <+: names → inScope above) →
        matcher.lookup (dirOf names ++ rest) = map.upTo (dirOf names ++ rest) names.reverse := by
  obtain ⟨matcher, compiled, answers⟩ := Matcher.lookup_spec lists.distinct
  refine ⟨matcher, compiled, fun path relative => ?_, fun names rest areSteps plain inside => ?_⟩
  · rcases answers path with ⟨failed, _⟩ | ⟨text, rule, _, member, decides⟩
    · exact failed
    · obtain ⟨names, pattern, _, owned, rfl⟩ := (lists.mem_iff _ _).mp member
      obtain ⟨rest, rfl, _⟩ := (proper.matches_iff owned).mp decides.fits
      exact absurd rfl relative
  · have above : ∀ inner, inner <:+ names.reverse → inner.reverse <+: names := fun inner suffix => by
      simpa using List.reverse_prefix.mpr suffix
    rcases answers (dirOf names ++ rest) with ⟨failed, nothing⟩ | ⟨text, rule, found, member, decides⟩
    · rw [failed, upTo_eq_none fun inner suffix => ?_]
      refine proper.own_eq_none _ _ (fun pattern rule owned => nothing (dirOf inner.reverse ++ pattern, rule) ?_) ?_
      · exact (lists.mem_iff _ _).mpr ⟨_, pattern, inside _ (above inner suffix), owned, rfl⟩
      · obtain ⟨more, same⟩ := above inner suffix
        rw [← same, dirOf_append, List.append_assoc]
        exact List.prefix_append _ _
    · obtain ⟨deciding, pattern, within, owned, rfl⟩ := (lists.mem_iff _ _).mp member
      obtain ⟨_, same, _⟩ := (proper.matches_iff owned).mp decides.fits
      have held : deciding <+: names := (dirOf_prefix_iff (proper.steps _ (List.ne_nil_of_mem owned)) areSteps plain).mp
        ⟨_, same.symm⟩
      obtain ⟨more, rfl⟩ := held
      rw [found, List.reverse_append, upTo_append]
      · exact (upTo_of_own (by rw [List.reverse_reverse]; exact proper.own_eq_some lists within owned decides)).symm
      · intro inner suffix deeper
        rw [List.reverse_append, List.reverse_reverse]
        refine proper.own_eq_none _ _ (fun other value also fits => ?_) ?_
        · have shorter := (proper.deepest also owned decides
            ((lists.mem_iff _ _).mpr ⟨_, other, inside _ ?_, also, rfl⟩) fits).length_le
          · have some := List.length_pos_iff.mpr deeper
            rw [List.length_append, List.length_reverse] at shorter
            omega
          · exact List.prefix_append_right_inj _ |>.mpr (by simpa using List.reverse_prefix.mpr suffix)
        · have prefixes : inner.reverse <+: more := by simpa using List.reverse_prefix.mpr suffix
          obtain ⟨others, rfl⟩ := prefixes
          rw [← List.append_assoc, dirOf_append (deciding ++ inner.reverse), List.append_assoc]
          exact List.prefix_append _ _

end RuleMap
end BackupAtlas
