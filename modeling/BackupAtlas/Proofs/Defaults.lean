import BackupAtlas.Proofs.Governing
import BackupAtlas.Proofs.RuleSets
import BackupAtlas.Terrain

namespace BackupAtlas

open TreePath

/-- A proper beginning of a text comes before the text. -/
theorem lt_of_starts {a b : String} (held : a.toList <+: b.toList) (differs : a ≠ b) : a < b := by
  obtain ⟨more, same⟩ := held
  cases more with
  | nil => exact absurd (String.toList_inj.mp (by simpa using same)) differs
  | cons c more =>
    show a.toList < b.toList
    have less : a.toList ++ [] < a.toList ++ c :: more := List.append_left_lt (List.nil_lt_cons c more)
    rwa [same, List.append_nil] at less

/-- In ascending order the last text that a name starts with is the longest. -/
theorem Entries.Ascending.longest {α : Type} {entries : List (String × α)} (ascending : Entries.Ascending entries)
    {name text : String} {value : α}
    (last : (entries.filter fun entry => entry.1.toList.isPrefixOf name.toList).getLast? = some (text, value)) :
    (text, value) ∈ entries ∧ text.toList <+: name.toList ∧
      ∀ other ∈ entries, other.1.toList <+: name.toList → other.1.toList <+: text.toList := by
  obtain ⟨front, same⟩ := List.getLast?_eq_some_iff.mp last
  have member : (text, value) ∈ entries.filter fun entry => entry.1.toList.isPrefixOf name.toList := by simp [same]
  obtain ⟨listed, held⟩ := List.mem_filter.mp member
  rw [List.isPrefixOf_iff_prefix] at held
  refine ⟨listed, held, fun other also within => ?_⟩
  rcases List.prefix_or_prefix_of_prefix within held with shorter | longer
  · exact shorter
  · have inside : other ∈ front ++ [(text, value)] := by
      rw [← same]
      exact List.mem_filter.mpr ⟨also, List.isPrefixOf_iff_prefix.mpr within⟩
    rcases List.mem_append.mp inside with before | here
    · have sorted : Entries.Ascending (front ++ [(text, value)]) := same ▸ ascending.filter _
      have less := (List.pairwise_append.mp sorted).2.2 other before (text, value) (by simp)
      by_cases equal : text = other.1
      · exact equal ▸ List.prefix_refl _
      · exact absurd less (String.lt_asymm (lt_of_starts longer equal))
    · obtain rfl := List.mem_singleton.mp here
      exact List.prefix_refl _

namespace Pattern

/-- A pattern is cut at its first star. -/
theorem cut?_eq_some {pattern text rest : List Char} :
    cut? pattern = some (text, rest) ↔ pattern = text ++ '*' :: rest ∧ '*' ∉ text := by
  rw [cut?]
  constructor
  · intro found
    have whole := List.takeWhile_append_dropWhile (p := (· != '*')) (l := pattern)
    have plain : '*' ∉ pattern.takeWhile (· != '*') := fun star => by
      simpa using List.all_eq_true.mp List.all_takeWhile _ star
    cases behind : pattern.dropWhile (· != '*') with
    | nil => simp [behind] at found
    | cons c tail =>
      have star : c = '*' := by
        have first := List.head?_dropWhile_not (· != '*') pattern
        simpa [behind] using first
      simp only [behind, Option.some.injEq, Prod.mk.injEq] at found
      obtain ⟨rfl, rfl⟩ := found
      rw [behind, star] at whole
      exact ⟨whole.symm, plain⟩
  · rintro ⟨rfl, plain⟩
    have all : ∀ c ∈ text, (c != '*') = true := fun c member => by
      simpa using fun same : c = '*' => plain (same ▸ member)
    rw [List.dropWhile_append_of_pos all, List.takeWhile_append_of_pos all]
    simp

theorem cut?_eq_none {pattern : List Char} : cut? pattern = none ↔ '*' ∉ pattern := by
  constructor
  · intro missing star
    obtain ⟨text, rest, same, plain⟩ := List.eq_append_cons_of_mem star
    rw [cut?_eq_some.mpr ⟨same, plain⟩] at missing
    simp at missing
  · intro plain
    cases found : cut? pattern with
    | none => rfl
    | some pieces =>
      obtain ⟨same, _⟩ := cut?_eq_some.mp (show cut? pattern = some (pieces.1, pieces.2) from found)
      exact absurd (by rw [same]; simp) plain

end Pattern
namespace Terrain

/-- Takes note of one more pattern. -/
def addHead (heads : List (String × Default)) (entry : List Char × Nat) : List (String × Default) :=
  match Pattern.cut? entry.1 with
  | none | some ([], _) => heads
  | some (text, rest) =>
    let text := String.ofList text
    let single := rest = [] ∧ (Entries.get? text heads).isNone
    Entries.insert text (if single then .toRule entry.2 else .walk) heads

/-- Whether a pattern has `text` before its first star. -/
def StartsWith (text : String) (pattern : List Char) : Prop := ∃ rest, Pattern.cut? pattern = some (text.toList, rest)

/-- A pattern that starts with literal text decides the default of that text. -/
theorem get?_addHead {heads : List (String × Default)} {entry : List Char × Nat} {text : String} {rest : List Char}
    (cut : Pattern.cut? entry.1 = some (text.toList, rest)) (nonempty : text ≠ "") :
    Entries.get? text (addHead heads entry) =
      some (if rest = [] ∧ (Entries.get? text heads).isNone then .toRule entry.2 else .walk) := by
  unfold addHead
  split
  · rename_i missing
    exact absurd (cut.symm.trans missing) (by simp)
  · rename_i empty
    have same := (Prod.mk.inj (Option.some.inj (cut.symm.trans empty))).1
    exact absurd (String.toList_inj.mp same) nonempty
  · rename_i found
    obtain ⟨rfl, rfl⟩ := Prod.mk.inj (Option.some.inj (cut.symm.trans found))
    rw [Entries.get?_insert, String.ofList_toList, if_pos rfl]

theorem get?_addHead_of_not {heads : List (String × Default)} {entry : List Char × Nat} {text : String}
    (other : ¬ StartsWith text entry.1) : Entries.get? text (addHead heads entry) = Entries.get? text heads := by
  unfold addHead
  split
  · rfl
  · rfl
  · rename_i head rest _ found
    rw [Entries.get?_insert, if_neg]
    rintro rfl
    exact other ⟨rest, by rw [found, String.toList_ofList]⟩

theorem addHead_ascending {heads : List (String × Default)} (ascending : Entries.Ascending heads)
    (entry : List Char × Nat) : Entries.Ascending (addHead heads entry) := by
  unfold addHead
  split
  · exact ascending
  · exact ascending
  · exact ascending.insert _ _

theorem addHead_nonempty {heads : List (String × Default)} (nonempty : ∀ entry ∈ heads, entry.1 ≠ "")
    (entry : List Char × Nat) : ∀ other ∈ addHead heads entry, other.1 ≠ "" := by
  intro other member
  unfold addHead at member
  split at member
  · exact nonempty other member
  · exact nonempty other member
  · rename_i text rest some _
    rcases Entries.mem_of_mem_insert member with rfl | old
    · intro empty
      exact some (by simpa using congrArg String.toList empty)
    · exact nonempty other old

/-- What `heads` says of the rules it has been made from. -/
structure Describes (rules : List (List Char × Nat)) (heads : List (String × Default)) : Prop where
  ascending : Entries.Ascending heads
  nonempty : ∀ entry ∈ heads, entry.1 ≠ ""
  known : ∀ text ≠ "", (∃ entry ∈ rules, StartsWith text entry.1) ↔ (Entries.get? text heads).isSome
  single : ∀ text rule, Entries.get? text heads = some (.toRule rule) →
    (text.toList ++ ['*'], rule) ∈ rules ∧
      ∀ entry ∈ rules, StartsWith text entry.1 → entry = (text.toList ++ ['*'], rule)

/-- One more rule is described by one more head. -/
theorem Describes.step {rules : List (List Char × Nat)} {heads : List (String × Default)}
    (describes : Describes rules heads) (entry : List Char × Nat) :
    Describes (rules ++ [entry]) (addHead heads entry) := by
  refine ⟨addHead_ascending describes.ascending entry, addHead_nonempty describes.nonempty entry, ?_, ?_⟩
  · intro text nonempty
    by_cases here : StartsWith text entry.1
    · obtain ⟨rest, cut⟩ := here
      rw [get?_addHead cut nonempty]
      exact ⟨fun _ => rfl, fun _ => ⟨entry, by simp, rest, cut⟩⟩
    · rw [get?_addHead_of_not here, ← describes.known text nonempty]
      constructor
      · rintro ⟨other, member, starts⟩
        rcases List.mem_append.mp member with old | new
        · exact ⟨other, old, starts⟩
        · rw [List.mem_singleton.mp new] at starts
          exact absurd starts here
      · rintro ⟨other, member, starts⟩
        exact ⟨other, List.mem_append_left _ member, starts⟩
  · intro text rule found
    by_cases here : StartsWith text entry.1
    · obtain ⟨rest, cut⟩ := here
      have nonempty : text ≠ "" := by
        rintro rfl
        obtain ⟨other, member, same⟩ : ∃ other ∈ addHead heads entry, other.1 = "" :=
          ⟨_, (Entries.get?_eq_some (addHead_ascending describes.ascending entry)).mp found, rfl⟩
        exact addHead_nonempty describes.nonempty entry other member same
      rw [get?_addHead cut nonempty] at found
      split at found
      · rename_i single
        obtain ⟨rfl, fresh⟩ := single
        obtain rfl : entry.2 = rule := by simpa using found
        have whole := (Pattern.cut?_eq_some.mp cut).1
        refine ⟨by simp [← whole], fun other member starts => ?_⟩
        rcases List.mem_append.mp member with old | new
        · have known := (describes.known text nonempty).mp ⟨other, old, starts⟩
          exact absurd known (by simpa using fresh)
        · rw [List.mem_singleton.mp new, ← whole]
      · exact absurd found (by simp)
    · rw [get?_addHead_of_not here] at found
      obtain ⟨member, only⟩ := describes.single text rule found
      refine ⟨List.mem_append_left _ member, fun other listed starts => ?_⟩
      rcases List.mem_append.mp listed with old | new
      · exact only other old starts
      · rw [List.mem_singleton.mp new] at starts
        exact absurd starts here

theorem Describes.steps {rules more : List (List Char × Nat)} {heads : List (String × Default)}
    (describes : Describes rules heads) : Describes (rules ++ more) (more.foldl addHead heads) := by
  induction more generalizing rules heads with
  | nil => simpa using describes
  | cons entry more ih =>
    have rest := ih (describes.step entry)
    rwa [List.append_assoc] at rest

/-- The heads of a directory describe its rules. -/
theorem Ground.describes_heads (ground : Ground) : Describes ground.rules ground.heads := by
  have start : Describes [] [] := ⟨.nil, by simp, by simp [Entries.get?], by simp [Entries.get?]⟩
  exact start.steps

theorem StartsWith.takeWhile_eq {text : String} {pattern : List Char} (starts : StartsWith text pattern) :
    pattern.takeWhile (· != '*') = text.toList := by
  obtain ⟨rest, cut⟩ := starts
  obtain ⟨rfl, plain⟩ := Pattern.cut?_eq_some.mp cut
  have all : ∀ c ∈ text.toList, (c != '*') = true := fun c member => by
    simpa using fun same : c = '*' => plain (same ▸ member)
  rw [List.takeWhile_append_of_pos all]
  simp

/-- Without slashes a pattern needs a star for what is below a subdirectory, and the text before that
star is the start of the name. -/
theorem startsWith_of_matches {pattern name rest : List Char} (plain : '/' ∉ pattern) (step : IsStep name)
    (fits : Matches (pattern.map .ofChar) (name ++ rest)) :
    ∃ text : String, StartsWith text pattern ∧ text.toList <+: name := by
  have slash : '/' ∈ name := by
    obtain ⟨stem, _, rfl⟩ := step
    simp
  cases cut : Pattern.cut? pattern with
  | none =>
    rw [Symbol.map_ofChar (Pattern.cut?_eq_none.mp cut), matches_literals] at fits
    exact absurd (fits ▸ List.mem_append_left _ slash) plain
  | some pieces =>
    obtain ⟨text, tail⟩ := pieces
    have starts : StartsWith (String.ofList text) pattern := ⟨tail, by rw [cut, String.toList_ofList]⟩
    refine ⟨_, starts, ?_⟩
    have held := fits.literalHead_prefix
    rw [literalHead_ofChar, starts.takeWhile_eq, String.toList_ofList] at held
    rw [String.toList_ofList]
    refine (step.starts (fun slash => plain ?_) held).1
    rw [(Pattern.cut?_eq_some.mp cut).1]
    exact List.mem_append_left _ slash

namespace Ground

variable {ground : Ground} {inherited : Default} {rule : Nat}

theorem star?_eq_some (found : ground.star? = some rule) : (['*'], rule) ∈ ground.rules := by
  obtain ⟨⟨pattern, id⟩, here, rfl⟩ := Option.map_eq_some_iff.mp found
  have star := List.find?_some here
  exact (beq_iff_eq.mp star : pattern = ['*']) ▸ List.mem_of_find?_eq_some here

theorem star?_eq_none (missing : ground.star? = none) (rule : Nat) : (['*'], rule) ∉ ground.rules := by
  intro member
  have other := List.find?_eq_none.mp (Option.map_eq_none_iff.mp missing) _ member
  simp at other

/-- A pattern that starts with a star is the star, if none has that shape. -/
theorem eq_star (shapeless : ground.hasShape .starFirst = false) {pattern : List Char} {id : Nat}
    (member : (pattern, id) ∈ ground.rules) (starts : StartsWith "" pattern) : pattern = ['*'] := by
  obtain ⟨rest, cut⟩ := starts
  obtain ⟨rfl, _⟩ := Pattern.cut?_eq_some.mp cut
  cases rest with
  | nil => rfl
  | cons c rest =>
    have other := List.any_eq_false.mp shapeless _ member
    simp [Pattern.Shape.of] at other

theorem matches_star (path : List Char) : Matches (['*'].map .ofChar) path := ⟨[], List.nil_suffix, rfl⟩

variable (distinct : (ground.rules.map (·.1)).Nodup)

include distinct

/-- A pattern of a directory belongs to one rule. -/
theorem value_unique {pattern : List Char} {id : Nat} (member : (pattern, id) ∈ ground.rules)
    (also : (pattern, rule) ∈ ground.rules) : id = rule :=
  (Prod.mk.inj (List.inj_on_of_nodup_map distinct member also rfl)).2

/-- The default of a directory, apart from names that have one of their own. -/
theorem default_settles {path : List Char} (settled : ground.default inherited = .toRule rule)
    (onlyStars : ∀ entry ∈ ground.rules, Matches (entry.1.map .ofChar) path → StartsWith "" entry.1) :
    pick ground.rules path = some rule ∨ (pick ground.rules path = none ∧ inherited = .toRule rule) := by
  rw [default] at settled
  split at settled
  · exact absurd settled (by simp)
  · rename_i shapeless
    rw [Bool.not_eq_true] at shapeless
    rcases pick_spec distinct path with ⟨failed, nothing⟩ | ⟨pattern, id, found, member, decides⟩
    · split at settled
      · rename_i star
        exact absurd (matches_star path) (nothing _ (star?_eq_some star))
      · exact Or.inr ⟨failed, settled⟩
    · obtain rfl := eq_star shapeless member (onlyStars _ member decides.fits)
      split at settled
      · rename_i star
        obtain rfl := Default.toRule.inj settled
        exact Or.inl (by rw [found, value_unique distinct member (star?_eq_some star)])
      · rename_i missing
        exact absurd member (star?_eq_none missing id)

variable (plain : ∀ entry ∈ ground.rules, '/' ∉ entry.1)

include plain

/-- If the default of a subdirectory is a single rule, the rules of the directory give everything
below it to that rule, unless they say nothing and the rule is inherited. -/
theorem inherit_settles {name : String} {rest : List Char} (step : IsStep name.toList)
    (settled : inherit (ground.default inherited) ground.heads name = .toRule rule) :
    pick ground.rules (name.toList ++ rest) = some rule ∨
      (pick ground.rules (name.toList ++ rest) = none ∧ inherited = .toRule rule) := by
  have describes := ground.describes_heads
  rw [inherit] at settled
  split at settled
  · rename_i text default last
    subst settled
    obtain ⟨listed, held, longest⟩ := describes.ascending.longest last
    obtain ⟨member, only⟩ := describes.single text rule ((Entries.get?_eq_some describes.ascending).mpr listed)
    have starts : StartsWith text (text.toList ++ ['*']) := by
      obtain ⟨entry, among, starts⟩ := (describes.known text (describes.nonempty _ listed)).mpr
        (by rw [(Entries.get?_eq_some describes.ascending).mpr listed]; rfl)
      rwa [only entry among starts] at starts
    refine Or.inl ?_
    have fits : Matches ((text.toList ++ ['*']).map .ofChar) (name.toList ++ rest) := by
      obtain ⟨more, same⟩ := held
      obtain ⟨_, cut⟩ := starts
      rw [List.map_append, Symbol.map_ofChar (Pattern.cut?_eq_some.mp cut).2, matches_literals_append, ← same]
      exact ⟨more ++ rest, List.append_assoc _ _ _, matches_star _⟩
    rcases pick_spec distinct (name.toList ++ rest) with ⟨_, nothing⟩ | ⟨pattern, id, found, among, decides⟩
    · exact absurd fits (nothing _ member)
    · obtain ⟨other, startsOther, heldOther⟩ := startsWith_of_matches (plain _ among) step decides.fits
      have longer := decides.literalHead_le ⟨_, member, rfl⟩ fits
      rw [literalHead_ofChar, literalHead_ofChar, starts.takeWhile_eq, startsOther.takeWhile_eq] at longer
      have same : other = text := by
        by_cases empty : other = ""
        · subst empty
          exact (String.toList_inj.mp (List.length_eq_zero_iff.mp (Nat.le_zero.mp longer))).symm
        · obtain ⟨value, known⟩ := Option.isSome_iff_exists.mp
            ((describes.known other empty).mp ⟨_, among, startsOther⟩)
          have shorter := longest _ ((Entries.get?_eq_some describes.ascending).mp known) heldOther
          exact String.toList_inj.mp (shorter.eq_of_length (Nat.le_antisymm shorter.length_le longer))
      subst same
      rw [found, (Prod.mk.inj (only _ among startsOther)).2]
  · rename_i missing
    refine default_settles distinct settled fun entry among fits => ?_
    obtain ⟨text, starts, held⟩ := startsWith_of_matches (plain _ among) step fits
    by_cases empty : text = ""
    · exact empty ▸ starts
    · obtain ⟨value, known⟩ := Option.isSome_iff_exists.mp ((describes.known text empty).mp ⟨_, among, starts⟩)
      have listed := (Entries.get?_eq_some describes.ascending).mp known
      rw [List.getLast?_eq_none_iff, List.filter_eq_nil_iff] at missing
      exact absurd (List.isPrefixOf_iff_prefix.mpr held) (missing _ listed)

end Ground

end Terrain
end BackupAtlas
