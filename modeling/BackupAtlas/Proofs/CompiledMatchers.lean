import BackupAtlas.Proofs.SearchMemory
import BackupAtlas.Proofs.Spellings
import Mathlib.Data.List.Nodup

namespace BackupAtlas

namespace Place

variable {α : Type}

/-- Of all answers only one is right. -/
theorem Answers.unique {held : List Symbol → Option α} {path : List Char} {first second : Option α}
    (answers : Answers held path first) (also : Answers held path second) : first = second := by
  cases first with
  | none =>
    cases second with
    | none => rfl
    | some value =>
      obtain ⟨pattern, found, decides⟩ := also
      exact absurd decides.fits (answers pattern decides.is_held)
  | some value =>
    obtain ⟨pattern, found, decides⟩ := answers
    cases second with
    | none => exact absurd decides.fits (also pattern decides.is_held)
    | some other =>
      obtain ⟨pattern', found', decides'⟩ := also
      rw [← found, ← found', decides.unique decides']

/-- What is right of characters is right of bytes. -/
theorem Answers.spelled {held inBytes : List Symbol → Option α} {path : List Char} {answer : Option α}
    (answers : Answers held path answer) (same : ∀ pattern value, inBytes pattern = some value ↔
      ∃ plain, held plain = some value ∧ pattern = plain.flatMap Symbol.spell) :
    Answers inBytes (Utf8.spell path) answer := by
  have listed : (fun pattern => (inBytes pattern).isSome : List Symbol → Prop) =
      Spelled fun plain => (held plain).isSome := by
    funext pattern
    refine propext ⟨fun present => ?_, ?_⟩
    · obtain ⟨value, found⟩ := Option.isSome_iff_exists.mp present
      obtain ⟨plain, known, spelled⟩ := (same pattern value).mp found
      exact ⟨plain, Option.isSome_of_eq_some known, spelled⟩
    · rintro ⟨plain, present, spelled⟩
      obtain ⟨value, known⟩ := Option.isSome_iff_exists.mp present
      exact Option.isSome_of_eq_some ((same pattern value).mpr ⟨plain, known, spelled⟩)
  cases answer with
  | none =>
    intro pattern present fits
    obtain ⟨plain, known, rfl⟩ := (congrFun listed pattern).mp present
    exact answers plain known fits.of_spelled_path
  | some value =>
    obtain ⟨plain, found, decides⟩ := answers
    refine ⟨plain.flatMap Symbol.spell, (same _ value).mpr ⟨plain, found, rfl⟩, ?_⟩
    rw [listed]
    exact decides.spelled

end Place

namespace Matcher

variable {α : Type} {matcher other : Matcher α} {patterns permuted : List (List Char × α)}

/-- The patterns with a character for each of their bytes. -/
def inBytes (patterns : List (List Char × α)) : List (List Char × α) :=
  patterns.map fun entry => (Utf8.spell entry.1, entry.2)

/-- What is compiled holds its patterns. -/
theorem holds_of_compile (compiled : compile patterns = .ok matcher) : matcher.Holds patterns := by
  obtain ⟨result, run, holds⟩ := compile_holds (distinct_of_compile compiled)
  obtain rfl := Except.ok.inj (compiled.symm.trans run)
  exact holds

/-- Patterns are compiled up to the first one that cannot be added. -/
theorem foldlM_refused {e : Error}
    (failed : patterns.foldlM (fun matcher (pattern, value) => matcher.insert pattern value) matcher = .error e) :
    ∃ before text value after here, patterns = before ++ (text, value) :: after ∧
      before.foldlM (fun matcher (pattern, value) => matcher.insert pattern value) matcher = .ok here ∧
      here.insert text value = .error e := by
  induction patterns generalizing matcher with
  | nil => cases failed
  | cons entry rest ih =>
    obtain ⟨text, value⟩ := entry
    rw [List.foldlM_cons] at failed
    cases inserted : matcher.insert text value with
    | error other =>
      simp only [inserted] at failed
      obtain rfl := Except.error.inj failed
      exact ⟨[], text, value, rest, matcher, rfl, rfl, inserted⟩
    | ok next =>
      simp only [inserted] at failed
      obtain ⟨before, last, its, after, here, rfl, run, refused⟩ := ih failed
      refine ⟨(text, value) :: before, last, its, after, here, rfl, ?_, refused⟩
      rw [List.foldlM_cons]
      simp only [inserted]
      exact run

/-- The pattern that cannot be compiled is the first that was there before. -/
theorem refused_of_compile {e : Error} (failed : compile patterns = .error e) :
    ∃ before text value after, patterns = before ++ (text, value) :: after ∧ (before.map (·.1)).Nodup ∧
      text ∈ before.map (·.1) ∧ e = .patternConflict (String.ofList text) := by
  obtain ⟨before, text, value, after, here, split, run, refused⟩ := foldlM_refused failed
  have holds := holds_of_compile run
  refine ⟨before, text, value, after, split, distinct_of_compile run, ?_⟩
  have spec := Place.insert_spec holds.ascending (text.map .ofChar) value
  rw [Matcher.insert] at refused
  cases inserted : here.top.insert (text.map .ofChar) value with
  | some top => simp [inserted] at refused
  | none =>
    rw [inserted] at spec refused
    obtain ⟨old, known⟩ := Option.isSome_iff_exists.mp spec
    obtain ⟨same, member, equal⟩ := (holds.value?_iff _ old).mp known
    obtain rfl := (List.map_inj_right fun _ _ => @Symbol.ofChar_injective _ _).mp equal
    exact ⟨List.mem_map_of_mem member, (Except.error.inj refused).symm⟩

/-- A lookup depends only on which patterns have which values. -/
theorem Holds.lookup_eq (holds : matcher.Holds patterns) (also : other.Holds permuted)
    (same : ∀ entry, entry ∈ permuted ↔ entry ∈ patterns) (path : List Char) :
    other.lookup path = matcher.lookup path := by
  have values : other.top.value? = matcher.top.value? := by
    funext address
    refine Option.ext fun value => ?_
    simp only [also.value?_iff, holds.value?_iff, same]
  have answers := other.top.search_answers path
  rw [values] at answers
  rw [lookup_eq_search, lookup_eq_search]
  exact answers.unique (matcher.top.search_answers path)

/-- A path can be looked up character by character or byte by byte. -/
theorem Holds.lookup_spell (holds : matcher.Holds patterns) (also : other.Holds (inBytes patterns))
    (path : List Char) : other.lookup (Utf8.spell path) = matcher.lookup path := by
  have spelled : ∀ address value, other.top.value? address = some value ↔
      ∃ plain, matcher.top.value? plain = some value ∧ address = plain.flatMap Symbol.spell := by
    intro address value
    rw [also.value?_iff]
    constructor
    · rintro ⟨_, member, rfl⟩
      obtain ⟨⟨text, _⟩, listed, same⟩ := List.mem_map.mp member
      obtain ⟨rfl, rfl⟩ := Prod.mk.inj same
      exact ⟨text.map .ofChar, (holds.value?_iff _ _).mpr ⟨text, listed, rfl⟩, map_ofChar_spell text⟩
    · rintro ⟨plain, known, rfl⟩
      obtain ⟨text, listed, rfl⟩ := (holds.value?_iff _ _).mp known
      exact ⟨Utf8.spell text, List.mem_map.mpr ⟨(text, value), listed, rfl⟩, (map_ofChar_spell text).symm⟩
  rw [lookup_eq_search, lookup_eq_search]
  exact (other.top.search_answers _).unique ((matcher.top.search_answers path).spelled spelled)

theorem inBytes_nodup (distinct : (patterns.map (·.1)).Nodup) : ((inBytes patterns).map (·.1)).Nodup := by
  have texts : (inBytes patterns).map (·.1) = (patterns.map (·.1)).map Utf8.spell := by
    rw [inBytes, List.map_map, List.map_map]
    rfl
  rw [texts]
  exact distinct.map Utf8.spell_injective

/-- Patterns can be compiled just when none occurs twice, and otherwise the first that repeats an earlier one is the
reason. The matcher counts the patterns, has the edges of every place in order and the value of every pattern where its
symbols lead. In another order the patterns give a matcher with the same answers, and so they do in bytes. -/
theorem compile_exact (patterns : List (List Char × α)) :
    ((∃ matcher, compile patterns = .ok matcher) ↔ (patterns.map (·.1)).Nodup) ∧
    (∀ e, compile patterns = .error e → ∃ before text value after, patterns = before ++ (text, value) :: after ∧
      (before.map (·.1)).Nodup ∧ text ∈ before.map (·.1) ∧ e = .patternConflict (String.ofList text)) ∧
    ∀ matcher, compile patterns = .ok matcher →
      matcher.Holds patterns ∧
      (∀ permuted, permuted.Perm patterns → ∃ other, compile permuted = .ok other ∧ other.Holds permuted ∧
        ∀ path, other.lookup path = matcher.lookup path) ∧
      ∃ other, compile (inBytes patterns) = .ok other ∧ other.Holds (inBytes patterns) ∧
        ∀ path, other.lookup (Utf8.spell path) = matcher.lookup path := by
  refine ⟨⟨fun ⟨matcher, compiled⟩ => distinct_of_compile compiled, fun distinct => ?_⟩,
    fun e => refused_of_compile, fun matcher compiled => ?_⟩
  · obtain ⟨matcher, compiled, _⟩ := compile_holds distinct
    exact ⟨matcher, compiled⟩
  · have distinct := distinct_of_compile compiled
    have holds := holds_of_compile compiled
    refine ⟨holds, fun permuted perm => ?_, ?_⟩
    · obtain ⟨other, run, also⟩ := compile_holds ((perm.map (·.1)).nodup_iff.mpr distinct)
      exact ⟨other, run, also, holds.lookup_eq also fun entry => perm.mem_iff⟩
    · obtain ⟨other, run, also⟩ := compile_holds (inBytes_nodup distinct)
      exact ⟨other, run, also, holds.lookup_spell also⟩

/-- Patterns with a common start, once turned round and once in bytes. -/
theorem compile_exact_reordered : ∃ matcher other spelled : Matcher Nat,
    compile [("/é/*".toList, 1), ("/é/b".toList, 2), ("/*".toList, 3)] = .ok matcher ∧
    compile [("/*".toList, 3), ("/é/b".toList, 2), ("/é/*".toList, 1)] = .ok other ∧
    compile (inBytes [("/é/*".toList, 1), ("/é/b".toList, 2), ("/*".toList, 3)]) = .ok spelled ∧
    matcher.lookup "/é/bc".toList = some 1 ∧ other.lookup "/é/bc".toList = some 1 ∧
    spelled.lookup (Utf8.spell "/é/bc".toList) = some 1 := by
  obtain ⟨compiles, -, compiled⟩ := compile_exact [("/é/*".toList, 1), ("/é/b".toList, 2), ("/*".toList, 3)]
  obtain ⟨matcher, run⟩ := compiles.mpr (by decide)
  obtain ⟨holds, reordered, spelled, ranSpelled, -, inBytes⟩ := compiled matcher run
  obtain ⟨other, ranOther, -, same⟩ :=
    reordered [("/*".toList, 3), ("/é/b".toList, 2), ("/é/*".toList, 1)] (by decide)
  have answer : matcher.lookup "/é/bc".toList = some 1 := by
    obtain rfl := Except.ok.inj (run.symm.trans rfl)
    rw [lookup_eq_search]
    decide
  exact ⟨matcher, other, spelled, run, ranOther, ranSpelled, answer, (same _).trans answer, (inBytes _).trans answer⟩

end Matcher
end BackupAtlas
