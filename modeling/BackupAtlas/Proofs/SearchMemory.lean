import BackupAtlas.Proofs.Matching

namespace BackupAtlas

namespace Place

variable {α : Type}

/-- The place at an address below `top`. -/
def at? (top : Place α) : Address → Option (Place α)
  | [] => some top
  | symbol :: address => (top.at? address).bind (·.edges.child? symbol)

/-- The search from a place on that remembers failures. -/
def find (address : Address) (place : Place α) (path : List Char) : StateM Failures (Option α) := do
  match ← place.edges.findLiteral address path with
  | some value => return some value
  | none =>
    if path = [] ∧ place.value.isSome then return place.value
    place.edges.findStar address path

end Place

namespace Edges

variable {α : Type}

theorem findLiteral_nil (address : Address) (edges : Edges α) :
    edges.findLiteral address [] = pure .none := by
  cases edges <;> simp [findLiteral]

theorem findLiteral_cons (address : Address) (edges : Edges α) (c : Char) (rest : List Char) :
    edges.findLiteral address (c :: rest) =
      match edges.child? (.literal c) with
      | .none => pure .none
      | some child =>
        remembering (.literal c :: address) rest.length (child.find (.literal c :: address) rest) := by
  induction edges with
  | none => simp [findLiteral, child?]
  | edge head value below others _ ih =>
    rw [findLiteral, child?]
    by_cases here : head = .literal c
    · subst here
      rw [if_pos rfl, if_pos rfl]
      rfl
    · rw [if_neg here, if_neg (Ne.symm here), ih]

theorem findStar_eq (address : Address) (edges : Edges α) (path : List Char) :
    edges.findStar address path =
      match edges.child? .star with
      | .none => pure .none
      | some child =>
        scanning (.star :: address) path fun rest =>
          remembering (.star :: address) rest.length (child.find (.star :: address) rest) := by
  induction edges with
  | none => simp [findStar, child?]
  | edge head value below others _ ih =>
    rw [findStar, child?]
    by_cases here : head = .star
    · subst here
      rw [if_pos rfl, if_pos rfl]
      rfl
    · rw [if_neg here, if_neg (Ne.symm here), ih]

end Edges

/-- All that is remembered are failures of the search from places below `top` on rests of `path`. -/
structure Honest {α : Type} (top : Place α) (path : List Char) (failures : Failures) : Prop where
  dead : ∀ address rest place, (address, rest.length) ∈ failures.dead → rest <:+ path →
    top.at? address = some place → place.search rest = none
  spent : ∀ address rest place least, failures.spent[address]? = some least → rest.length < least →
    rest <:+ path → top.at? address = some place → place.search rest = none

namespace Honest

variable {α : Type} {top place : Place α} {path rest : List Char} {failures : Failures} {address : Address}

/-- Remembering a failure that has been seen is honest. -/
theorem insert_dead (honest : Honest top path failures) (here : top.at? address = some place)
    (suffix : rest <:+ path) (failed : place.search rest = none) :
    Honest top path { failures with dead := failures.dead.insert (address, rest.length) } := by
  refine ⟨?_, honest.spent⟩
  intro other later place' member within atOther
  rcases Std.HashSet.mem_insert.mp member with same | old
  · obtain ⟨rfl, length⟩ := Prod.mk.inj (eq_of_beq same)
    have equal := (List.suffix_of_suffix_length_le suffix within (Nat.le_of_eq length)).eq_of_length length
    rw [here] at atOther
    rw [← Option.some.inj atOther, ← equal, failed]
  · exact honest.dead other later place' old within atOther

/-- What is known of shorter rests. -/
theorem failing (honest : Honest top path failures) (here : top.at? address = some place)
    (suffix : rest <:+ path) (less : rest.length < (failures.spent[address]?).getD 0) :
    place.search rest = none := by
  cases known : failures.spent[address]? with
  | none => simp [known] at less
  | some least => exact honest.spent address rest place least known (by simpa [known] using less) suffix here

theorem insert_spent (honest : Honest top path failures) (here : top.at? address = some place) {bound : Nat}
    (failed : ∀ rest, rest <:+ path → rest.length < bound → place.search rest = none) :
    Honest top path
      { failures with
        spent := failures.spent.insert address (max ((failures.spent[address]?).getD 0) bound) } := by
  refine ⟨honest.dead, ?_⟩
  intro other rest place' least atSpent less suffix atOther
  rw [Std.HashMap.getElem?_insert] at atSpent
  split at atSpent
  · rename_i same
    obtain rfl := eq_of_beq same
    rw [here] at atOther
    obtain rfl := Option.some.inj atOther
    obtain rfl := Option.some.inj atSpent
    rcases Nat.lt_or_ge rest.length bound with new | old
    · exact failed rest suffix new
    · exact honest.failing here suffix (by omega)
  · exact honest.spent other rest place' least atSpent less suffix atOther

end Honest

/-- Run with an honest memory, a search gives this answer and leaves an honest memory. -/
def Recalls {α : Type} (top : Place α) (path : List Char) (search : StateM Failures (Option α))
    (answer : Option α) : Prop :=
  ∀ failures, Honest top path failures →
    (search.run failures).1 = answer ∧ Honest top path (search.run failures).2

namespace Recalls

variable {α : Type} {top place : Place α} {path rest : List Char} {address : Address}

theorem pure (answer : Option α) : Recalls top path (Pure.pure answer) answer :=
  fun _ honest => ⟨rfl, honest⟩

theorem or {first second : StateM Failures (Option α)} {answer other : Option α}
    (recalls : Recalls top path first answer) (next : Recalls top path second other) :
    Recalls top path (do
      match ← first with
      | some value => return some value
      | none => second) (answer.or other) := by
  intro failures honest
  obtain ⟨found, kept⟩ := recalls failures honest
  cases answer with
  | some value =>
    simp only [StateT.run_bind, Option.some_or]
    rw [show first.run failures = (some value, (first.run failures).2) from Prod.ext found rfl]
    exact ⟨rfl, kept⟩
  | none =>
    simp only [StateT.run_bind, Option.none_or]
    rw [show first.run failures = (none, (first.run failures).2) from Prod.ext found rfl]
    exact next _ kept

theorem remembering {search : StateM Failures (Option α)} (recalls : Recalls top path search (place.search rest))
    (here : top.at? address = some place) (suffix : rest <:+ path) :
    Recalls top path (Edges.remembering address rest.length search) (place.search rest) := by
  intro failures honest
  by_cases known : failures.dead.contains (address, rest.length)
  · have run : (Edges.remembering address rest.length search).run failures = (none, failures) := by
      simp only [Edges.remembering, StateT.run_bind, StateT.run_get, pure_bind, known, if_true]
      rfl
    rw [run, honest.dead address rest place (Std.HashSet.mem_iff_contains.mpr known) suffix here]
    exact ⟨rfl, honest⟩
  · obtain ⟨found, kept⟩ := recalls failures honest
    have run : (Edges.remembering address rest.length search).run failures =
        (place.search rest,
          if (place.search rest).isNone then
            { (search.run failures).2 with
              dead := (search.run failures).2.dead.insert (address, rest.length) }
          else (search.run failures).2) := by
      simp only [Edges.remembering, StateT.run_bind, StateT.run_get, pure_bind, known, Bool.false_eq_true,
        if_false]
      rw [show search.run failures = (place.search rest, (search.run failures).2) from Prod.ext found rfl]
      cases place.search rest <;> rfl
    rw [run]
    refine ⟨rfl, ?_⟩
    cases answer : place.search rest with
    | some value => exact kept
    | none => exact kept.insert_dead here suffix answer

/-- The rests of a path are tried from the longest on, down to those that are known to fail. -/
theorem firstRest {attempt : List Char → StateM Failures (Option α)} {least : Nat}
    (recalls : ∀ rest, rest <:+ path → Recalls top path (attempt rest) (place.search rest))
    (failing : ∀ rest, rest <:+ path → rest.length < least → place.search rest = none) (suffix : rest <:+ path) :
    Recalls top path (Edges.firstRest attempt least rest) ((Edges.rests rest).findSome? place.search) := by
  induction rest with
  | nil =>
    rw [Edges.firstRest, Edges.rests, List.findSome?_singleton]
    split
    · exact recalls [] suffix
    · rw [failing [] suffix (by simp only [List.length_nil]; omega)]
      exact pure none
  | cons c rest ih =>
    have shorter : rest <:+ path := (List.suffix_cons c rest).trans suffix
    rw [Edges.firstRest, Edges.rests, List.findSome?_cons]
    by_cases stop : rest.length + 1 < least
    · rw [if_pos stop, failing (c :: rest) suffix (by simpa using stop)]
      have rests : (Edges.rests rest).findSome? place.search = none := by
        refine List.findSome?_eq_none_iff.mpr fun later member => ?_
        have within := Edges.mem_rests.mp member
        exact failing later (within.trans shorter) (by have := within.length_le; omega)
      rw [rests]
      exact pure none
    · rw [if_neg stop]
      have both := (recalls _ suffix).or (ih shorter)
      cases answer : place.search (c :: rest) with
      | some value =>
        rw [answer, Option.some_or] at both
        exact both
      | none =>
        rw [answer, Option.none_or] at both
        exact both

/-- A star does not have to try the rests from which it has failed before. -/
theorem scanning {attempt : List Char → StateM Failures (Option α)}
    (recalls : ∀ rest, rest <:+ path → Recalls top path (attempt rest) (place.search rest))
    (here : top.at? address = some place) (suffix : rest <:+ path) :
    Recalls top path (Edges.scanning address rest attempt) ((Edges.rests rest).findSome? place.search) := by
  intro failures honest
  obtain ⟨found, kept⟩ :=
    firstRest recalls (fun later within less => honest.failing here within less) suffix failures honest
  generalize answer : (Edges.rests rest).findSome? place.search = result at found ⊢
  generalize trial : (Edges.firstRest attempt ((failures.spent[address]?).getD 0) rest).run failures = outcome
    at found kept
  have run : (Edges.scanning address rest attempt).run failures =
      (result,
        if result.isNone then
          { outcome.2 with
            spent := outcome.2.spent.insert address
              (max ((outcome.2.spent[address]?).getD 0) (rest.length + 1)) }
        else outcome.2) := by
    simp only [Edges.scanning, StateT.run_bind, StateT.run_get, pure_bind]
    rw [show (failures.spent.get? address).getD 0 = (failures.spent[address]?).getD 0 from rfl, trial,
      show outcome = (result, outcome.2) from Prod.ext found rfl]
    cases result <;> rfl
  rw [run]
  refine ⟨rfl, ?_⟩
  cases result with
  | some value => exact kept
  | none =>
    refine kept.insert_spent here fun later within less => ?_
    have suffix' := List.suffix_of_suffix_length_le within suffix (by omega)
    exact List.findSome?_eq_none_iff.mp answer later (Edges.mem_rests.mpr suffix')

end Recalls

namespace Place

variable {α : Type}

/-- From every place the search with an honest memory finds what the search without one finds. -/
theorem find_recalls (place : Place α) {top : Place α} {path : List Char} {address : Address} {rest : List Char}
    (here : top.at? address = some place) (suffix : rest <:+ path) :
    Recalls top path (place.find address rest) (place.search rest) := by
  induction place using Place.induction generalizing address rest with
  | step place below =>
    have literal : Recalls top path (place.edges.findLiteral address rest) (place.edges.searchLiteral rest) := by
      cases rest with
      | nil =>
        rw [Edges.findLiteral_nil, Edges.searchLiteral_nil]
        exact .pure none
      | cons c rest =>
        rw [Edges.findLiteral_cons, Edges.searchLiteral_cons]
        cases edge : place.edges.child? (.literal c) with
        | none => exact .pure none
        | some child =>
          have there : top.at? (.literal c :: address) = some child := by rw [at?, here, Option.bind_some, edge]
          have shorter := (List.suffix_cons c rest).trans suffix
          exact (below _ child edge there shorter).remembering there shorter
    have star : Recalls top path (place.edges.findStar address rest) (place.edges.searchStar rest) := by
      rw [Edges.findStar_eq, Edges.searchStar_eq]
      cases edge : place.edges.child? .star with
      | none => exact .pure none
      | some child =>
        have there : top.at? (.star :: address) = some child := by rw [at?, here, Option.bind_some, edge]
        exact .scanning (fun later within => (below _ child edge there within).remembering there within) there suffix
    refine literal.or ?_
    by_cases ends : rest = [] ∧ place.value.isSome
    · obtain ⟨value, atEnd⟩ := Option.isSome_iff_exists.mp ends.2
      rw [if_pos ends, if_pos ends.1, atEnd, Option.some_or]
      exact .pure (some value)
    · rw [if_neg ends]
      have nothing : (if rest = [] then place.value else none) = none := by
        split
        · rename_i empty
          exact Option.not_isSome_iff_eq_none.mp fun here => ends ⟨empty, here⟩
        · rfl
      rw [nothing, Option.none_or]
      exact star

end Place

namespace Matcher

variable {α : Type}

theorem lookup_eq_search (matcher : Matcher α) (path : List Char) :
    matcher.lookup path = matcher.top.search path := by
  have honest : Honest matcher.top path {} := ⟨by simp, by simp⟩
  have recalls : Recalls matcher.top path (matcher.top.find [] path) (matcher.top.search path) :=
    matcher.top.find_recalls rfl (List.suffix_refl path)
  exact (recalls {} honest).1

def isListed (patterns : List (List Char × α)) (pattern : List Symbol) : Prop :=
  ∃ entry ∈ patterns, pattern = entry.1.map .ofChar

/-- What a matcher for distinct patterns answers. -/
theorem lookup_spec {patterns : List (List Char × α)} (distinct : (patterns.map (·.1)).Nodup) :
    ∃ matcher, compile patterns = .ok matcher ∧ ∀ path,
      (matcher.lookup path = none ∧ ∀ entry ∈ patterns, ¬ Matches (entry.1.map .ofChar) path) ∨
      ∃ text value, matcher.lookup path = some value ∧ (text, value) ∈ patterns ∧
        Decides (text.map .ofChar) (isListed patterns) path := by
  obtain ⟨matcher, compiled, holds⟩ := compile_holds distinct
  have isSome : ∀ other, (matcher.top.value? other).isSome ↔ isListed patterns other := by
    intro other
    rw [Option.isSome_iff_exists]
    constructor
    · rintro ⟨value, found⟩
      obtain ⟨text, member, same⟩ := (holds.value?_iff other value).mp found
      exact ⟨(text, value), member, same⟩
    · rintro ⟨⟨text, value⟩, member, same⟩
      exact ⟨value, (holds.value?_iff other value).mpr ⟨text, member, same⟩⟩
  refine ⟨matcher, compiled, fun path => ?_⟩
  have answers := matcher.top.search_answers path
  rw [lookup_eq_search]
  cases found : matcher.top.search path with
  | none =>
    rw [found] at answers
    exact Or.inl ⟨rfl, fun entry member => answers _ ((isSome _).mpr ⟨entry, member, rfl⟩)⟩
  | some value =>
    rw [found] at answers
    obtain ⟨pattern, atPattern, decides⟩ := answers
    obtain ⟨text, member, rfl⟩ := (holds.value?_iff pattern value).mp atPattern
    simp only [isSome] at decides
    exact Or.inr ⟨text, value, rfl, member, decides⟩

/-- A lookup never depends on what it remembers. It fails exactly when no pattern matches, and else
finds the value of the pattern that decides, which has the longest literal start of all that match. -/
theorem lookup_exact {patterns : List (List Char × α)} (distinct : (patterns.map (·.1)).Nodup) :
    ∃ matcher, compile patterns = .ok matcher ∧ ∀ path,
      matcher.lookup path = matcher.top.search path ∧
      (matcher.lookup path = none ↔ ∀ entry ∈ patterns, ¬ Matches (entry.1.map .ofChar) path) ∧
      ∀ value, matcher.lookup path = some value → ∃ text, (text, value) ∈ patterns ∧
        Decides (text.map .ofChar) (isListed patterns) path ∧
        ∀ entry ∈ patterns, Matches (entry.1.map .ofChar) path →
          (entry.1.takeWhile (· != '*')).length ≤ (text.takeWhile (· != '*')).length := by
  obtain ⟨matcher, compiled, answers⟩ := lookup_spec distinct
  refine ⟨matcher, compiled, fun path => ⟨matcher.lookup_eq_search path, ?_⟩⟩
  rcases answers path with ⟨failed, nothing⟩ | ⟨text, value, found, member, decides⟩
  · exact ⟨⟨fun _ => nothing, fun _ => failed⟩, fun value found => absurd (failed.symm.trans found) (by simp)⟩
  · refine ⟨⟨fun failed => absurd (failed.symm.trans found) (by simp),
      fun nothing => absurd decides.fits (nothing _ member)⟩, ?_⟩
    intro other same
    obtain rfl := Option.some.inj (found.symm.trans same)
    refine ⟨text, member, decides, fun entry listed fits => ?_⟩
    have longest := decides.literalHead_le ⟨entry, listed, rfl⟩ fits
    rwa [literalHead_ofChar, literalHead_ofChar] at longest

/-- Two patterns that part only after their second star, so that both stars fail at the same places, and one that begins
like them. -/
theorem lookup_exact_overlapping_stars :
    ∃ matcher, compile [("/r/*a*b".toList, 1), ("/r/*a*c".toList, 2), ("/r/*".toList, 3)] = .ok matcher ∧
      matcher.lookup "/r/aab".toList = some 1 ∧ matcher.lookup "/r/aabd".toList = some 3 ∧
      matcher.lookup "/s".toList = none := by
  obtain ⟨matcher, compiled, exact⟩ :=
    lookup_exact (by decide : ([("/r/*a*b".toList, 1), ("/r/*a*c".toList, 2), ("/r/*".toList, 3)].map (·.1)).Nodup)
  obtain rfl := Except.ok.inj (compiled.symm.trans rfl)
  refine ⟨_, compiled, ?_, ?_, ?_⟩ <;> rw [(exact _).1] <;> decide

end Matcher
end BackupAtlas
