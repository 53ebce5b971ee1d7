import BackupAtlas.Proofs.EditLaws
import Mathlib.Data.List.Induction

namespace BackupAtlas

theorem Claim.withRule_linked {claim : Claim} {rule filed : Rule} {pattern : String}
    (found : (claim.withRule rule).rules.get? pattern = some filed) :
    filed.directoryId = claim.directory.id ∨ claim.rules.get? pattern = some filed := by
  rw [withRule, Catalog.get?_insert] at found
  split at found
  · obtain rfl := Option.some.inj found
    exact Or.inl rfl
  · exact Or.inr found

namespace RuleSet

variable {set next start : RuleSet} {path pattern : String} {claim : Claim} {rule : Rule} {edit : Edit}

/-- Rules carry the id of the directory that they are filed under. -/
def Linked (set : RuleSet) : Prop :=
  ∀ path claim, set.get? path = some claim →
    ∀ pattern rule, claim.rules.get? pattern = some rule → rule.directoryId = claim.directory.id

/-- The edit gives a directory with rules a record with another id. -/
def Edit.Renumbers (edit : Edit) (set : RuleSet) : Prop :=
  ∃ directory claim, edit = .updateDirectory directory ∧ set.get? directory.path = some claim ∧
    claim.rules ≠ .empty ∧ directory.id ≠ claim.directory.id

/-- Before the edit the rule was filed there too, and the edit keeps the record of the directory or replaces it by this
one. -/
def Edit.Finds (edit : Edit) (set : RuleSet) (path pattern : String) (rule : Rule) (directory : Directory) : Prop :=
  ∃ old, set.get? path = some old ∧ old.rules.get? pattern = some rule ∧
    (directory = old.directory ∨ edit = .updateDirectory directory ∧ directory.path = path)

/-- Among the edits is one that found the rule linked and gave its directory a record with another id. -/
def Parted (start : RuleSet) (edits : List Edit) (path pattern : String) (rule : Rule) : Prop :=
  ∃ before renumbered after old, edits = before ++ .updateDirectory renumbered :: after ∧ renumbered.path = path ∧
    (start.edited before).get? path = some old ∧ old.rules.get? pattern = some rule ∧
    rule.directoryId = old.directory.id ∧ renumbered.id ≠ old.directory.id

/-- What is claimed under a path is what has just been put there. -/
theorem eq_of_get?_put {made : Claim}
    (claimed : get? { set with claims := set.claims.insert path made } path = some claim) : claim = made := by
  rw [get?_put, if_pos rfl] at claimed
  exact (Option.some.inj claimed).symm

/-- A rule that is there after an edit is linked, unless the edit found it. -/
theorem Effect.filed (effect : Effect set next edit) (claimed : next.get? path = some claim)
    (filed : claim.rules.get? pattern = some rule) :
    rule.directoryId = claim.directory.id ∨ edit.Finds set path pattern rule claim.directory := by
  by_cases here : path = edit.path
  · subst here
    cases effect with
    | claim absolute fresh same =>
      obtain rfl := eq_of_get?_put (same ▸ claimed)
      cases filed
    | updateDirectory known same =>
      obtain rfl := eq_of_get?_put (same ▸ claimed)
      exact Or.inr ⟨_, known, filed, Or.inr ⟨rfl, rfl⟩⟩
    | revoke known isEmpty same =>
      rw [same, Edit.path, get?, Catalog.get?_erase, if_pos rfl] at claimed
      cases claimed
    | addRule known allowed fresh same =>
      obtain rfl := eq_of_get?_put (same ▸ claimed)
      exact (Claim.withRule_linked filed).imp_right fun listed => ⟨_, known, listed, Or.inl rfl⟩
    | removeRule known found same =>
      obtain rfl := eq_of_get?_put (same ▸ claimed)
      exact Or.inr ⟨_, known, Catalog.get?_of_erase filed, Or.inl rfl⟩
    | updateRule known allowed found sameId free same =>
      obtain rfl := eq_of_get?_put (same ▸ claimed)
      exact (Claim.withRule_linked filed).imp_right fun listed =>
        ⟨_, known, Catalog.get?_of_erase listed, Or.inl rfl⟩
  · rw [effect.get?_other here] at claimed
    exact Or.inr ⟨claim, claimed, filed, Or.inl rfl⟩

/-- After an edit a rule is filed under its own directory, or it was filed under another one before. -/
theorem Edit.apply_filed (claimed : (edit.apply set).get? path = some claim)
    (filed : claim.rules.get? pattern = some rule) :
    rule.directoryId = claim.directory.id ∨ edit.Finds set path pattern rule claim.directory := by
  rw [apply] at claimed
  cases ran : edit.run set with
  | ok answer next =>
    rw [ran] at claimed
    exact (Edit.effect ran).filed claimed filed
  | error e after =>
    rw [ran, edit.unchanged ran] at claimed
    exact Or.inr ⟨claim, claimed, filed, Or.inl rfl⟩

theorem ne_empty_of_filed (filed : claim.rules.get? pattern = some rule) : claim.rules ≠ .empty := by
  intro nothing
  rw [nothing] at filed
  cases filed

/-- Among the edits of a set whose rules are linked, the ones that give a directory with rules another id are those that
break a link. -/
theorem Linked.apply_iff (linked : set.Linked) : (edit.apply set).Linked ↔ ¬ edit.Renumbers set := by
  constructor
  · rintro after ⟨directory, claim, rfl, claimed, some, differs⟩
    have replaced : (Edit.apply (.updateDirectory directory) set).get? directory.path =
        Option.some { claim with directory } := by
      rw [Edit.apply, Edit.run, updateDirectory_eq, claimed, get?_put, if_pos rfl]
    obtain ⟨⟨pattern, rule⟩, entry⟩ := List.exists_mem_of_ne_nil _ fun nothing => some (Catalog.ext nothing)
    have filed := Catalog.get?_eq_some.mpr entry
    exact differs ((after _ _ replaced pattern rule filed).symm.trans (linked _ _ claimed pattern rule filed))
  · intro keeps path claim claimed pattern rule filed
    rcases edit.apply_filed claimed filed with link | ⟨old, known, listed, same | ⟨updates, here⟩⟩
    · exact link
    · rw [same]
      exact linked path old known pattern rule listed
    · rw [linked path old known pattern rule listed]
      subst here
      exact Decidable.byContradiction fun differs =>
        keeps ⟨claim.directory, old, updates, known, ne_empty_of_filed listed, Ne.symm differs⟩

theorem empty_linked : empty.Linked := by
  intro path claim claimed
  cases claimed

/-- Rules that are loaded are filed under the directories that own them. -/
theorem ofRecords_linked {directories : List Directory} {rules : List Rule}
    (loaded : ofRecords directories rules = .ok start) : start.Linked := by
  have kept : ∀ edit : Edit, (∀ directory, edit ≠ .updateDirectory directory) → ∀ set next : RuleSet, set.Linked →
      edit.run set = .ok () next → next.Linked := by
    intro edit keeps set next linked ran
    have applied : edit.apply set = next := by rw [Edit.apply, ran]
    rw [← applied, linked.apply_iff]
    intro renumbers
    obtain ⟨directory, _, updates, _⟩ := renumbers
    exact keeps directory updates
  refine ofRecords_keeps (fun directory => kept (.claim directory) ?_) (fun path rule => kept (.addRule path rule) ?_)
    empty_linked loaded
  · intro other same
    cases same
  · intro other same
    cases same

theorem edited_snoc (set : RuleSet) (edits : List Edit) (edit : Edit) :
    set.edited (edits ++ [edit]) = edit.apply (set.edited edits) := by
  rw [edited, edited, List.foldl_append, List.foldl_cons, List.foldl_nil]

/-- A rule that is not linked was so until its directory got a record with another id. -/
theorem Linked.edited_filed (linked : start.Linked) (edits : List Edit)
    (claimed : (start.edited edits).get? path = some claim) (filed : claim.rules.get? pattern = some rule) :
    rule.directoryId = claim.directory.id ∨ start.Parted edits path pattern rule := by
  -- The last edit files the rule or finds it filed, and then the earlier edits account for it.
  induction edits using List.reverseRecOn generalizing claim with
  | nil => exact Or.inl (linked path claim claimed pattern rule filed)
  | append_singleton edits edit ih =>
    rw [edited_snoc] at claimed
    rcases edit.apply_filed claimed filed with link | ⟨old, known, listed, kept⟩
    · exact Or.inl link
    · rcases ih known listed with link | ⟨before, renumbered, after, older, rfl, rest⟩
      · rcases kept with same | ⟨rfl, here⟩
        · exact Or.inl (same ▸ link)
        · by_cases equal : claim.directory.id = old.directory.id
          · exact Or.inl (equal ▸ link)
          · exact Or.inr ⟨edits, claim.directory, [], old, rfl, here, known, listed, link, equal⟩
      · exact Or.inr ⟨before, renumbered, after ++ [edit], older, by simp, rest⟩

/-- Whatever edits a rule set went through, the rules carry the ids of their directories as long as no edit has given a
directory with rules a record with another id. Such an edit breaks the link where it held, no other edit does, and a
rule that is not linked is one that such an edit found in its directory, linked until then. -/
theorem edited_linked {start : RuleSet}
    (origin : start = .empty ∨ ∃ directories rules, ofRecords directories rules = .ok start) (edits : List Edit) :
    ((∀ before edit after, edits = before ++ edit :: after → ¬ edit.Renumbers (start.edited before)) →
      (start.edited edits).Linked) ∧
    (∀ path claim, (start.edited edits).get? path = some claim →
      ∀ pattern rule, claim.rules.get? pattern = some rule → rule.directoryId ≠ claim.directory.id →
        start.Parted edits path pattern rule) ∧
    ((start.edited edits).Linked →
      ∀ edit : Edit, (edit.apply (start.edited edits)).Linked ↔ ¬ edit.Renumbers (start.edited edits)) := by
  have linked : start.Linked := by
    rcases origin with rfl | ⟨directories, rules, loaded⟩
    · exact empty_linked
    · exact ofRecords_linked loaded
  refine ⟨fun keeps path claim claimed pattern rule filed => ?_,
    fun path claim claimed pattern rule filed differs =>
      (linked.edited_filed edits claimed filed).resolve_left differs,
    fun now edit => now.apply_iff⟩
  rcases linked.edited_filed edits claimed filed with link | ⟨before, renumbered, after, old, split, rfl, known, rest⟩
  · exact link
  · obtain ⟨listed, _, differs⟩ := rest
    exact absurd ⟨renumbered, old, rfl, known, ne_empty_of_filed listed, differs⟩ (keeps before _ after split)

/-- A directory is passed on to someone else under its id, which keeps its rule linked. A record with another id would
not. -/
theorem edited_linked_passed_on :
    let set := RuleSet.empty.edited [.claim { id := 1, path := "/a/", claimedBy := "b" },
      .addRule "/a/" { id := 1, pattern := "*" }, .updateDirectory { id := 1, path := "/a/", claimedBy := "c" }]
    set.Linked ∧ ¬ (Edit.apply (.updateDirectory { id := 2, path := "/a/", claimedBy := "c" }) set).Linked := by
  intro set
  have before : ((RuleSet.empty.edited [.claim { id := 1, path := "/a/", claimedBy := "b" },
      .addRule "/a/" { id := 1, pattern := "*" }]).get? "/a/").map (·.directory.id) = some 1 := by decide +kernel
  have now : (set.get? "/a/").map (fun claim => (claim.directory.id, claim.rules.isEmpty)) = some (1, false) := by
    decide +kernel
  obtain ⟨keeps, _, breaks⟩ := edited_linked (Or.inl rfl) [.claim { id := 1, path := "/a/", claimedBy := "b" },
    .addRule "/a/" { id := 1, pattern := "*" }, .updateDirectory { id := 1, path := "/a/", claimedBy := "c" }]
  have linked : set.Linked := by
    refine keeps fun earlier edit after split => ?_
    rintro ⟨directory, claim, rfl, claimed, -, differs⟩
    match earlier, split with
    | [], split => cases (List.cons.inj split).1
    | [_], split => cases (List.cons.inj (List.cons.inj split).2).1
    | [_, _], split =>
      simp only [List.cons_append, List.nil_append, List.cons.injEq, Edit.updateDirectory.injEq] at split
      obtain ⟨rfl, rfl, rfl, -⟩ := split
      rw [claimed, Option.map_some, Option.some.injEq] at before
      exact differs before.symm
    | _ :: _ :: _ :: _, split => simp at split
  refine ⟨linked, fun stays => (breaks linked _).mp stays ?_⟩
  obtain ⟨claim, claimed, fields⟩ := Option.map_eq_some_iff.mp now
  obtain ⟨id, filled⟩ := Prod.mk.inj fields
  refine ⟨_, claim, rfl, claimed, fun nothing => ?_, fun equal => ?_⟩
  · rw [nothing] at filled
    cases filled
  · exact absurd (equal.trans id) (by decide)

/-- The record of a directory is replaced by one with another id, and the rule keeps the old one. -/
theorem renumbered_directory_parts : ¬ (RuleSet.empty.edited [.claim { id := 1, path := "/a/" },
    .addRule "/a/" { id := 1, pattern := "*" }, .updateDirectory { id := 2, path := "/a/" }]).Linked := by
  intro linked
  have filed : ((RuleSet.empty.edited [.claim { id := 1, path := "/a/" }, .addRule "/a/" { id := 1, pattern := "*" },
      .updateDirectory { id := 2, path := "/a/" }]).get? "/a/").map
        (fun claim => (claim.directory.id, (claim.rules.get? "*").map (·.directoryId))) = some (2, some 1) := by
    decide +kernel
  obtain ⟨claim, claimed, fields⟩ := Option.map_eq_some_iff.mp filed
  obtain ⟨number, listed⟩ := Prod.mk.inj fields
  obtain ⟨rule, found, old⟩ := Option.map_eq_some_iff.mp listed
  have same := linked "/a/" claim claimed "*" rule found
  rw [number, old] at same
  cases same

end RuleSet
end BackupAtlas
