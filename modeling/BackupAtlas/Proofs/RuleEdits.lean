import BackupAtlas.Proofs.FullBuilds

namespace BackupAtlas

open TreePath

namespace Entries

variable {α β : Type}

/-- Nothing is seen of a value that is put back changed, if what is seen of it stays the same. -/
theorem map_insert_erase {name : String} {old value : α}
    {entries : List (String × α)} (view : α → β) (ascending : Ascending entries)
    (found : get? name entries = some old) (same : view value = view old) :
    (insert name value (erase name entries)).map (fun entry => (entry.1, view entry.2)) =
      entries.map fun entry => (entry.1, view entry.2) := by
  induction entries with
  | nil => exact absurd found (by simp [get?])
  | cons entry entries ih =>
    obtain ⟨key, here⟩ := entry
    obtain ⟨above, tail⟩ := List.pairwise_cons.mp ascending
    rw [get?] at found
    rw [erase]
    split at found
    · rename_i equal
      subst equal
      obtain rfl := Option.some.inj found
      rw [if_pos rfl]
      cases entries with
      | nil => simp [insert, same]
      | cons next entries =>
        rw [insert, if_pos (above next List.mem_cons_self), List.map_cons, same]
        rfl
    · rename_i differs
      have behind : key < name := above (name, old) ((get?_eq_some tail).mp found)
      rw [if_neg differs, insert, if_neg fun less => String.lt_irrefl _ (String.lt_trans less behind), if_neg differs,
        List.map_cons, List.map_cons, ih tail found]

end Entries

namespace RuleSet

def listAt (set : RuleSet) (path : String) : List (List Char × Nat) :=
  match set.get? path with
  | some claim => claim.ruleList
  | none => []

/-- Rules are the same in all directories apart from those that have changed. -/
def SameOutside (changed : List String) (set next : RuleSet) : Prop :=
  ∀ path, path ∉ changed → set.listAt path = next.listAt path

/-- A rule set that builds can rely on. -/
structure Regular (set : RuleSet) : Prop where
  sound : set.Sound
  starless : set.Starless
  idsFit : set.IdsFit

variable {set next : RuleSet} {changed : List String}

theorem SameOutside.trans {last : RuleSet} (first : SameOutside changed set next)
    (second : SameOutside changed next last) :
    SameOutside changed set last := fun path outside => (first path outside).trans (second path outside)

theorem SameOutside.mono {more : List String} (same : SameOutside changed set next) (held : changed ⊆ more) :
    SameOutside more set next := fun path outside => same path fun member => outside (held member)

theorem Sound.rulesAt_eq (sound : set.Sound) {names : List String} (areSteps : AreSteps names) :
    set.rulesAt names = set.listAt (String.ofList (dirOf names)) := by
  rw [rulesAt, listAt]
  cases claimed : set.get? (String.ofList (dirOf names)) with
  | some claim => rw [sound.claimAt_eq_some.mpr ⟨areSteps, claimed⟩]
  | none =>
    cases found : set.claimAt names with
    | none => rfl
    | some claim =>
      rw [(sound.claimAt_eq_some.mp found).2] at claimed
      exact absurd claimed (by simp)

theorem Sound.rulesAt_eq_nil (sound : set.Sound) {names : List String} (noSteps : ¬ AreSteps names) :
    set.rulesAt names = [] := by
  rw [rulesAt]
  cases found : set.claimAt names with
  | none => rfl
  | some claim => exact absurd (sound.claimAt_eq_some.mp found).1 noSteps

theorem SameOutside.rulesAt (same : SameOutside changed set next) (sound : set.Sound) (soundNext : next.Sound)
    {names : List String}
    (outside : String.ofList (dirOf names) ∉ changed) : set.rulesAt names = next.rulesAt names := by
  by_cases areSteps : AreSteps names
  · rw [sound.rulesAt_eq areSteps, soundNext.rulesAt_eq areSteps, same _ outside]
  · rw [sound.rulesAt_eq_nil areSteps, soundNext.rulesAt_eq_nil areSteps]

/-- Where a survey marks no change, the rules are what they were. -/
theorem SameOutside.rulesAt_unmarked (same : SameOutside changed set next) (sound : set.Sound) (soundNext : next.Sound)
    {scope names : List String} (comparable : Terrain.Comparable scope names)
    (unmarked : ((Terrain.survey next (String.ofList (dirOf scope)) (some changed)).labelAt {} names).changed = false) :
    set.rulesAt names = next.rulesAt names := by
  by_cases areSteps : AreSteps names
  · refine same.rulesAt sound soundNext fun member => ?_
    rw [Terrain.labelAt_survey soundNext] at unmarked
    simp only [Option.isNone_some, Bool.false_and, Bool.false_or, Option.getD_some] at unmarked
    have differs := List.any_eq_false.mp unmarked _
      (List.mem_filter.mpr ⟨member, Terrain.isRelevant_of_comparable comparable⟩)
    exact differs (decide_eq_true (segments_dirOf areSteps))
  · rw [sound.rulesAt_eq_nil areSteps, soundNext.rulesAt_eq_nil areSteps]

namespace Edit

/-- The directories whose rules an edit may change. -/
def changes : Edit → List String
  | addRule path _ | removeRule path _ | updateRule path _ => [path]
  | claim _ | updateDirectory _ | revoke _ => []

/-- Claimed paths have no star, and ids are words of 64 bits. -/
def Allowed : Edit → Prop
  | claim directory => '*' ∉ directory.path.toList
  | addRule _ rule | updateRule _ rule => rule.id < 2 ^ 64
  | updateDirectory _ | revoke _ | removeRule _ _ => True

/-- The id of the rule that an edit brings is a word of 64 bits. -/
def IdFits : Edit → Prop
  | addRule _ rule | updateRule _ rule => rule.id < 2 ^ 64
  | claim _ | updateDirectory _ | revoke _ | removeRule _ _ => True

theorem Allowed.idFits {edit : Edit} (allowed : edit.Allowed) : edit.IdFits := by
  cases edit with
  | addRule path rule | updateRule path rule => exact allowed
  | claim | updateDirectory | revoke | removeRule => trivial

end Edit

theorem sameOutside_put (set : RuleSet) (path : String) (claim : Claim) :
    SameOutside [path] set { set with claims := set.claims.insert path claim } := by
  intro other outside
  rw [listAt, listAt, get?_put, if_neg (by simpa using outside)]

/-- A claim whose rules look the same changes nothing. -/
theorem sameOutside_put_nil {path : String} {claim : Claim} (same : set.listAt path = claim.ruleList) :
    SameOutside [] set { set with claims := set.claims.insert path claim } := by
  intro other _
  by_cases here : other = path
  · rw [here, same, listAt, get?_put, if_pos rfl]
  · exact sameOutside_put set path claim other (by simpa using here)

/-- An edit changes no claim but those it names. -/
theorem Effect.sameOutside {edit : Edit} (effect : Effect set next edit) : SameOutside edit.changes set next := by
  cases effect with
  | claim absolute fresh same =>
    subst same
    refine sameOutside_put_nil ?_
    rw [listAt, fresh]
    rfl
  | updateDirectory claimed same =>
    subst same
    refine sameOutside_put_nil ?_
    rw [listAt, claimed]
    rfl
  | @revoke path claim claimed isEmpty same =>
    subst same
    intro other _
    have erased : get? { set with claims := set.claims.erase path } other =
        if other = path then none else set.get? other :=
      Catalog.get?_erase set.claims path other
    have nothing : claim.ruleList = [] := by
      rw [Claim.ruleList, List.isEmpty_iff.mp isEmpty]
      rfl
    by_cases here : other = path
    · rw [listAt, listAt, erased, if_pos here, here, claimed]
      exact nothing
    · rw [listAt, listAt, erased, if_neg here]
  | addRule claimed allowed fresh same => subst same; exact sameOutside_put _ _ _
  | removeRule claimed found same => subst same; exact sameOutside_put _ _ _
  | updateRule claimed allowed found known free same => subst same; exact sameOutside_put _ _ _

/-- An update that keeps the pattern changes no rules. -/
theorem sameOutside_updateRule {path : String} {rule previous : Rule} (sound : set.Sound)
    (ran : updateRule path rule set = .ok previous next) (keeps : previous.pattern = rule.pattern) :
    SameOutside [] set next := by
  obtain ⟨_, key, claim, claimed, listed, known, _, same⟩ := updateRule_ok ran
  subst same
  refine sameOutside_put_nil ?_
  have found := Catalog.get?_eq_some.mpr listed
  obtain rfl : previous.pattern = key := (sound _ _ claimed).pattern_eq _ _ found
  have sameId : ({ rule with directoryId := claim.directory.id } : Rule).id = previous.id := known.symm
  have seen := Entries.map_insert_erase Rule.id claim.rules.ascending found sameId
  have lists := congrArg (List.map fun entry : String × Nat => (entry.1.toList, entry.2)) seen
  rw [List.map_map, List.map_map, keeps] at lists
  rw [listAt, claimed, keeps]
  exact lists.symm

theorem Starless.put {path : String} {claim : Claim} (starless : set.Starless) (plain : '*' ∉ path.toList) :
    Starless { set with claims := set.claims.insert path claim } := by
  intro other found claimed
  rw [get?_put] at claimed
  split at claimed
  · rename_i same
    exact same ▸ plain
  · exact starless other found claimed

theorem IdsFit.put {path : String} {claim : Claim} (idsFit : set.IdsFit)
    (small : ∀ pattern rule, claim.rules.get? pattern = some rule → rule.id < 2 ^ 64) :
    IdsFit { set with claims := set.claims.insert path claim } := by
  intro other found pattern rule claimed listed
  rw [get?_put] at claimed
  split at claimed
  · exact small pattern rule (Option.some.inj claimed ▸ listed)
  · exact idsFit other found pattern rule claimed listed

/-- Edits do not make ids wider, but for that of the rule that they bring. -/
theorem IdsFit.edit {edit : Edit} (idsFit : set.IdsFit) (small : edit.IdFits) (effect : Effect set next edit) :
    next.IdsFit := by
  cases effect with
  | claim absolute fresh same =>
    subst same
    refine idsFit.put fun pattern rule found => ?_
    exact absurd found (by simp [Catalog.get?, Catalog.empty, Entries.get?])
  | updateDirectory claimed same =>
    subst same
    exact idsFit.put fun pattern rule found => idsFit _ _ _ _ claimed found
  | revoke claimed isEmpty same =>
    subst same
    exact fun other claim pattern rule found => idsFit _ _ _ _ (Catalog.get?_of_erase found)
  | addRule claimed _ fresh same =>
    subst same
    refine idsFit.put fun pattern rule found => ?_
    rw [Claim.withRule, Catalog.get?_insert] at found
    split at found
    · exact Option.some.inj found ▸ small
    · exact idsFit _ _ _ _ claimed found
  | removeRule claimed found same =>
    subst same
    exact idsFit.put fun pattern rule found => idsFit _ _ _ _ claimed (Catalog.get?_of_erase found)
  | updateRule claimed _ _ known free same =>
    subst same
    refine idsFit.put fun pattern rule found => ?_
    rw [Claim.replaceRule, Claim.withRule, Catalog.get?_insert] at found
    split at found
    · exact Option.some.inj found ▸ small
    · exact idsFit _ _ _ _ claimed (Catalog.get?_of_erase found)

/-- What builds rely on is kept by edits that are allowed. -/
theorem Regular.edit {edit : Edit} (regular : set.Regular) (allowed : edit.Allowed) (effect : Effect set next edit) :
    next.Regular := by
  have sound := regular.sound.edit effect
  have idsFit : next.IdsFit := regular.idsFit.edit allowed.idFits effect
  have kept : ∀ {path : String} {old claim : Claim}, set.get? path = some old →
      Starless { set with claims := set.claims.insert path claim } :=
    fun claimed => regular.starless.put (regular.starless _ _ claimed)
  refine ⟨sound, ?_, idsFit⟩
  cases effect with
  | claim absolute fresh same => exact same ▸ regular.starless.put allowed
  | revoke claimed isEmpty same =>
    subst same
    exact fun other claim found => regular.starless other claim (Catalog.get?_of_erase found)
  | updateDirectory claimed same => exact same ▸ kept claimed
  | addRule claimed _ fresh same => exact same ▸ kept claimed
  | removeRule claimed found same => exact same ▸ kept claimed
  | updateRule claimed _ _ known free same => exact same ▸ kept claimed

/-- Directories whose rules are edited are claimed. -/
theorem Effect.properDirs {edit : Edit} (effect : Effect set next edit) (regular : set.Regular) :
    Terrain.ProperDirs edit.changes := by
  have proper : ∀ {path : String} {claim : Claim}, set.get? path = some claim → Terrain.ProperDirs [path] := by
    intro path claim claimed other member
    rw [List.mem_singleton.mp member]
    exact ⟨(regular.sound path claim claimed).absolute, regular.starless path claim claimed⟩
  cases effect with
  | claim | updateDirectory | revoke => exact fun path member => absurd member List.not_mem_nil
  | addRule claimed | removeRule claimed | updateRule claimed => exact proper claimed

theorem Edit.spec (edit : Edit) (regular : set.Regular) (allowed : edit.Allowed) (ran : edit.run set = .ok () next) :
    next.Regular ∧ SameOutside edit.changes set next ∧ Terrain.ProperDirs edit.changes :=
  ⟨regular.edit allowed (Edit.effect ran), (Edit.effect ran).sameOutside, (Edit.effect ran).properDirs regular⟩

theorem forM_addRule {batch : List (String × Rule)} (regular : set.Regular) (small : ∀ entry ∈ batch,
    entry.2.id < 2 ^ 64)
    (ran : batch.forM (fun entry => addRule entry.1 entry.2) set = .ok () next) :
    next.Regular ∧ SameOutside (batch.map (·.1)) set next ∧ Terrain.ProperDirs (batch.map (·.1)) := by
  induction batch generalizing set with
  | nil =>
    obtain ⟨_, rfl⟩ := EStateM.Result.ok.inj ran
    exact ⟨regular, fun _ _ => rfl, fun path member => absurd member List.not_mem_nil⟩
  | cons entry batch ih =>
    rw [List.forM, bind_eq] at ran
    split at ran
    · rename_i middle added
      obtain ⟨regularMiddle, first, here⟩ := (Edit.addRule entry.1 entry.2).spec regular
        (small entry List.mem_cons_self) added
      obtain ⟨regularNext, others, there⟩ :=
        ih regularMiddle (fun next member => small next (List.mem_cons_of_mem _ member)) ran
      refine ⟨regularNext, (first.mono ?_).trans (others.mono (List.subset_cons_self _ _)), fun path member => ?_⟩
      · exact fun path member => List.mem_singleton.mp member ▸ List.mem_cons_self
      · rcases List.mem_cons.mp member with rfl | later
        · exact here _ List.mem_cons_self
        · exact there path later
    · exact absurd ran (by simp)

theorem regular_empty : Regular .empty := by
  have nothing : ∀ path, RuleSet.empty.get? path = none := fun _ => rfl
  refine ⟨Reached.sound .empty, fun path claim claimed => ?_, fun path claim pattern rule claimed _ => ?_⟩
  · exact absurd ((nothing path).symm.trans claimed) (by simp)
  · exact absurd ((nothing path).symm.trans claimed) (by simp)

end RuleSet
end BackupAtlas
