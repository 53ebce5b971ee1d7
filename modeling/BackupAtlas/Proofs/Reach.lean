import BackupAtlas.Proofs.Plans

namespace BackupAtlas

open TreePath

theorem eq_singleton_of_prefix {α : Type} {a : α} {inner : List α} (some : inner ≠ []) (within : inner <+: [a]) :
    inner = [a] := by
  cases inner with
  | nil => exact absurd rfl some
  | cons b inner =>
    obtain ⟨rfl, rest⟩ := List.cons_prefix_cons.mp within
    rw [List.prefix_nil.mp rest]

namespace RuleSet

/-- No claimed directory below `above`, down to `names`, has a rule `*` of its own. -/
def Unshielded (set : RuleSet) (above names : List String) : Prop :=
  ∀ between claim, above <+: between → between ≠ above → between <+: names →
    set.get? (String.ofList (dirOf between)) = some claim → claim.rules.get? "*" = none

/-- Something has changed at or below the directory to which names lead, or above it, and no rule `*` shields it
from that. -/
def Affected (set : RuleSet) (changed : List String) (names : List String) : Prop :=
  ∃ other, AreSteps other ∧ String.ofList (dirOf other) ∈ changed ∧
    (names <+: other ∨ other <+: names ∧ set.Unshielded other names)

/-- A rule of the directory has text behind its first star, and what stands before that star starts `name`. -/
def Unsettled (set : RuleSet) (above : List String) (name : String) : Prop :=
  ∃ claim pattern rule head tail, set.get? (String.ofList (dirOf above)) = some claim ∧
    claim.rules.get? pattern = some rule ∧ pattern.toList = head ++ '*' :: tail ∧ tail ≠ [] ∧ head <+: name.toList

/-- Above the directory a rule leaves open to which rule its files go, and no rule `*` shields it from that. -/
def Lingers (set : RuleSet) (names : List String) : Prop :=
  ∃ above name more, names = above ++ name :: more ∧ set.Unsettled above name ∧ set.Unshielded above names

variable {set : RuleSet} {above names more : List String}

theorem Unshielded.refl (set : RuleSet) (names : List String) : set.Unshielded names names :=
  fun _ _ below differs within _ =>
    absurd (below.eq_of_length (Nat.le_antisymm below.length_le within.length_le)).symm differs

/-- A path stays unshielded as long as no directory on it has a rule for everything. -/
theorem Unshielded.append (unshielded : set.Unshielded above names)
    (bare : ∀ inner claim, inner ≠ [] → inner <+: more →
      set.get? (String.ofList (dirOf (names ++ inner))) = some claim → claim.rules.get? "*" = none) :
    set.Unshielded above (names ++ more) := by
  intro between claim below differs within claimed
  rcases List.prefix_or_prefix_of_prefix within (List.prefix_append names more) with shorter | ⟨inner, rfl⟩
  · exact unshielded between claim below differs shorter claimed
  · by_cases nothing : inner = []
    · subst nothing
      rw [List.append_nil] at claimed below differs
      exact unshielded names claim below differs (List.prefix_refl _) claimed
    · exact bare inner claim nothing ((List.prefix_append_right_inj _).mp within) claimed

/-- An open question lingers as long as no directory has a rule for everything. -/
theorem Lingers.append (lingers : set.Lingers names)
    (bare : ∀ inner claim, inner ≠ [] → inner <+: more →
      set.get? (String.ofList (dirOf (names ++ inner))) = some claim → claim.rules.get? "*" = none) :
    set.Lingers (names ++ more) := by
  obtain ⟨above, name, rest, rfl, unsettled, unshielded⟩ := lingers
  exact ⟨above, name, rest ++ more, by simp, unsettled, unshielded.append bare⟩

/-- Where no rule is `*`, a claim has none. -/
theorem Sound.bare_of_rulesAt (sound : set.Sound) (areSteps : AreSteps names)
    (starless : ∀ id, (['*'], id) ∉ set.rulesAt names) {claim : Claim}
    (claimed : set.get? (String.ofList (dirOf names)) = some claim) : claim.rules.get? "*" = none := by
  cases found : claim.rules.get? "*" with
  | none => rfl
  | some rule =>
    refine absurd (mem_rulesAt.mpr ⟨claim, rule, sound.claimAt_eq_some.mpr ⟨areSteps, claimed⟩, ?_, rfl⟩)
      (starless rule.id)
    rwa [show String.ofList ['*'] = "*" by decide +kernel]

theorem Sound.unsettled_of_mem (sound : set.Sound) {pattern head tail : List Char} {id : Nat} {name : String}
    (member : (pattern, id) ∈ set.rulesAt names) (shape : pattern = head ++ '*' :: tail) (more : tail ≠ [])
    (starts : head <+: name.toList) : set.Unsettled names name := by
  obtain ⟨claim, rule, claimed, listed, _⟩ := mem_rulesAt.mp member
  exact ⟨claim, _, rule, head, tail, (sound.claimAt_eq_some.mp claimed).2, listed,
    by rw [String.toList_ofList, shape], more, starts⟩

end RuleSet

namespace Terrain

/-- Some pattern has `text` before its first star and goes on behind it. -/
def GoesOn (rules : List (List Char × Nat)) (text : List Char) : Prop :=
  ∃ entry ∈ rules, ∃ tail, tail ≠ [] ∧ entry.1 = text ++ '*' :: tail

theorem GoesOn.append {rules : List (List Char × Nat)} {text : List Char} (goesOn : GoesOn rules text)
    (more : List (List Char × Nat)) : GoesOn (rules ++ more) text := by
  obtain ⟨entry, member, rest⟩ := goesOn
  exact ⟨entry, List.mem_append_left _ member, rest⟩

/-- A text stays open only because of a pattern that goes on: two patterns with the same text differ behind it. -/
theorem Describes.walk_step {rules : List (List Char × Nat)} {heads : List (String × Default)}
    (describes : Describes rules heads) {entry : List Char × Nat} (fresh : entry.1 ∉ rules.map (·.1))
    (known : ∀ text, Entries.get? text heads = some .walk → GoesOn rules text.toList) (text : String)
    (stays : Entries.get? text (addHead heads entry) = some .walk) : GoesOn (rules ++ [entry]) text.toList := by
  by_cases here : StartsWith text entry.1
  · obtain ⟨rest, cut⟩ := here
    have shape := (Pattern.cut?_eq_some.mp cut).1
    by_cases more : rest = []
    · subst more
      have nonempty : text ≠ "" := by
        rintro rfl
        exact addHead_nonempty describes.nonempty entry _
          ((Entries.get?_eq_some (addHead_ascending describes.ascending entry)).mp stays) rfl
      rw [get?_addHead cut nonempty] at stays
      cases before : Entries.get? text heads with
      | none => simp [before] at stays
      | some default =>
        cases default with
        | walk => exact (known text before).append _
        | toRule rule =>
          have twice := List.mem_map_of_mem (f := (·.1)) (describes.single text rule before).1
          exact absurd (shape ▸ twice) fresh
    · exact ⟨entry, by simp, rest, more, shape⟩
  · rw [get?_addHead_of_not here] at stays
    exact (known text stays).append _

theorem Describes.walk_steps {rules more : List (List Char × Nat)} {heads : List (String × Default)}
    (describes : Describes rules heads) (distinct : ((rules ++ more).map (·.1)).Nodup)
    (known : ∀ text, Entries.get? text heads = some .walk → GoesOn rules text.toList) (text : String)
    (stays : Entries.get? text (more.foldl addHead heads) = some .walk) : GoesOn (rules ++ more) text.toList := by
  induction more generalizing rules heads with
  | nil => rw [List.append_nil]; exact known text stays
  | cons entry more ih =>
    rw [List.append_cons] at distinct ⊢
    have fresh : entry.1 ∉ rules.map (·.1) := by
      rw [List.map_append, List.map_append, List.append_assoc] at distinct
      exact fun member => (List.nodup_append.mp distinct).2.2 _ member _ (by simp) rfl
    exact ih (describes.step entry) distinct (describes.walk_step fresh known) stays

namespace Ground

variable {ground : Ground} {inherited : Default}

/-- A text that has to be walked is the start of a rule that goes on behind its star. -/
theorem goesOn_of_heads (distinct : (ground.rules.map (·.1)).Nodup) {text : String}
    (member : (text, Default.walk) ∈ ground.heads) : GoesOn ground.rules text.toList := by
  have start : Describes [] [] := ⟨.nil, by simp, by simp [Entries.get?], by simp [Entries.get?]⟩
  have stays := (Entries.get?_eq_some ground.describes_heads.ascending).mpr member
  exact start.walk_steps distinct (by simp [Entries.get?]) text stays

/-- A default is to walk if a rule goes on behind a star in front, or nothing else was decided above. -/
theorem default_eq_walk (walk : ground.default inherited = .walk) :
    GoesOn ground.rules [] ∨ (ground.star? = none ∧ inherited = .walk) := by
  rw [default] at walk
  split at walk
  · rename_i shaped
    obtain ⟨entry, member, shape⟩ := List.any_eq_true.mp shaped
    refine Or.inl ⟨entry, member, ?_⟩
    rw [beq_iff_eq] at shape
    unfold Pattern.Shape.of at shape
    split at shape
    · exact absurd shape (by simp)
    · rename_i tail notStar same
      exact ⟨tail, notStar, same⟩
    · split at shape <;> exact absurd shape (by simp)
  · split at walk
    · exact absurd walk (by simp)
    · rename_i missing
      exact Or.inr ⟨missing, walk⟩

end Ground

/-- A subdirectory is walked if a head says so, or the default does. -/
theorem inherit_eq_walk {default : Default} {heads : List (String × Default)} {name : String}
    (walk : inherit default heads name = .walk) :
    (∃ text, (text, Default.walk) ∈ heads ∧ text.toList <+: name.toList) ∨ default = .walk := by
  rw [inherit] at walk
  split at walk
  · rename_i text found last
    subst walk
    obtain ⟨member, starts⟩ := List.mem_filter.mp (List.mem_of_getLast? last)
    exact Or.inl ⟨text, member, List.isPrefixOf_iff_prefix.mp starts⟩
  · exact Or.inr walk

/-- A directory that a survey has as changed is listed. -/
theorem mem_changed {set : RuleSet} {changed names : List String} (sound : set.Sound) (proper : ProperDirs changed)
    {root : String} (marked : ((survey set root (some changed)).labelAt {} names).changed) :
    AreSteps names ∧ String.ofList (dirOf names) ∈ changed := by
  rw [labelAt_survey sound] at marked
  simp only [Option.isNone_some, Bool.false_and, Bool.false_or, Option.getD_some, List.any_eq_true, List.mem_filter,
    decide_eq_true_eq] at marked
  obtain ⟨path, ⟨listed, _⟩, rfl⟩ := marked
  obtain ⟨steps, areSteps, rfl⟩ := exists_dirOf_of_isAbsoluteDir (proper path listed).1
  rw [segments_dirOf areSteps]
  exact ⟨areSteps, listed⟩

/-- What a directive may say of a directory after a change. -/
def Confined (set : RuleSet) (changed names : List String) (directive : Directive) : Prop :=
  set.Affected changed names ∨ set.Lingers names ∧ directive = .process ∨ ∃ rule, directive = .reuse rule

namespace Surveyed

variable {set : RuleSet} {scope names changed : List String} {root : String} {place : Stop} {old : RuleMap}
  (surveyed : Surveyed scope old set.rulesAt (survey set root (some changed))) (sound : set.Sound)

include surveyed sound

theorem bare_of_visit (comparable : Comparable scope names)
    (visited : (Stop.ofTree (survey set root (some changed))).visit names = some place)
    (starless : place.tree.label.star? = none) {claim : Claim}
    (claimed : set.get? (String.ofList (dirOf names)) = some claim) : claim.rules.get? "*" = none := by
  refine sound.bare_of_rulesAt (tidy_of_visit surveyed.ascending surveyed.tidy visited).1 (fun id => ?_) claimed
  rw [← surveyed.rules_of_visit comparable visited]
  exact Ground.star?_eq_none starless id

/-- Nothing is claimed at or below a directory that is missing. -/
theorem bare_of_missing (within : scope <+: names)
    (visited : (Stop.ofTree (survey set root (some changed))).visit names = some place) {name : String}
    (missing : place.tree.below.find? name = none) {inner : List String} (areSteps : AreSteps (names ++ name :: inner))
    {claim : Claim} (claimed : set.get? (String.ofList (dirOf (names ++ name :: inner))) = some claim) :
    claim.rules.get? "*" = none := by
  refine sound.bare_of_rulesAt areSteps (fun id => ?_) claimed
  rw [← surveyed.rules_eq _ (Or.inr (within.trans (List.prefix_append _ _))), List.append_cons,
    labelAt_missing visited missing]
  exact List.not_mem_nil

omit surveyed in
/-- A directory that is marked as changed is in the list of changes. -/
theorem changed_of_visit (proper : ProperDirs changed)
    (visited : (Stop.ofTree (survey set root (some changed))).visit names = some place)
    (marked : place.tree.label.changed = true) : AreSteps names ∧ String.ofList (dirOf names) ∈ changed := by
  have label : (survey set root (some changed)).labelAt {} names = place.tree.label :=
    DirTree.labelAt_of_some (sub?_of_visit visited)
  exact mem_changed sound proper (by rw [label]; exact marked)

/-- A directory is dirty because of a changed one at or above it, from which no rule `*` shields it. -/
theorem exists_changed_of_dirty (proper : ProperDirs changed) (comparable : Comparable scope names)
    (visited : (Stop.ofTree (survey set root (some changed))).visit names = some place) (dirty : place.dirty = true) :
    ∃ other, AreSteps other ∧ String.ofList (dirOf other) ∈ changed ∧ other <+: names ∧
      set.Unshielded other names := by
  induction names using List.reverseRecOn generalizing place with
  | nil =>
    obtain rfl := Option.some.inj visited
    obtain ⟨areSteps, listed⟩ := changed_of_visit sound proper visited
      (by simpa [Stop.ofTree, Ground.isDirty] using dirty)
    exact ⟨[], areSteps, listed, List.prefix_refl _, .refl set []⟩
  | append_singleton names key ih =>
    obtain ⟨above, there, _, stepped⟩ := visit_snoc_some visited
    rw [(next_some stepped).2.1, Ground.isDirty, Bool.or_eq_true, Bool.and_eq_true] at dirty
    rcases dirty with marked | ⟨higher, starless⟩
    · obtain ⟨areSteps, listed⟩ := changed_of_visit sound proper visited marked
      exact ⟨names ++ [key], areSteps, listed, List.prefix_refl _, .refl set _⟩
    · obtain ⟨other, areSteps, listed, held, unshielded⟩ := ih comparable.of_append there higher
      refine ⟨other, areSteps, listed, held.trans (List.prefix_append _ _), unshielded.append ?_⟩
      rintro inner claim some within claimed
      obtain rfl := eq_singleton_of_prefix some within
      exact surveyed.bare_of_visit sound comparable visited (by simpa using starless) claimed

/-- A directory that has a changed one below it is affected. -/
theorem affected_of_any (proper : ProperDirs changed)
    (visited : (Stop.ofTree (survey set root (some changed))).visit names = some place)
    (news : place.tree.below.any (·.changed) = true) : set.Affected changed names := by
  rw [Forest.any_eq, List.any_eq_true] at news
  obtain ⟨⟨inner, ground⟩, listed, marked⟩ := news
  have ascending := DirTree.sub?_ascending surveyed.ascending (sub?_of_visit visited)
  obtain ⟨below, here⟩ := (DirTree.mem_listing ascending).mp (List.mem_cons_of_mem _ listed)
  have label : (survey set root (some changed)).labelAt {} (names ++ inner) = ground := by
    rw [DirTree.labelAt_append {} (sub?_of_visit visited), DirTree.labelAt_of_some here]
  obtain ⟨areSteps, member⟩ := mem_changed sound proper (by rw [label]; exact marked)
  exact ⟨names ++ inner, areSteps, member, Or.inl (List.prefix_append _ _)⟩

/-- What is dirty, or has something changed below it, is affected. -/
theorem affected_of_visit (proper : ProperDirs changed) (comparable : Comparable scope names)
    (visited : (Stop.ofTree (survey set root (some changed))).visit names = some place)
    (news : (place.dirty || place.tree.below.any (·.changed)) = true) : set.Affected changed names := by
  rcases Bool.or_eq_true_iff.mp news with dirty | below
  · obtain ⟨other, areSteps, listed, held, unshielded⟩ :=
      surveyed.exists_changed_of_dirty sound proper comparable visited dirty
    exact ⟨other, areSteps, listed, Or.inr ⟨held, unshielded⟩⟩
  · exact surveyed.affected_of_any sound proper visited below

/-- The directive of a directory that is visited and does not lead to the scope. -/
theorem confined_of_visit (proper : ProperDirs changed) (comparable : Comparable scope names)
    (visited : (Stop.ofTree (survey set root (some changed))).visit names = some place)
    (deeper : place.tree.label.leadsToScope = false) : Confined set changed names place.directive := by
  by_cases news : (place.dirty || place.tree.below.any (·.changed)) = true
  · exact Or.inl (surveyed.affected_of_visit sound proper comparable visited news)
  · rw [Bool.not_eq_true] at news
    have unwalked : place.walks = false := by rw [Stop.walks, Ground.walks, deeper, news]; rfl
    refine Or.inr (Or.inr ?_)
    rw [Stop.directive, unwalked, if_neg Bool.false_ne_true, Ground.shortcut, news, if_neg Bool.false_ne_true]
    exact ⟨_, rfl⟩

omit surveyed sound in
theorem bare_singleton {name : String}
    (bare : ∀ claim, set.get? (String.ofList (dirOf (names ++ [name]))) = some claim → claim.rules.get? "*" = none) :
    ∀ inner claim, inner ≠ [] → inner <+: [name] →
      set.get? (String.ofList (dirOf (names ++ inner))) = some claim → claim.rules.get? "*" = none := by
  rintro inner claim some within claimed
  obtain rfl := eq_singleton_of_prefix some within
  exact bare claim claimed

/-- Where a default leaves open to which rule the files of a subdirectory go, a rule of the directory does so, or
that is inherited. -/
theorem lingers_or_inherited (comparable : Comparable scope names)
    (visited : (Stop.ofTree (survey set root (some changed))).visit names = some place) {name : String}
    (walk : place.defaultFor name = .walk)
    (bare : ∀ claim, set.get? (String.ofList (dirOf (names ++ [name]))) = some claim → claim.rules.get? "*" = none) :
    set.Lingers (names ++ [name]) ∨ (place.tree.label.star? = none ∧ place.inherited = .walk) := by
  have own : ∀ text : List Char, GoesOn place.tree.label.rules text → text <+: name.toList →
      set.Lingers (names ++ [name]) := by
    rintro text ⟨⟨pattern, id⟩, member, tail, more, shape⟩ starts
    rw [surveyed.rules_of_visit comparable visited] at member
    exact ⟨names, name, [], rfl, sound.unsettled_of_mem member shape more starts,
      (RuleSet.Unshielded.refl set names).append (bare_singleton bare)⟩
  rcases inherit_eq_walk walk with ⟨text, member, starts⟩ | default
  · exact Or.inl (own _ (Ground.goesOn_of_heads (surveyed.distinct_of_visit comparable visited) member) starts)
  · exact (Ground.default_eq_walk default).imp_left fun goesOn => own _ goesOn List.nil_prefix

/-- Where a subdirectory has to be walked, a question lingers. -/
theorem lingers_of_walk (comparable : Comparable scope names)
    (visited : (Stop.ofTree (survey set root (some changed))).visit names = some place) {name : String}
    (walk : place.defaultFor name = .walk)
    (bare : ∀ claim, set.get? (String.ofList (dirOf (names ++ [name]))) = some claim → claim.rules.get? "*" = none) :
    set.Lingers (names ++ [name]) := by
  induction names using List.reverseRecOn generalizing place name with
  | nil =>
    obtain rfl := Option.some.inj visited
    rcases surveyed.lingers_or_inherited sound comparable visited walk bare with here | ⟨_, inherited⟩
    · exact here
    · exact absurd inherited (by simp [Stop.ofTree])
  | append_singleton names key ih =>
    rcases surveyed.lingers_or_inherited sound comparable visited walk bare with here | ⟨starless, inherited⟩
    · exact here
    · -- the rule stands above `key`, and no `*` at `key` shields from it
      obtain ⟨above, there, _, stepped⟩ := visit_snoc_some visited
      rw [(next_some stepped).1] at inherited
      have higher := ih comparable.of_append there inherited
        fun claim claimed => surveyed.bare_of_visit sound comparable visited starless claimed
      exact higher.append (bare_singleton bare)

/-- The directive of whatever lies at or below a subdirectory that is missing. -/
theorem confined_of_missing (proper : ProperDirs changed) (within : scope <+: names)
    (visited : (Stop.ofTree (survey set root (some changed))).visit names = some place) {name : String}
    (missing : place.tree.below.find? name = none) {more : List String} (areSteps : AreSteps (names ++ name :: more)) :
    Confined set changed (names ++ name :: more) ((place.defaultFor name).directive place.dirty) := by
  have bare : ∀ inner claim, inner ≠ [] → inner <+: name :: more →
      set.get? (String.ofList (dirOf (names ++ inner))) = some claim → claim.rules.get? "*" = none := by
    intro inner claim some held claimed
    obtain ⟨head, tail, rfl⟩ := List.exists_cons_of_ne_nil some
    obtain ⟨rfl, rest⟩ := List.cons_prefix_cons.mp held
    refine surveyed.bare_of_missing sound within visited missing (areSteps.of_prefix ?_) claimed
    exact (List.prefix_append_right_inj _).mpr held
  cases dirty : place.dirty with
  | true =>
    obtain ⟨other, steps, listed, held, unshielded⟩ :=
      surveyed.exists_changed_of_dirty sound proper (Or.inr within) visited dirty
    exact Or.inl ⟨other, steps, listed, Or.inr ⟨held.trans (List.prefix_append _ _), unshielded.append bare⟩⟩
  | false =>
    cases settled : place.defaultFor name with
    | toRule rule => exact Or.inr (Or.inr ⟨rule, rfl⟩)
    | walk =>
      refine Or.inr (Or.inl ⟨?_, rfl⟩)
      have first := surveyed.lingers_of_walk sound (Or.inr within) visited settled
        fun claim claimed => bare [name] claim (by simp) (by simp) claimed
      rw [List.append_cons]
      refine first.append fun inner claim some held claimed => bare (name :: inner) claim (by simp) ?_ ?_
      · exact List.cons_prefix_cons.mpr ⟨rfl, held⟩
      · rwa [List.append_cons]

/-- Every subdirectory of a directory that is walked is affected, or a rule leaves it open, or it is taken over. -/
theorem confined_child (proper : ProperDirs changed) (atRoot : segments root = scope) {dirs : Matcher Directive}
    (compiled : Matcher.compile ((Stop.ofTree (survey set root (some changed))).directives ['/']) = .ok dirs)
    (within : scope <+: names) (station : Station (survey set root (some changed)) names) {name : String}
    (step : IsStep name.toList) : ∃ directive, dirs.lookup (dirOf (names ++ [name])) = some directive ∧
      Confined set changed (names ++ [name]) directive := by
  cases station with
  | @visited _ place visited walked =>
    have steps := (tidy_of_visit surveyed.ascending surveyed.tidy visited).1
    cases found : place.tree.below.find? name with
    | none =>
      exact ⟨_, lookup_below surveyed.ascending surveyed.tidy compiled visited walked found step areSteps_nil,
        surveyed.confined_of_missing sound proper within visited found (steps.snoc step)⟩
    | some inner =>
      obtain ⟨ground, below⟩ := inner
      have stepped : (Stop.ofTree (survey set root (some changed))).visit (names ++ [name]) =
          some ⟨place.defaultFor name, ground.isDirty place.dirty, ⟨ground, below⟩⟩ := by
        rw [Stop.visit_snoc, visited, Option.bind_some, if_pos walked, Stop.next, found]
        rfl
      refine ⟨_, lookup_visited surveyed.ascending surveyed.tidy compiled stepped,
        surveyed.confined_of_visit sound proper (Or.inr (within.trans (List.prefix_append _ _))) stepped ?_⟩
      have label : (survey set root (some changed)).labelAt {} (names ++ [name]) = ground :=
        DirTree.labelAt_of_some (sub?_of_visit stepped)
      rw [← label, labelAt_survey sound, atRoot]
      simp only [decide_eq_false_iff_not]
      intro held
      have shorter := (held.trans within).length_le
      rw [List.length_append, List.length_singleton] at shorter
      omega
  | @beyond above more key place visited walked missing stepKey walk areSteps =>
    have deeper : AreSteps (more ++ [name]) := areSteps.snoc step
    have steps := (tidy_of_visit surveyed.ascending surveyed.tidy visited).1
    have whole : AreSteps (above ++ key :: (more ++ [name])) := steps.append (deeper.cons stepKey)
    obtain ⟨start, there, _⟩ := surveyed.visited_scope
    have higher : scope <+: above := visited_above visited missing there within
    refine ⟨(place.defaultFor key).directive place.dirty, ?_, ?_⟩
    · rw [List.append_assoc, List.cons_append]
      exact lookup_below surveyed.ascending surveyed.tidy compiled visited walked missing stepKey deeper
    · rw [List.append_assoc, List.cons_append]
      exact surveyed.confined_of_missing sound proper higher visited missing whole

end Surveyed

end Terrain
end BackupAtlas
