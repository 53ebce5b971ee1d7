import BackupAtlas.Matcher

namespace BackupAtlas

/-- A pattern matches a whole path, a star any run of it. -/
def Matches : List Symbol → List Char → Prop
  | [], path => path = []
  | .literal c :: pattern, path => ∃ rest, path = c :: rest ∧ Matches pattern rest
  | .star :: pattern, path => ∃ rest, rest <:+ path ∧ Matches pattern rest

/-- The text of a pattern before its first star. -/
def literalHead : List Symbol → List Char
  | .literal c :: pattern => c :: literalHead pattern
  | _ => []

/-- The pattern that decides for a path among those that are `held`: literal characters go before
the end of a pattern, that goes before a star, and a star takes the shortest run that leaves a rest
which some pattern matches. -/
def Decides : List Symbol → (List Symbol → Prop) → List Char → Prop
  | [], held, path => path = [] ∧ held []
  | .literal c :: pattern, held, path =>
    ∃ rest, path = c :: rest ∧ Decides pattern (fun tail => held (.literal c :: tail)) rest
  | .star :: pattern, held, path =>
    (∀ other, held other → Matches other path → ∃ tail, other = .star :: tail) ∧
    ∃ rest, rest <:+ path ∧
      (∀ longer other, longer <:+ path → rest.length < longer.length → held (.star :: other) →
        ¬ Matches other longer) ∧
      Decides pattern (fun tail => held (.star :: tail)) rest

/-- A path starts with the literal start of any pattern that matches it. -/
theorem Matches.literalHead_prefix {pattern : List Symbol} {path : List Char}
    (fits : Matches pattern path) : literalHead pattern <+: path := by
  induction pattern generalizing path with
  | nil => exact List.nil_prefix
  | cons symbol pattern ih =>
    cases symbol with
    | star => exact List.nil_prefix
    | literal c =>
      obtain ⟨rest, rfl, fits⟩ := fits
      exact List.cons_prefix_cons.mpr ⟨rfl, ih fits⟩

/-- A literal start in front of a pattern has to be in front of the path. -/
theorem matches_literals_append {text path : List Char} {pattern : List Symbol} :
    Matches (text.map .literal ++ pattern) path ↔ ∃ rest, path = text ++ rest ∧ Matches pattern rest := by
  induction text generalizing path with
  | nil => simp
  | cons c text ih =>
    simp only [List.map_cons, List.cons_append, Matches, ih]
    constructor
    · rintro ⟨_, rfl, rest, rfl, fits⟩
      exact ⟨rest, rfl, fits⟩
    · rintro ⟨rest, rfl, fits⟩
      exact ⟨_, rfl, rest, rfl, fits⟩

theorem literalHead_ofChar (text : List Char) : literalHead (text.map .ofChar) = text.takeWhile (· != '*') := by
  induction text with
  | nil => rfl
  | cons c text ih =>
    by_cases star : c = '*'
    · subst star
      rfl
    · simp [Symbol.ofChar, star, literalHead, ih]

/-- A pattern without stars matches one path only. -/
theorem matches_literals {text path : List Char} :
    Matches (text.map .literal) path ↔ path = text := by
  rw [← List.append_nil (text.map Symbol.literal), matches_literals_append]
  simp [Matches]

theorem literalHead_literals_append (text : List Char) (pattern : List Symbol) :
    literalHead (text.map .literal ++ pattern) = text ++ literalHead pattern := by
  induction text with
  | nil => rfl
  | cons c text ih => simp [literalHead, ih]

namespace Decides

variable {held fewer : List Symbol → Prop} {pattern other : List Symbol} {path : List Char}

theorem is_held (decides : Decides pattern held path) : held pattern := by
  induction pattern generalizing held path with
  | nil => exact decides.2
  | cons symbol pattern ih =>
    cases symbol with
    | literal c =>
      obtain ⟨rest, _, inner⟩ := decides
      exact ih inner
    | star =>
      obtain ⟨_, rest, _, _, inner⟩ := decides
      exact ih inner

theorem fits (decides : Decides pattern held path) : Matches pattern path := by
  induction pattern generalizing held path with
  | nil => exact decides.1
  | cons symbol pattern ih =>
    cases symbol with
    | literal c =>
      obtain ⟨rest, same, inner⟩ := decides
      exact ⟨rest, same, ih inner⟩
    | star =>
      obtain ⟨_, rest, suffix, _, inner⟩ := decides
      exact ⟨rest, suffix, ih inner⟩

/-- At most one pattern decides. -/
theorem unique (decides : Decides pattern held path) (also : Decides other held path) :
    pattern = other := by
  induction pattern generalizing held path other with
  | nil =>
    cases other with
    | nil => rfl
    | cons symbol tail =>
      cases symbol with
      | literal c =>
        obtain ⟨rest, same, _⟩ := also
        exact absurd (decides.1.symm.trans same) (by simp)
      | star =>
        obtain ⟨tail, impossible⟩ := also.1 [] decides.2 decides.1
        exact absurd impossible (by simp)
  | cons symbol pattern ih =>
    cases symbol with
    | literal c =>
      cases other with
      | nil =>
        obtain ⟨rest, same, _⟩ := decides
        exact absurd (also.1.symm.trans same) (by simp)
      | cons symbol tail =>
        cases symbol with
        | literal d =>
          obtain ⟨rest, rfl, inner⟩ := decides
          obtain ⟨rest', same, inner'⟩ := also
          obtain ⟨rfl, rfl⟩ := List.cons.inj same
          rw [ih inner inner']
        | star =>
          obtain ⟨tail, impossible⟩ := also.1 _ decides.is_held decides.fits
          exact absurd impossible (by simp)
    | star =>
      cases other with
      | nil =>
        obtain ⟨tail, impossible⟩ := decides.1 [] also.2 also.1
        exact absurd impossible (by simp)
      | cons symbol tail =>
        cases symbol with
        | literal d =>
          obtain ⟨tail, impossible⟩ := decides.1 _ also.is_held also.fits
          exact absurd impossible (by simp)
        | star =>
          obtain ⟨_, rest, suffix, sooner, inner⟩ := decides
          obtain ⟨_, rest', suffix', sooner', inner'⟩ := also
          have same : rest = rest' := by
            rcases Nat.lt_trichotomy rest.length rest'.length with less | equal | more
            · exact absurd inner'.fits (sooner rest' tail suffix' less inner'.is_held)
            · exact (List.suffix_of_suffix_length_le suffix suffix' (Nat.le_of_eq equal)).eq_of_length equal
            · exact absurd inner.fits (sooner' rest pattern suffix more inner.is_held)
          subst same
          rw [ih inner inner']

/-- Taking away other patterns does not change which one decides. -/
theorem of_fewer (decides : Decides pattern held path) (included : ∀ other, fewer other → held other)
    (kept : fewer pattern) : Decides pattern fewer path := by
  induction pattern generalizing held fewer path with
  | nil => exact ⟨decides.1, kept⟩
  | cons symbol pattern ih =>
    cases symbol with
    | literal c =>
      obtain ⟨rest, same, inner⟩ := decides
      exact ⟨rest, same, ih inner (fun other => included _) kept⟩
    | star =>
      obtain ⟨first, rest, suffix, sooner, inner⟩ := decides
      exact ⟨fun other member => first other (included other member), rest, suffix,
        fun longer other within longerRest member => sooner longer other within longerRest (included _ member),
        ih inner (fun other => included _) kept⟩

/-- The pattern that decides has the longest literal start of all that match. -/
theorem literalHead_le (decides : Decides pattern held path) (member : held other)
    (fits : Matches other path) : (literalHead other).length ≤ (literalHead pattern).length := by
  induction pattern generalizing held path other with
  | nil =>
    have within := fits.literalHead_prefix.length_le
    rwa [decides.1] at within
  | cons symbol pattern ih =>
    cases symbol with
    | star =>
      obtain ⟨tail, rfl⟩ := decides.1 other member fits
      exact Nat.zero_le _
    | literal c =>
      obtain ⟨rest, rfl, inner⟩ := decides
      cases other with
      | nil => exact Nat.zero_le _
      | cons symbol tail =>
        cases symbol with
        | star => exact Nat.zero_le _
        | literal d =>
          obtain ⟨rest', same, inside⟩ := fits
          obtain ⟨rfl, rfl⟩ := List.cons.inj same
          exact Nat.succ_le_succ (ih inner member inside)

/-- A pattern without stars goes before all others. -/
theorem of_literals (member : held (path.map .literal)) : Decides (path.map .literal) held path := by
  induction path generalizing held with
  | nil => exact ⟨rfl, member⟩
  | cons c path ih => exact ⟨path, rfl, ih member⟩

end Decides

/-- Behind a literal start the rests of the patterns decide. -/
theorem decides_literals_append {text path : List Char} {pattern : List Symbol} {held : List Symbol → Prop} :
    Decides (text.map .literal ++ pattern) held path ↔
      ∃ rest, path = text ++ rest ∧ Decides pattern (fun tail => held (text.map .literal ++ tail)) rest := by
  induction text generalizing path held with
  | nil => simp
  | cons c text ih =>
    simp only [List.map_cons, List.cons_append, Decides, ih]
    constructor
    · rintro ⟨_, rfl, rest, rfl, decides⟩
      exact ⟨rest, rfl, decides⟩
    · rintro ⟨rest, rfl, decides⟩
      exact ⟨_, rfl, rest, rfl, decides⟩

namespace Edges

variable {α : Type}

def child? (symbol : Symbol) : Edges α → Option (Place α)
  | none => .none
  | edge head value below others =>
    if symbol = head then some ⟨value, below⟩ else child? symbol others

theorem mem_rests {rest path : List Char} : rest ∈ rests path ↔ rest <:+ path := by
  induction path with
  | nil => simp [rests]
  | cons c path ih => rw [rests, List.mem_cons, ih, List.suffix_cons_iff]

/-- The longest rest for which there is a result. -/
theorem findSome?_rests {β : Type} {f : List Char → Option β} {path : List Char} {value : β}
    (found : (rests path).findSome? f = some value) :
    ∃ rest, rest <:+ path ∧ f rest = some value ∧
      ∀ longer, longer <:+ path → rest.length < longer.length → f longer = .none := by
  induction path with
  | nil =>
    refine ⟨[], List.suffix_refl _, by simpa [rests] using found, ?_⟩
    intro longer within longerRest
    exact absurd (within.length_le) (Nat.not_le_of_lt longerRest)
  | cons c path ih =>
    rw [rests, List.findSome?_cons] at found
    cases here : f (c :: path) with
    | some first =>
      rw [here] at found
      refine ⟨c :: path, List.suffix_refl _, here.trans found, ?_⟩
      intro longer within longerRest
      exact absurd (within.length_le) (Nat.not_le_of_lt longerRest)
    | none =>
      rw [here] at found
      obtain ⟨rest, suffix, hit, sooner⟩ := ih found
      refine ⟨rest, suffix.trans (List.suffix_cons _ _), hit, ?_⟩
      intro longer within longerRest
      rcases List.suffix_cons_iff.mp within with rfl | shorter
      · exact here
      · exact sooner longer shorter longerRest

@[simp] theorem searchLiteral_nil (edges : Edges α) : edges.searchLiteral [] = .none := by
  cases edges <;> simp [searchLiteral]

theorem searchLiteral_cons (edges : Edges α) (c : Char) (rest : List Char) :
    edges.searchLiteral (c :: rest) = (edges.child? (.literal c)).bind (·.search rest) := by
  induction edges with
  | none => simp [searchLiteral, child?]
  | edge head value below others _ ih =>
    rw [searchLiteral, child?]
    by_cases here : head = .literal c
    · rw [if_pos here, if_pos here.symm]
      rfl
    · rw [if_neg here, if_neg (Ne.symm here), ih]

theorem searchStar_eq (edges : Edges α) (path : List Char) :
    edges.searchStar path = (edges.child? .star).bind fun place => (rests path).findSome? place.search := by
  induction edges with
  | none => simp [searchStar, child?]
  | edge head value below others _ ih =>
    rw [searchStar, child?]
    by_cases here : head = .star
    · rw [if_pos here, if_pos here.symm]
      rfl
    · rw [if_neg here, if_neg (Ne.symm here), ih]

end Edges

namespace Place

variable {α : Type}

def value? : Place α → List Symbol → Option α
  | place, [] => place.value
  | place, symbol :: rest => (place.edges.child? symbol).bind (value? · rest)

/-- A place has what the places below it have. -/
theorem induction {P : Place α → Prop}
    (step : ∀ place : Place α, (∀ symbol child, place.edges.child? symbol = some child → P child) → P place)
    (place : Place α) : P place := by
  suffices below : ∀ (edges : Edges α) symbol child, edges.child? symbol = some child → P child from
    step place (below place.edges)
  intro edges
  induction edges with
  | none => intro symbol child found; exact absurd found (by simp [Edges.child?])
  | edge head value below others ihBelow ihOthers =>
    intro symbol child found
    rw [Edges.child?] at found
    split at found
    · cases found
      exact step _ ihBelow
    · exact ihOthers symbol child found

/-- What a search should say of `path`: the value of the pattern that decides, or that none
matches. -/
def Answers (held : List Symbol → Option α) (path : List Char) : Option α → Prop
  | none => ∀ pattern, (held pattern).isSome → ¬ Matches pattern path
  | some value => ∃ pattern, held pattern = some value ∧ Decides pattern (fun other => (held other).isSome) path

section

variable {place : Place α} {path : List Char}
  (below : ∀ symbol child, place.edges.child? symbol = some child →
    ∀ path, Answers child.value? path (child.search path))

include below

/-- What is found behind a literal character decides, as its pattern has the longer literal start. -/
theorem answers_literal {value : α} (found : place.edges.searchLiteral path = some value) :
    Answers place.value? path (some value) := by
  cases path with
  | nil => exact absurd found (by simp)
  | cons c rest =>
    rw [Edges.searchLiteral_cons] at found
    obtain ⟨child, edge, hit⟩ := Option.bind_eq_some_iff.mp found
    have inner := below _ child edge rest
    rw [hit] at inner
    obtain ⟨pattern, atPattern, decides⟩ := inner
    refine ⟨.literal c :: pattern, by simpa [value?, edge] using atPattern, rest, rfl, ?_⟩
    simpa only [value?, edge, Option.bind_some] using decides

theorem no_literal_matches (failed : place.edges.searchLiteral path = none) {c : Char} {pattern : List Symbol}
    (member : (place.value? (.literal c :: pattern)).isSome) : ¬ Matches (.literal c :: pattern) path := by
  rintro ⟨rest, rfl, fits⟩
  rw [Edges.searchLiteral_cons] at failed
  cases edge : place.edges.child? (.literal c) with
  | none => simp [value?, edge] at member
  | some child =>
    have inner := below _ child edge rest
    rw [edge, Option.bind_some] at failed
    rw [failed] at inner
    exact inner pattern (by simpa [value?, edge] using member) fits

/-- Where only patterns with a star in front match, the search behind the star finds the one that decides. -/
theorem answers_star
    (starFirst : ∀ other, (place.value? other).isSome → Matches other path → ∃ tail, other = .star :: tail) :
    Answers place.value? path (place.edges.searchStar path) := by
  rw [Edges.searchStar_eq]
  cases edge : place.edges.child? .star with
  | none =>
    intro pattern member fits
    obtain ⟨tail, rfl⟩ := starFirst pattern member fits
    simp [value?, edge] at member
  | some child =>
    have held : ∀ tail, place.value? (.star :: tail) = child.value? tail := by simp [value?, edge]
    rw [Option.bind_some]
    cases found : (Edges.rests path).findSome? child.search with
    | none =>
      intro pattern member fits
      obtain ⟨tail, rfl⟩ := starFirst pattern member fits
      obtain ⟨rest, suffix, inner⟩ := fits
      have nothing := below _ child edge rest
      rw [List.findSome?_eq_none_iff.mp found rest (Edges.mem_rests.mpr suffix)] at nothing
      exact nothing tail (by rwa [held] at member) inner
    | some value =>
      obtain ⟨rest, suffix, hit, sooner⟩ := Edges.findSome?_rests found
      have inner := below _ child edge rest
      rw [hit] at inner
      obtain ⟨pattern, atPattern, decides⟩ := inner
      refine ⟨.star :: pattern, by rw [held, atPattern], starFirst, rest, suffix, ?_, ?_⟩
      · intro longer other within longerRest member
        have nothing := below _ child edge longer
        rw [sooner longer within longerRest] at nothing
        exact nothing other (by rwa [held] at member)
      · simpa only [held] using decides

end

/-- A search finds the value of the pattern that decides, and fails only if none matches. -/
theorem search_answers (place : Place α) (path : List Char) :
    Answers place.value? path (place.search path) := by
  induction place using Place.induction generalizing path with
  | step place below =>
    rw [search]
    cases literal : place.edges.searchLiteral path with
    | some value => exact answers_literal below literal
    | none =>
      rw [Option.none_or]
      have others : ∀ other, (place.value? other).isSome → Matches other path →
          (other = [] ∧ path = []) ∨ ∃ tail, other = .star :: tail := by
        intro other member fits
        cases other with
        | nil => exact Or.inl ⟨rfl, fits⟩
        | cons symbol tail =>
          cases symbol with
          | literal c => exact absurd fits (no_literal_matches below literal member)
          | star => exact Or.inr ⟨tail, rfl⟩
      cases ends : (if path = [] then place.value else none) with
      | some value =>
        rw [Option.some_or]
        split at ends
        · rename_i empty
          exact ⟨[], ends, empty, by simp [value?, ends]⟩
        · exact absurd ends (by simp)
      | none =>
        rw [Option.none_or]
        refine answers_star below fun other member fits => (others other member fits).resolve_left ?_
        rintro ⟨rfl, rfl⟩
        rw [value?, show place.value = none from ends] at member
        exact absurd member (by simp)

end Place

namespace Symbol

theorem before_or_before {a b : Symbol} (differs : a ≠ b) (notBefore : ¬ a.before b) : b.before a := by
  cases a with
  | star =>
    cases b with
    | star => exact absurd rfl differs
    | literal d => rfl
  | literal c =>
    cases b with
    | star => exact absurd rfl notBefore
    | literal d =>
      simp only [before, decide_eq_true_eq] at notBefore ⊢
      have other : c ≠ d := fun same => differs (congrArg _ same)
      exact Classical.byContradiction fun notAfter =>
        other (Char.le_antisymm (Char.not_lt.mp notAfter) (Char.not_lt.mp notBefore))

theorem before_trans {a b c : Symbol} (first : a.before b) (second : b.before c) : a.before c := by
  cases a <;> cases b <;> cases c <;> simp_all [before]
  exact Char.lt_trans first second

theorem not_before_self (a : Symbol) : ¬ a.before a := by
  cases a <;> simp [before]

theorem ofChar_injective : Function.Injective ofChar := by
  intro a b same
  unfold ofChar at same
  split at same <;> split at same <;> simp_all

theorem ofChar_of_ne {c : Char} (plain : c ≠ '*') : ofChar c = literal c := if_neg plain

theorem map_ofChar {text : List Char} (starless : '*' ∉ text) : text.map ofChar = text.map .literal := by
  refine List.map_congr_left fun c member => ?_
  exact ofChar_of_ne fun star => starless (star ▸ member)

end Symbol

namespace Edges

variable {α : Type}

/-- Edges leave a place in the order of their symbols, here and further down. -/
def Ascending : Edges α → Prop
  | none => True
  | edge symbol _ below others =>
    below.Ascending ∧ others.Ascending ∧ ∀ other, (others.child? other).isSome → symbol.before other

def value? (edges : Edges α) (symbol : Symbol) (rest : List Symbol) : Option α :=
  (edges.child? symbol).bind (·.value? rest)

theorem single_value? (pattern other : List Symbol) (value : α) :
    (single pattern value).value? other = if other = pattern then some value else .none := by
  induction pattern generalizing other with
  | nil => cases other <;> simp [single, Place.value?, child?]
  | cons symbol pattern ih =>
    cases other with
    | nil => simp [single, Place.value?]
    | cons head rest =>
      by_cases same : head = symbol
      · simp [single, Place.value?, child?, same, ih]
      · simp [single, Place.value?, child?, same]

theorem single_ascending (pattern : List Symbol) (value : α) : (single pattern value).edges.Ascending := by
  induction pattern with
  | nil => trivial
  | cons symbol pattern ih => exact ⟨ih, trivial, fun other there => absurd there (by simp [child?])⟩

theorem Ascending.child?_eq_none {symbol head : Symbol} {others : Edges α}
    (order : ∀ other, (others.child? other).isSome → head.before other) (first : symbol = head ∨ symbol.before head) :
    others.child? symbol = .none := by
  refine Option.not_isSome_iff_eq_none.mp fun there => ?_
  have after := order symbol there
  rcases first with rfl | before
  · exact Symbol.not_before_self _ after
  · exact Symbol.not_before_self _ (Symbol.before_trans before after)

/-- What is there after a pattern has been added, and when it cannot be. -/
structure Inserted (edges : Edges α) (symbol : Symbol) (pattern : List Symbol) (value : α)
    (result : Edges α) : Prop where
  fresh : edges.value? symbol pattern = .none
  ascending : result.Ascending
  /-- There are edges for the same symbols as before and for the first one of the pattern. -/
  edge_of : ∀ other, (result.child? other).isSome → other = symbol ∨ (edges.child? other).isSome
  value?_eq : ∀ other rest, result.value? other rest =
    if other = symbol ∧ rest = pattern then some value else edges.value? other rest

namespace Inserted

variable {below others result : Edges α} {head symbol : Symbol} {headValue : Option α}
  {pattern : List Symbol} {value : α}

/-- A pattern that only has the symbol of the first edge ends where that edge leads. -/
theorem at_head (ascending : (edge head .none below others).Ascending) :
    (edge head .none below others).Inserted head [] value (edge head (some value) below others) where
  fresh := by simp [value?, child?, Place.value?]
  ascending := ascending
  edge_of other there := by
    by_cases here : other = head
    · exact Or.inl here
    · exact Or.inr (by simpa [child?, here] using there)
  value?_eq other rest := by
    by_cases here : other = head
    · cases rest <;> simp [value?, child?, here, Place.value?]
    · simp [value?, child?, here]

/-- A longer pattern with the symbol of the first edge goes below it. -/
theorem below_head (ascending : (edge head headValue below others).Ascending)
    (inner : below.Inserted symbol pattern value result) :
    (edge head headValue below others).Inserted head (symbol :: pattern) value
      (edge head headValue result others) where
  fresh := by simpa [value?, child?, Place.value?] using inner.fresh
  ascending := ⟨inner.ascending, ascending.2⟩
  edge_of other there := by
    by_cases here : other = head
    · exact Or.inl here
    · exact Or.inr (by simpa [child?, here] using there)
  value?_eq other rest := by
    by_cases here : other = head
    · cases rest with
      | nil => simp [value?, child?, here, Place.value?]
      | cons first tail =>
        have step := inner.value?_eq first tail
        simpa [value?, child?, here, Place.value?] using step
    · simp [value?, child?, here]

/-- An edge for a symbol before the first one is new. -/
theorem in_front (ascending : (edge head headValue below others).Ascending) (before : symbol.before head) :
    (edge head headValue below others).Inserted symbol pattern value
      (edge symbol (single pattern value).value (single pattern value).edges
        (edge head headValue below others)) := by
  have differs : symbol ≠ head := fun same => Symbol.not_before_self _ (same ▸ before)
  have absent := Ascending.child?_eq_none ascending.2.2 (Or.inr before)
  refine ⟨by simp [value?, child?, differs, absent], ⟨single_ascending pattern value, ascending, ?_⟩, ?_, ?_⟩
  · intro other there
    by_cases here : other = head
    · exact here ▸ before
    · exact Symbol.before_trans before (ascending.2.2 other (by simpa [child?, here] using there))
  · intro other there
    by_cases here : other = symbol
    · exact Or.inl here
    · exact Or.inr (by simpa [child?, here] using there)
  · intro other rest
    by_cases here : other = symbol
    · simp [value?, child?, here, differs, absent, ← single_value?]
    · simp [value?, child?, here]

/-- Any other pattern goes behind the first edge. -/
theorem behind_head (ascending : (edge head headValue below others).Ascending) (differs : symbol ≠ head)
    (notBefore : ¬ symbol.before head) (inner : others.Inserted symbol pattern value result) :
    (edge head headValue below others).Inserted symbol pattern value (edge head headValue below result) where
  fresh := by simpa [value?, child?, differs] using inner.fresh
  ascending := by
    refine ⟨ascending.1, inner.ascending, fun other there => ?_⟩
    rcases inner.edge_of other there with rfl | old
    · exact Symbol.before_or_before differs notBefore
    · exact ascending.2.2 other old
  edge_of other there := by
    by_cases here : other = head
    · exact Or.inr (by simp [child?, here])
    · simpa [child?, here] using inner.edge_of other (by simpa [child?, here] using there)
  value?_eq other rest := by
    have step := inner.value?_eq other rest
    by_cases here : other = head
    · simp [value?, child?, here, Ne.symm differs]
    · simpa [value?, child?, here] using step

end Inserted

/-- A pattern that is inserted leads to its value, and others lead where they led before; one that is there already is
refused. -/
theorem insert_spec {edges : Edges α} (ascending : edges.Ascending) (symbol : Symbol)
    (pattern : List Symbol) (value : α) :
    match edges.insert symbol pattern value with
    | some result => edges.Inserted symbol pattern value result
    | .none => (edges.value? symbol pattern).isSome := by
  induction edges generalizing symbol pattern with
  | none =>
    refine ⟨rfl, ⟨single_ascending pattern value, trivial, fun other there => absurd there (by simp [child?])⟩, ?_, ?_⟩
    · intro other there
      by_cases same : other = symbol
      · exact Or.inl same
      · exact absurd there (by simp [child?, same])
    · intro other rest
      by_cases same : other = symbol <;> simp [value?, child?, same, ← single_value?]
  | edge head headValue below others ihBelow ihOthers =>
    unfold insert
    by_cases same : symbol = head
    · subst same
      rw [if_pos rfl]
      cases pattern with
      | nil =>
        cases headValue with
        | some old => simp [value?, child?, Place.value?]
        | none => exact Inserted.at_head ascending
      | cons next rest =>
        have inner := ihBelow ascending.1 next rest
        simp only
        cases inserted : below.insert next rest value with
        | none => simpa [inserted, value?, child?, Place.value?] using inner
        | some result =>
          rw [inserted] at inner
          exact inner.below_head ascending
    · rw [if_neg same]
      by_cases before : symbol.before head
      · rw [if_pos before]
        exact Inserted.in_front ascending before
      · rw [if_neg before]
        have inner := ihOthers ascending.2.1 symbol pattern
        cases inserted : others.insert symbol pattern value with
        | none => simpa [inserted, value?, child?, same] using inner
        | some result =>
          rw [inserted] at inner
          exact inner.behind_head ascending same before

end Edges

namespace Place

variable {α : Type}

/-- A pattern is added unless it is there, and nothing else changes. -/
theorem insert_spec {place : Place α} (ascending : place.edges.Ascending) (pattern : List Symbol) (value : α) :
    match place.insert pattern value with
    | some result => place.value? pattern = none ∧ result.edges.Ascending ∧
        ∀ other, result.value? other = if other = pattern then some value else place.value? other
    | none => (place.value? pattern).isSome := by
  cases pattern with
  | nil =>
    rw [insert]
    cases here : place.value with
    | some old => simp [value?, here]
    | none =>
      refine ⟨by simp [value?, here], ascending, fun other => ?_⟩
      cases other <;> simp [value?]
  | cons symbol rest =>
    have inner := Edges.insert_spec ascending symbol rest value
    rw [insert]
    cases inserted : place.edges.insert symbol rest value with
    | none => simpa [inserted, value?, Edges.value?] using inner
    | some edges =>
      rw [inserted] at inner
      refine ⟨by simpa [value?, Edges.value?] using inner.fresh, inner.ascending, fun other => ?_⟩
      cases other with
      | nil => simp [value?]
      | cons head tail => simpa [value?, Edges.value?] using inner.value?_eq head tail

end Place

namespace Matcher

variable {α : Type}

/-- What a matcher holds after patterns have been added to those it had. -/
theorem foldlM_insert {matcher : Matcher α} (ascending : matcher.top.edges.Ascending)
    {patterns : List (List Char × α)} (distinct : (patterns.map (·.1)).Nodup)
    (fresh : ∀ entry ∈ patterns, matcher.top.value? (entry.1.map .ofChar) = none) :
    ∃ result, patterns.foldlM (fun matcher (pattern, value) => matcher.insert pattern value) matcher = .ok result ∧
      result.size = matcher.size + patterns.length ∧ result.top.edges.Ascending ∧
      ∀ pattern value, result.top.value? pattern = some value ↔
        matcher.top.value? pattern = some value ∨
          ∃ text, (text, value) ∈ patterns ∧ pattern = text.map .ofChar := by
  induction patterns generalizing matcher with
  | nil => exact ⟨matcher, rfl, rfl, ascending, by simp⟩
  | cons entry rest ih =>
    obtain ⟨text, value⟩ := entry
    have absent := fresh _ List.mem_cons_self
    have added := Place.insert_spec ascending (text.map .ofChar) value
    obtain ⟨notIn, distinctRest⟩ := List.nodup_cons.mp distinct
    cases inserted : matcher.top.insert (text.map .ofChar) value with
    | none => rw [inserted, absent] at added; exact absurd added (by simp)
    | some top =>
      rw [inserted] at added
      obtain ⟨_, ascendingTop, atTop⟩ := added
      have step : matcher.insert text value = .ok { top, size := matcher.size + 1 } := by
        simp [Matcher.insert, inserted]
      obtain ⟨result, run, size, ascendingResult, atResult⟩ :=
        @ih { top, size := matcher.size + 1 } ascendingTop distinctRest (by
          intro other member
          rw [atTop, if_neg, fresh other (List.mem_cons_of_mem _ member)]
          intro same
          have equal := (List.map_inj_right fun _ _ => @Symbol.ofChar_injective _ _).mp same
          exact notIn (List.mem_map.mpr ⟨other, member, equal⟩))
      refine ⟨result, ?_, ?_, ascendingResult, ?_⟩
      · rw [List.foldlM_cons]
        simp only [step]
        exact run
      · rw [size, List.length_cons]
        exact Nat.add_right_comm ..
      · intro pattern found
        rw [atResult, atTop]
        by_cases same : pattern = text.map .ofChar
        · subst same
          rw [if_pos rfl, absent]
          constructor
          · rintro (new | ⟨other, member, equal⟩)
            · exact Or.inr ⟨text, Option.some.inj new ▸ List.mem_cons_self, rfl⟩
            · exact Or.inr ⟨other, List.mem_cons_of_mem _ member, equal⟩
          · rintro (old | ⟨other, member, equal⟩)
            · exact absurd old (by simp)
            · rcases List.mem_cons.mp member with new | old
              · exact Or.inl (congrArg some (Prod.mk.inj new).2.symm)
              · exact Or.inr ⟨other, old, equal⟩
        · rw [if_neg same]
          refine or_congr Iff.rfl ⟨?_, ?_⟩
          · rintro ⟨other, member, equal⟩
            exact ⟨other, List.mem_cons_of_mem _ member, equal⟩
          · rintro ⟨other, member, equal⟩
            rcases List.mem_cons.mp member with new | old
            · exact absurd (equal.trans (by rw [(Prod.mk.inj new).1])) same
            · exact ⟨other, old, equal⟩

/-- A matcher with these patterns: it counts them, the edges of all its places are in the order of their symbols, and
the patterns lead to their values, which are all there are. -/
structure Holds (matcher : Matcher α) (patterns : List (List Char × α)) : Prop where
  size_eq : matcher.size = patterns.length
  ascending : matcher.top.edges.Ascending
  value?_iff : ∀ address value, matcher.top.value? address = some value ↔
    ∃ text, (text, value) ∈ patterns ∧ address = text.map .ofChar

/-- Distinct patterns can be compiled, and the matcher holds exactly them. -/
theorem compile_holds {patterns : List (List Char × α)} (distinct : (patterns.map (·.1)).Nodup) :
    ∃ matcher, compile patterns = .ok matcher ∧ matcher.Holds patterns := by
  have nothing : ∀ pattern, (Place.empty : Place α).value? pattern = none := by
    intro pattern
    cases pattern <;> rfl
  obtain ⟨matcher, run, size, ascending, held⟩ :=
    @foldlM_insert α {} trivial patterns distinct fun entry _ => nothing _
  refine ⟨matcher, run, by simpa using size, ascending, fun pattern value => ?_⟩
  rw [held, nothing]
  simp

/-- Patterns that can all be inserted are distinct. -/
theorem foldlM_distinct {matcher result : Matcher α} (ascending : matcher.top.edges.Ascending)
    {patterns : List (List Char × α)}
    (ran : patterns.foldlM (fun matcher (pattern, value) => matcher.insert pattern value) matcher = .ok result) :
    (patterns.map (·.1)).Nodup ∧ ∀ entry ∈ patterns, matcher.top.value? (entry.1.map .ofChar) = none := by
  induction patterns generalizing matcher with
  | nil => exact ⟨.nil, by simp⟩
  | cons entry rest ih =>
    obtain ⟨text, value⟩ := entry
    have added := Place.insert_spec ascending (text.map .ofChar) value
    rw [List.foldlM_cons] at ran
    cases inserted : matcher.top.insert (text.map .ofChar) value with
    | none =>
      simp only [Matcher.insert, inserted] at ran
      exact nomatch ran
    | some top =>
      rw [inserted] at added
      obtain ⟨absent, ascendingTop, atTop⟩ := added
      simp only [Matcher.insert, inserted] at ran
      obtain ⟨distinct, fresh⟩ := ih ascendingTop ran
      have apart : ∀ entry ∈ rest, entry.1.map Symbol.ofChar ≠ text.map .ofChar := fun entry member same => by
        have missing := fresh entry member
        rw [atTop, if_pos same] at missing
        exact nomatch missing
      refine ⟨List.nodup_cons.mpr ⟨fun member => ?_, distinct⟩,
        List.forall_mem_cons.mpr ⟨absent, fun entry member => ?_⟩⟩
      · obtain ⟨entry, listed, same⟩ := List.mem_map.mp member
        exact apart entry listed (congrArg _ same)
      · have missing := fresh entry member
        rwa [atTop, if_neg (apart entry member)] at missing

/-- Only distinct patterns can be compiled. -/
theorem distinct_of_compile {patterns : List (List Char × α)} {matcher : Matcher α}
    (compiled : compile patterns = .ok matcher) : (patterns.map (·.1)).Nodup :=
  (@foldlM_distinct α {} _ trivial patterns compiled).1

end Matcher
end BackupAtlas
