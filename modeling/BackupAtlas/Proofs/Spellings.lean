import BackupAtlas.Proofs.Encodings
import BackupAtlas.Proofs.Matching

namespace BackupAtlas

namespace Utf8

/-- The character with the number of a byte. -/
def byteChar (b : UInt8) : Char := Char.ofNat b.toNat

/-- The bytes of a character as characters of their own. -/
def letters (c : Char) : List Char := (encodeChar c).map byteChar

/-- Text in bytes, each a character of its own. -/
def spell (text : List Char) : List Char := text.flatMap letters

theorem byteChar_toNat (b : UInt8) : (byteChar b).toNat = b.toNat := by
  have small : b.toNat < 256 := b.toNat_lt
  rw [byteChar, Char.ofNat, dif_pos (Or.inl (by omega))]
  exact UInt32.toNat_ofNatLT ..

theorem byteChar_injective : Function.Injective byteChar := by
  intro a b same
  rw [← UInt8.toNat_inj, ← byteChar_toNat, ← byteChar_toNat, same]

/-- Only the first byte of a character starts one. -/
theorem encodeChar_parts (c : Char) :
    ∃ first rest, encodeChar c = first :: rest ∧ ¬ isTail first ∧ ∀ b ∈ rest, isTail b := by
  have most : c.toNat < 0xD800 ∨ 0xDFFF < c.toNat ∧ c.toNat < 0x110000 := c.valid
  rw [encodeChar]
  generalize c.toNat = n at most
  have tail : ∀ m, isTail (0x80 + m % 0x40).toUInt8 := fun m => isTail_toUInt8 (Nat.mod_lt m (by omega))
  have starts : ∀ m, m < 0x80 ∨ 0xC0 ≤ m → m < 256 → ¬ isTail m.toUInt8 := fun m range small => by
    rw [isTail_iff, toNat_toUInt8 small]
    omega
  split
  · exact ⟨_, [], rfl, starts _ (by omega) (by omega), by simp⟩
  · split
    · exact ⟨_, _, rfl, starts _ (by omega) (by omega), List.forall_mem_singleton.mpr (tail _)⟩
    · split
      · exact ⟨_, _, rfl, starts _ (by omega) (by omega),
          List.forall_mem_cons.mpr ⟨tail _, List.forall_mem_singleton.mpr (tail _)⟩⟩
      · exact ⟨_, _, rfl, starts _ (by omega) (by omega),
          List.forall_mem_cons.mpr ⟨tail _, List.forall_mem_cons.mpr ⟨tail _, List.forall_mem_singleton.mpr (tail _)⟩⟩⟩

/-- The bytes of a character do not start those of another one. -/
theorem eq_of_encodeChar_starts {c d : Char} (starts : encodeChar c <+: encodeChar d) : c = d := by
  obtain ⟨rest, same⟩ := starts
  obtain ⟨next, whole⟩ := decodeFrom_encodeChar 0 d []
  obtain ⟨later, parts⟩ := decodeFrom_encodeChar 0 c rest
  rw [List.append_nil, ← same, parts] at whole
  cases behind : decodeFrom later rest with
  | error fault => simp [behind, decodeFrom, Except.map] at whole
  | ok text =>
    simp only [behind, decodeFrom, Except.map, Except.ok.injEq, List.cons.injEq] at whole
    exact whole.1

section

variable {β : Type} {f : UInt8 → β} {c d : Char} {first second : List β}

theorem eq_of_map_encodeChar (injective : Function.Injective f)
    (same : (encodeChar d).map f = (encodeChar c).map f ++ first) : c = d := by
  obtain ⟨front, rest, split, equal, _⟩ := List.map_eq_append_iff.mp same
  rw [List.map_inj_right fun _ _ => @injective _ _] at equal
  subst equal
  exact eq_of_encodeChar_starts ⟨rest, split.symm⟩

/-- In front of anything, a character can be told by its bytes. -/
theorem map_encodeChar_append_inj (injective : Function.Injective f)
    (same : (encodeChar c).map f ++ first = (encodeChar d).map f ++ second) : c = d ∧ first = second := by
  have equal : c = d := by
    rcases List.append_eq_append_iff.mp same with ⟨rest, split, _⟩ | ⟨rest, split, _⟩
    · exact eq_of_map_encodeChar injective split
    · exact (eq_of_map_encodeChar injective split).symm
  subst equal
  exact ⟨rfl, List.append_cancel_left same⟩

end

theorem letters_ne_nil (c : Char) : letters c ≠ [] := by
  obtain ⟨first, rest, parts, _⟩ := encodeChar_parts c
  simp [letters, parts]

theorem spell_cons (c : Char) (text : List Char) : spell (c :: text) = letters c ++ spell text := List.flatMap_cons

theorem spell_suffix {text other : List Char} (suffix : text <:+ other) : spell text <:+ spell other := by
  obtain ⟨front, rfl⟩ := suffix
  exact ⟨spell front, List.flatMap_append.symm⟩

theorem length_le_spell (text : List Char) : text.length ≤ (spell text).length := by
  induction text with
  | nil => exact Nat.le_refl 0
  | cons c text ih =>
    have some := List.length_pos_iff.mpr (letters_ne_nil c)
    rw [spell_cons, List.length_append, List.length_cons]
    omega

/-- A text cannot be longer than another one and yet have its bytes at the end of those of the other. -/
theorem eq_of_spell_suffix {text other : List Char} (within : text <:+ other) (suffix : spell other <:+ spell text) :
    text = other := by
  obtain ⟨front, rfl⟩ := within
  have length := suffix.length_le
  have some := length_le_spell front
  rw [spell, List.flatMap_append, List.length_append] at length
  have none : front.length = 0 := by
    unfold spell at some length
    omega
  rw [List.length_eq_zero_iff.mp none, List.nil_append]

theorem spell_injective : Function.Injective spell := by
  intro text other same
  induction text generalizing other with
  | nil =>
    cases other with
    | nil => rfl
    | cons d other => exact absurd (List.append_eq_nil_iff.mp same.symm).1 (letters_ne_nil d)
  | cons c text ih =>
    cases other with
    | nil => exact absurd (List.append_eq_nil_iff.mp same).1 (letters_ne_nil c)
    | cons d other =>
      obtain ⟨rfl, rest⟩ := map_encodeChar_append_inj byteChar_injective same
      rw [ih rest]

/-- Where the bytes of a character stand within those of a text, the text has that character. -/
theorem behind_letters {text rest : List Char} {c : Char} (within : letters c ++ rest <:+ spell text) :
    ∃ behind, c :: behind <:+ text ∧ rest = spell behind := by
  induction text with
  | nil => exact absurd (List.append_eq_nil_iff.mp (List.suffix_nil.mp within)).1 (letters_ne_nil c)
  | cons d text ih =>
    have later : letters c ++ rest <:+ spell text → ∃ behind, c :: behind <:+ d :: text ∧ rest = spell behind := by
      intro inside
      obtain ⟨behind, suffix, same⟩ := ih inside
      exact ⟨behind, suffix.trans (List.suffix_cons d text), same⟩
    obtain ⟨front, same⟩ := within
    rw [spell_cons] at same
    rcases List.append_eq_append_iff.mp same with ⟨end', split, equal⟩ | ⟨more, _, equal⟩
    · cases front with
      | nil =>
        rw [List.nil_append] at split
        subst split
        obtain ⟨rfl, rfl⟩ := map_encodeChar_append_inj byteChar_injective equal
        exact ⟨text, List.suffix_refl _, rfl⟩
      | cons lead front =>
        cases end' with
        | nil => exact later (equal ▸ List.suffix_refl _)
        | cons x end' =>
          -- The character would have to start with a byte that continues another one.
          obtain ⟨first, rest', parts, starts, _⟩ := encodeChar_parts c
          obtain ⟨first', tails, parts', _, continues⟩ := encodeChar_parts d
          rw [letters, parts, List.map_cons, List.cons_append, List.cons_append] at equal
          rw [letters, parts', List.map_cons, List.cons_append] at split
          have member : x ∈ tails.map byteChar := by
            rw [(List.cons.inj split).2]
            simp
          obtain ⟨b, listed, rfl⟩ := List.mem_map.mp member
          rw [← byteChar_injective (List.cons.inj equal).1] at listed
          exact absurd (continues _ listed) starts
    · exact later ⟨more, equal.symm⟩

theorem star_not_mem_letters {c : Char} (plain : c ≠ '*') : '*' ∉ letters c := by
  intro member
  obtain ⟨b, listed, same⟩ := List.mem_map.mp member
  have star : b = 42 := byteChar_injective same
  obtain ⟨first, rest, parts, _, continues⟩ := encodeChar_parts c
  rw [parts, List.mem_cons, star] at listed
  rcases listed with rfl | inside
  · have starts : encodeChar '*' <+: encodeChar c := ⟨rest, parts.symm⟩
    exact plain (eq_of_encodeChar_starts starts).symm
  · exact absurd (continues _ inside) (by decide)

end Utf8

open Utf8

/-- A symbol of a pattern in bytes. -/
def Symbol.spell : Symbol → List Symbol
  | literal c => (letters c).map literal
  | star => [star]

/-- Only stars are spelled with a star, in text as in patterns. -/
theorem map_ofChar_spell (text : List Char) :
    (Utf8.spell text).map Symbol.ofChar = (text.map Symbol.ofChar).flatMap Symbol.spell := by
  induction text with
  | nil => rfl
  | cons c text ih =>
    rw [spell_cons, List.map_append, ih, List.map_cons, List.flatMap_cons]
    by_cases star : c = '*'
    · subst star
      rfl
    · rw [Symbol.map_ofChar (star_not_mem_letters star), Symbol.ofChar_of_ne star, Symbol.spell]

section

variable {pattern : List Symbol} {path : List Char}

theorem literal_spelled {c : Char} {tail : List Symbol}
    (same : (letters c).map .literal ++ tail = pattern.flatMap Symbol.spell) :
    ∃ rest, pattern = .literal c :: rest ∧ tail = rest.flatMap Symbol.spell := by
  obtain ⟨first, more, parts, _⟩ := encodeChar_parts c
  cases pattern with
  | nil => simp [letters, parts] at same
  | cons symbol rest =>
    cases symbol with
    | star => simp [letters, parts, Symbol.spell] at same
    | literal d =>
      have injective : Function.Injective (Symbol.literal ∘ byteChar) := fun a b equal =>
        byteChar_injective (Symbol.literal.inj equal)
      rw [List.flatMap_cons, Symbol.spell, letters, letters, List.map_map, List.map_map] at same
      obtain ⟨rfl, equal⟩ := map_encodeChar_append_inj injective same
      exact ⟨rest, rfl, equal⟩

theorem star_spelled {tail : List Symbol} (same : .star :: tail = pattern.flatMap Symbol.spell) :
    ∃ rest, pattern = .star :: rest ∧ tail = rest.flatMap Symbol.spell := by
  cases pattern with
  | nil => cases same
  | cons symbol rest =>
    cases symbol with
    | star => exact ⟨rest, rfl, (List.cons.inj same).2⟩
    | literal c =>
      obtain ⟨first, more, parts, _⟩ := encodeChar_parts c
      simp [letters, parts, Symbol.spell] at same

/-- What a pattern in bytes matches at the end of a path in bytes reaches back to where a character of the path starts,
or the pattern starts with a star, which can take as much as there is. -/
theorem Matches.of_spelled {rest : List Char} (within : rest <:+ Utf8.spell path)
    (fits : Matches (pattern.flatMap Symbol.spell) rest) :
    ∃ behind, behind <:+ path ∧ rest <:+ Utf8.spell behind ∧ Matches pattern behind := by
  induction pattern generalizing path rest with
  | nil =>
    obtain rfl : rest = [] := fits
    exact ⟨[], List.nil_suffix, List.suffix_refl _, rfl⟩
  | cons symbol pattern ih =>
    rw [List.flatMap_cons] at fits
    cases symbol with
    | literal c =>
      rw [Symbol.spell, matches_literals_append] at fits
      obtain ⟨later, rfl, fits⟩ := fits
      obtain ⟨behind, suffix, rfl⟩ := behind_letters within
      obtain ⟨reached, inside, covers, matched⟩ := ih (List.suffix_refl _) fits
      rw [eq_of_spell_suffix inside covers] at matched
      exact ⟨c :: behind, suffix, ⟨[], (spell_cons c behind).symm⟩, behind, rfl, matched⟩
    | star =>
      obtain ⟨later, suffix, fits⟩ := fits
      obtain ⟨behind, inside, _, fits⟩ := ih (suffix.trans within) fits
      exact ⟨path, List.suffix_refl _, within, behind, inside, fits⟩

theorem Matches.of_spelled_path (fits : Matches (pattern.flatMap Symbol.spell) (Utf8.spell path)) :
    Matches pattern path := by
  obtain ⟨behind, inside, covers, fits⟩ := fits.of_spelled (List.suffix_refl _)
  rwa [eq_of_spell_suffix inside covers] at fits

/-- Patterns in bytes. -/
def Spelled (held : List Symbol → Prop) (pattern : List Symbol) : Prop :=
  ∃ plain, held plain ∧ pattern = plain.flatMap Symbol.spell

variable {held : List Symbol → Prop}

theorem spelled_literal (c : Char) : (fun tail => Spelled held ((letters c).map .literal ++ tail)) =
    Spelled fun tail => held (.literal c :: tail) := by
  funext tail
  refine propext ⟨?_, ?_⟩
  · rintro ⟨plain, member, same⟩
    obtain ⟨rest, rfl, equal⟩ := literal_spelled same
    exact ⟨rest, member, equal⟩
  · rintro ⟨rest, member, rfl⟩
    exact ⟨_, member, rfl⟩

theorem spelled_star : (fun tail => Spelled held (.star :: tail)) = Spelled fun tail => held (.star :: tail) := by
  funext tail
  refine propext ⟨?_, ?_⟩
  · rintro ⟨plain, member, same⟩
    obtain ⟨rest, rfl, equal⟩ := star_spelled same
    exact ⟨rest, member, equal⟩
  · rintro ⟨rest, member, rfl⟩
    exact ⟨_, member, rfl⟩

/-- In bytes the same pattern decides. -/
theorem Decides.spelled (decides : Decides pattern held path) :
    Decides (pattern.flatMap Symbol.spell) (Spelled held) (Utf8.spell path) := by
  induction pattern generalizing held path with
  | nil =>
    obtain ⟨rfl, member⟩ := decides
    exact ⟨rfl, [], member, rfl⟩
  | cons symbol pattern ih =>
    rw [List.flatMap_cons]
    cases symbol with
    | literal c =>
      obtain ⟨rest, rfl, inner⟩ := decides
      rw [Symbol.spell, decides_literals_append]
      refine ⟨Utf8.spell rest, spell_cons c rest, ?_⟩
      rw [spelled_literal]
      exact ih inner
    | star =>
      obtain ⟨starFirst, rest, suffix, sooner, inner⟩ := decides
      refine ⟨?_, Utf8.spell rest, spell_suffix suffix, ?_, ?_⟩
      · rintro other ⟨plain, member, rfl⟩ fits
        obtain ⟨tail, rfl⟩ := starFirst plain member fits.of_spelled_path
        exact ⟨_, rfl⟩
      · rintro longer other within longerRest ⟨plain, member, same⟩ fits
        obtain ⟨tail, rfl, rfl⟩ := star_spelled same
        obtain ⟨behind, inside, covers, fits⟩ := fits.of_spelled within
        refine sooner behind tail inside ?_ member fits
        refine Nat.lt_of_not_le fun shorter => ?_
        have least := (spell_suffix (List.suffix_of_suffix_length_le inside suffix shorter)).length_le
        exact Nat.not_lt.mpr (Nat.le_trans covers.length_le least) longerRest
      · change Decides (pattern.flatMap Symbol.spell) (fun tail => Spelled held (.star :: tail)) (Utf8.spell rest)
        rw [spelled_star]
        exact ih inner

end

end BackupAtlas
