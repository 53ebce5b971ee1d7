import Mathlib.Algebra.Group.Nat.Defs
import Mathlib.Data.Nat.Bitwise
import BackupAtlas.Utf8

namespace BackupAtlas

theorem toNat_toUInt8 {n : Nat} (small : n < 256) : n.toUInt8.toNat = n := by
  simp only [Nat.toUInt8, UInt8.toNat_ofNat']
  omega

theorem map_eq_ok_iff {ε α β : Type} {read : Except ε α} {f : α → β} {b : β} :
    read.map f = .ok b ↔ ∃ a, read = .ok a ∧ f a = b := by
  cases read with
  | error fault => exact ⟨nofun, nofun⟩
  | ok a => exact ⟨fun same => ⟨a, rfl, Except.ok.inj same⟩, fun ⟨_, same, value⟩ => by cases same; exact congrArg _ value⟩

namespace Varint

theorem length_encode_pos (n : Nat) : 0 < (encode n).length := by
  rw [encode]
  split <;> simp

/-- A number below a power of 128 takes no more bytes than the exponent. -/
theorem length_encode_le (digits : Nat) {n : Nat} (small : n < 128 ^ (digits + 1)) :
    (encode n).length ≤ digits + 1 := by
  induction digits generalizing n with
  | zero => rw [encode, if_pos (by simpa using small)]; simp
  | succ digits ih =>
    rw [encode]
    split
    · simp
    · have := @ih (n / 128) (by rw [Nat.div_lt_iff_lt_mul (by decide)]; exact small)
      simp only [List.length_cons]
      omega

/-- The last of the bytes that are allowed holds one bit. -/
theorem decodeWithin_encode (digits : Nat) {n : Nat} (fits : n < 2 * 128 ^ digits) (rest : Bytes) :
    decodeWithin (digits + 1) (encode n ++ rest) = .ok (n, rest) := by
  induction digits generalizing n with
  | zero =>
    have small : n < 2 := by simpa using fits
    rw [encode, if_pos (by omega), List.singleton_append, decodeWithin, toNat_toUInt8 (by omega),
      if_neg (by omega), if_pos (by omega)]
  | succ digits ih =>
    rw [encode]
    split
    · rename_i small
      rw [List.singleton_append, decodeWithin, toNat_toUInt8 (by omega), if_neg (by omega), if_pos small]
    · have high : n / 128 < 2 * 128 ^ digits := by
        rw [Nat.div_lt_iff_lt_mul (by decide)]
        omega
      rw [List.cons_append, decodeWithin, toNat_toUInt8 (by omega), if_neg (by omega), if_neg (by omega), ih high]
      simp only [Except.map]
      congr 2
      omega

theorem and_lowBits (b : UInt8) : (b &&& 0x7f).toNat = b.toNat % 128 := by
  rw [UInt8.toNat_and]
  exact Nat.and_two_pow_sub_one_eq_mod b.toNat 7

theorem and_topBit_eq_zero (b : UInt8) : b &&& 0x80 = 0 ↔ b.toNat < 128 := by
  have bit : (b &&& 0x80).toNat = (b.toNat.testBit 7).toNat * 2 ^ 7 := by
    rw [UInt8.toNat_and]
    exact Nat.and_two_pow b.toNat 7
  have bound := b.toNat_lt
  rw [← UInt8.toNat_inj, bit, Nat.testBit_eq_decide_div_mod_eq]
  by_cases top : b.toNat / 2 ^ 7 % 2 = 1
  · rw [decide_eq_true top]
    exact iff_of_false (by decide) (by omega)
  · rw [decide_eq_false top]
    exact iff_of_true rfl (by omega)

/-- A digit that is put above the bits that are set is added, unless it is too large for what is left of the word. -/
theorem toNat_or_shiftLeft {word digit shift : UInt64} (inside : shift.toNat < 64) (below : word.toNat < 2 ^ shift.toNat)
    (fits : digit.toNat * 2 ^ shift.toNat < 2 ^ 64) :
    (word ||| digit <<< shift).toNat = word.toNat + digit.toNat * 2 ^ shift.toNat := by
  rw [UInt64.toNat_or, UInt64.toNat_shiftLeft, Nat.mod_eq_of_lt inside, Nat.shiftLeft_eq, Nat.mod_eq_of_lt fits,
    Nat.or_comm, Nat.mul_comm, ← Nat.two_pow_add_eq_or_of_lt below, Nat.add_comm]

/-- A word takes in all digits. With `digits` of them still to come, the bits from `7 * (10 - digits)` on are free. -/
theorem decodeWord_eq {digits : Nat} (few : digits ≤ 10) {shift word : UInt64} (place : shift.toNat = 7 * (10 - digits))
    (free : word.toNat < 2 ^ shift.toNat) (bytes : Bytes) :
    (decodeWord digits shift word bytes).map (fun (word, rest) => (word.toNat, rest)) =
      (decodeWithin digits bytes).map fun (high, rest) => (word.toNat + high * 2 ^ shift.toNat, rest) := by
  induction digits generalizing shift word bytes with
  | zero => rfl
  | succ digits ih =>
    cases bytes with
    | nil => rfl
    | cons b rest =>
      have digit : (b &&& 0x7f).toUInt64.toNat = b.toNat % 128 := by rw [UInt8.toNat_toUInt64, and_lowBits]
      have one : 1 < b ↔ 1 < b.toNat := UInt8.lt_iff_toNat_lt
      rw [decodeWord, decodeWithin]
      simp only [one, and_topBit_eq_zero]
      by_cases large : digits = 0 ∧ 1 < b.toNat
      · rw [if_pos large, if_pos large]
        rfl
      · rw [if_neg large, if_neg large]
        -- the last digit is one bit, and all others lie below the bit 63
        have room : b.toNat % 128 * 2 ^ shift.toNat < 2 ^ 64 ∧ (0 < digits → shift.toNat + 7 < 64) := by
          rcases Nat.eq_zero_or_pos digits with rfl | more
          · have bit : b.toNat % 128 ≤ 1 := by omega
            rw [place]
            exact ⟨Nat.lt_of_le_of_lt (Nat.mul_le_mul_right _ bit) (by decide), nofun⟩
          · have low : shift.toNat ≤ 56 := by omega
            refine ⟨?_, fun _ => by omega⟩
            calc b.toNat % 128 * 2 ^ shift.toNat
                < 2 ^ 7 * 2 ^ shift.toNat := Nat.mul_lt_mul_of_pos_right (Nat.mod_lt _ (by decide)) (Nat.two_pow_pos _)
              _ ≤ 2 ^ 7 * 2 ^ 56 := Nat.mul_le_mul_left _ (Nat.pow_le_pow_right (by decide) low)
              _ < 2 ^ 64 := by decide
        have put := toNat_or_shiftLeft (by omega) free (digit ▸ room.1)
        rw [digit] at put
        by_cases last : b.toNat < 128
        · rw [if_pos last, if_pos last]
          simp only [Except.map, put, Nat.mod_eq_of_lt last]
        · rw [if_neg last, if_neg last]
          have more : 0 < digits := by omega
          have next : (shift + 7).toNat = shift.toNat + 7 := by
            rw [UInt64.toNat_add]
            exact Nat.mod_eq_of_lt (Nat.lt_trans (room.2 more) (by decide))
          have free := calc
            (word ||| (b &&& 0x7f).toUInt64 <<< shift).toNat = word.toNat + b.toNat % 128 * 2 ^ shift.toNat := put
            _ < (b.toNat % 128 + 1) * 2 ^ shift.toNat := by rw [Nat.add_mul, Nat.one_mul]; omega
            _ ≤ 2 ^ 7 * 2 ^ shift.toNat := Nat.mul_le_mul_right _ (Nat.mod_lt _ (by decide))
            _ = 2 ^ (shift + 7).toNat := by rw [next, ← Nat.pow_add, Nat.add_comm]
          rw [ih (by omega) (by omega) free rest]
          cases decodeWithin digits rest with
          | error fault => rfl
          | ok read =>
            have sum : word.toNat + b.toNat % 128 * 2 ^ shift.toNat + read.1 * 2 ^ (shift.toNat + 7) =
                word.toNat + (b.toNat % 128 + 128 * read.1) * 2 ^ shift.toNat := by
              rw [Nat.pow_add]
              grind
            simp only [Except.map, put, next, sum]

/-- The loop on words reads what the digits say. -/
theorem decode_eq (bytes : Bytes) : decode bytes = decodeWithin 10 bytes := by
  rw [decode, decodeWord_eq (Nat.le_refl _) rfl (by decide)]
  cases decodeWithin 10 bytes with
  | error fault => rfl
  | ok read => exact congrArg Except.ok (Prod.ext (by simp) rfl)

theorem decode_encode {n : Nat} (fits : n < 2 ^ 64) (rest : Bytes) : decode (encode n ++ rest) = .ok (n, rest) := by
  rw [decode_eq, decodeWithin_encode 9 fits rest]

end Varint

namespace Utf8

theorem lt_toUInt8 {n : Nat} (small : n < 256) (b : UInt8) : (n.toUInt8 < b) = (n < b.toNat) := by
  rw [UInt8.lt_iff_toNat_lt, toNat_toUInt8 small]

theorem toUInt8_eq {n : Nat} (small : n < 256) (b : UInt8) : (n.toUInt8 = b) = (n = b.toNat) := by
  rw [← UInt8.toNat_inj, toNat_toUInt8 small]

theorem isTail_iff {b : UInt8} : isTail b ↔ 0x80 ≤ b.toNat ∧ b.toNat ≤ 0xBF := by
  rw [isTail, Bool.and_eq_true, decide_eq_true_eq, decide_eq_true_eq, UInt8.le_iff_toNat_le, UInt8.le_iff_toNat_le]
  rfl

theorem isTail_toUInt8 {n : Nat} (small : n < 0x40) : isTail (0x80 + n).toUInt8 := by
  rw [isTail_iff, toNat_toUInt8 (by omega)]
  omega

theorem tailBits_toUInt8 {n : Nat} (small : n < 0x40) : tailBits (0x80 + n).toUInt8 = n := by
  have value := toNat_toUInt8 (show 0x80 + n < 256 by omega)
  unfold tailBits
  omega

theorem secondOfThree_toUInt8 {first n : Nat} (low : first < 0x10) (small : n < 0x40)
    (shortest : first = 0 → 0x20 ≤ n) (plane : first = 0xD → n < 0x20) :
    secondOfThree (0xE0 + first).toUInt8 (0x80 + n).toUInt8 := by
  rw [secondOfThree]
  simp only [toUInt8_eq (show 0xE0 + first < 256 by omega)]
  have zero : (0xE0 : UInt8).toNat = 0xE0 := rfl
  have surrogates : (0xED : UInt8).toNat = 0xED := rfl
  split
  · simp only [Bool.and_eq_true, decide_eq_true_eq, UInt8.le_iff_toNat_le, toNat_toUInt8 (show 0x80 + n < 256 by omega)]
    have : (0xA0 : UInt8).toNat = 0xA0 := rfl
    have : (0xBF : UInt8).toNat = 0xBF := rfl
    omega
  · split
    · simp only [Bool.and_eq_true, decide_eq_true_eq, UInt8.le_iff_toNat_le, toNat_toUInt8
        (show 0x80 + n < 256 by omega)]
      have : (0x80 : UInt8).toNat = 0x80 := rfl
      have : (0x9F : UInt8).toNat = 0x9F := rfl
      omega
    · exact isTail_toUInt8 small

theorem secondOfFour_toUInt8 {first n : Nat} (low : first < 5) (small : n < 0x40)
    (shortest : first = 0 → 0x10 ≤ n) (last : first = 4 → n < 0x10) :
    secondOfFour (0xF0 + first).toUInt8 (0x80 + n).toUInt8 := by
  rw [secondOfFour]
  simp only [toUInt8_eq (show 0xF0 + first < 256 by omega)]
  have zero : (0xF0 : UInt8).toNat = 0xF0 := rfl
  have surrogates : (0xF4 : UInt8).toNat = 0xF4 := rfl
  split
  · simp only [Bool.and_eq_true, decide_eq_true_eq, UInt8.le_iff_toNat_le, toNat_toUInt8 (show 0x80 + n < 256 by omega)]
    have : (0x90 : UInt8).toNat = 0x90 := rfl
    have : (0xBF : UInt8).toNat = 0xBF := rfl
    omega
  · split
    · simp only [Bool.and_eq_true, decide_eq_true_eq, UInt8.le_iff_toNat_le, toNat_toUInt8
        (show 0x80 + n < 256 by omega)]
      have : (0x80 : UInt8).toNat = 0x80 := rfl
      have : (0x8F : UInt8).toNat = 0x8F := rfl
      omega
    · exact isTail_toUInt8 small

section decoding

variable (index : Nat) {a b c d : UInt8} (rest : Bytes)

theorem decodeFrom_one (first : a < 0x80) :
    decodeFrom index (a :: rest) = (decodeFrom (index + 1) rest).map (Char.ofNat a.toNat :: ·) := by
  rw [decodeFrom.eq_def]
  exact if_pos first

theorem decodeFrom_two (above : ¬ a < 0xC2) (first : a < 0xE0) (second : isTail b) :
    decodeFrom index (a :: b :: rest) =
      (decodeFrom (index + 2) rest).map (Char.ofNat ((a.toNat - 0xC0) * 0x40 + tailBits b) :: ·) := by
  have high : ¬ a < 0x80 := fun less => above (UInt8.lt_trans less (by decide))
  rw [decodeFrom.eq_def]
  simp only [high, above, first, second, if_true, if_false]

theorem decodeFrom_three (above : ¬ a < 0xE0) (first : a < 0xF0) (second : secondOfThree a b) (third : isTail c) :
    decodeFrom index (a :: b :: c :: rest) = (decodeFrom (index + 3) rest).map
      (Char.ofNat ((a.toNat - 0xE0) * 0x1000 + tailBits b * 0x40 + tailBits c) :: ·) := by
  have high : ¬ a < 0x80 := fun less => above (UInt8.lt_trans less (by decide))
  have higher : ¬ a < 0xC2 := fun less => above (UInt8.lt_trans less (by decide))
  rw [decodeFrom.eq_def]
  simp only [high, higher, above, first, second, third, if_true, if_false]

theorem decodeFrom_four (above : ¬ a < 0xF0) (first : a < 0xF5) (second : secondOfFour a b) (third : isTail c)
    (fourth : isTail d) : decodeFrom index (a :: b :: c :: d :: rest) = (decodeFrom (index + 4) rest).map
      (Char.ofNat ((a.toNat - 0xF0) * 0x40000 + tailBits b * 0x1000 + tailBits c * 0x40 + tailBits d) :: ·) := by
  have high : ¬ a < 0x80 := fun less => above (UInt8.lt_trans less (by decide))
  have higher : ¬ a < 0xC2 := fun less => above (UInt8.lt_trans less (by decide))
  have highest : ¬ a < 0xE0 := fun less => above (UInt8.lt_trans less (by decide))
  rw [decodeFrom.eq_def]
  simp only [high, higher, highest, above, first, second, third, fourth, if_true, if_false]

end decoding

/-- A character is read back from its bytes, whatever follows. -/
theorem decodeFrom_encodeChar (index : Nat) (c : Char) (rest : Bytes) :
    ∃ next, decodeFrom index (encodeChar c ++ rest) = (decodeFrom next rest).map (c :: ·) := by
  have valid : c.toNat < 0xD800 ∨ 0xDFFF < c.toNat ∧ c.toNat < 0x110000 := c.valid
  have back : Char.ofNat c.toNat = c := Char.ofNat_toNat c
  have one : (0x80 : UInt8).toNat = 0x80 := rfl
  have least : (0xC2 : UInt8).toNat = 0xC2 := rfl
  have two : (0xE0 : UInt8).toNat = 0xE0 := rfl
  have three : (0xF0 : UInt8).toNat = 0xF0 := rfl
  have four : (0xF5 : UInt8).toNat = 0xF5 := rfl
  rw [encodeChar]
  generalize c.toNat = n at valid back
  split
  · refine ⟨index + 1, ?_⟩
    rw [List.singleton_append, decodeFrom_one _ _ (by rw [lt_toUInt8 (by omega)]; omega), toNat_toUInt8 (by omega),
      back]
  · split
    · refine ⟨index + 2, ?_⟩
      have small : 0xC0 + n / 0x40 < 256 := by omega
      simp only [List.cons_append, List.nil_append]
      rw [decodeFrom_two _ _ (by rw [lt_toUInt8 small]; omega) (by rw [lt_toUInt8 small]; omega)
        (isTail_toUInt8 (by omega)), toNat_toUInt8 small, tailBits_toUInt8 (by omega),
        show (0xC0 + n / 0x40 - 0xC0) * 0x40 + n % 0x40 = n by omega, back]
    · split
      · refine ⟨index + 3, ?_⟩
        have small : 0xE0 + n / 0x1000 < 256 := by omega
        simp only [List.cons_append, List.nil_append]
        rw [decodeFrom_three _ _ (by rw [lt_toUInt8 small]; omega) (by rw [lt_toUInt8 small]; omega)
            (secondOfThree_toUInt8 (by omega) (by omega) (by omega) (by omega)) (isTail_toUInt8 (by omega)),
          toNat_toUInt8 small, tailBits_toUInt8 (by omega), tailBits_toUInt8 (by omega),
          show (0xE0 + n / 0x1000 - 0xE0) * 0x1000 + n / 0x40 % 0x40 * 0x40 + n % 0x40 = n by omega, back]
      · refine ⟨index + 4, ?_⟩
        have small : 0xF0 + n / 0x40000 < 256 := by omega
        simp only [List.cons_append, List.nil_append]
        rw [decodeFrom_four _ _ (by rw [lt_toUInt8 small]; omega) (by rw [lt_toUInt8 small]; omega)
            (secondOfFour_toUInt8 (by omega) (by omega) (by omega) (by omega)) (isTail_toUInt8 (by omega))
            (isTail_toUInt8 (by omega)),
          toNat_toUInt8 small, tailBits_toUInt8 (by omega), tailBits_toUInt8 (by omega), tailBits_toUInt8 (by omega),
          show (0xF0 + n / 0x40000 - 0xF0) * 0x40000 + n / 0x1000 % 0x40 * 0x1000 + n / 0x40 % 0x40 * 0x40 + n % 0x40 =
            n by
            omega, back]

/-- A text is read back from its bytes. -/
theorem decodeFrom_encode (index : Nat) (text : List Char) : decodeFrom index (text.flatMap encodeChar) = .ok text := by
  induction text generalizing index with
  | nil => rfl
  | cons c text ih =>
    obtain ⟨next, step⟩ := decodeFrom_encodeChar index c (text.flatMap encodeChar)
    rw [List.flatMap_cons, step, ih]
    rfl

theorem decode_encode (text : String) : decode (encode text) = .ok text := by
  rw [decode, encode, decodeFrom_encode]
  exact congrArg Except.ok (String.ofList_toList)

end Utf8
end BackupAtlas
