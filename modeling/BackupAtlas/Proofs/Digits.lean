import Mathlib.Data.Nat.Digits.Defs
import BackupAtlas.Proofs.GuardedReads

namespace BackupAtlas

namespace Varint

/-- Where the digits of a number end, if they do so within ten bytes. -/
def lastDigit? (bytes : Bytes) : Option Nat := (bytes.take 10).findIdx? (· < 0x80)

/-- The number that digits spell, the lowest first. -/
def value (digits : Bytes) : Nat := Nat.ofDigits 128 (digits.map (·.toNat % 128))

@[simp] theorem value_nil : value [] = 0 := rfl

@[simp] theorem value_cons (b : UInt8) (digits : Bytes) : value (b :: digits) = b.toNat % 128 + 128 * value digits := by
  rw [value, List.map_cons, Nat.ofDigits_cons]
  rfl

theorem lt_topBit (b : UInt8) : b < 0x80 ↔ b.toNat < 128 := UInt8.lt_iff_toNat_lt

/-- What is read are the bytes up to the first one without the top bit. With all the bytes that are allowed used up, it
is the last bit of the word. -/
theorem decodeWithin_eq_ok {digits n : Nat} {bytes rest : Bytes} :
    decodeWithin digits bytes = .ok (n, rest) ↔
      ∃ last, (bytes.take digits).findIdx? (· < 0x80) = some last ∧
        (last + 1 = digits → ∃ b, bytes[last]? = some b ∧ b ≤ 1) ∧
        n = value (bytes.take (last + 1)) ∧ rest = bytes.drop (last + 1) := by
  simp only [lt_topBit]
  induction digits generalizing n bytes with
  | zero => simp [decodeWithin]
  | succ digits ih =>
    cases bytes with
    | nil => simp [decodeWithin]
    | cons b bytes =>
      have small : b ≤ 1 ↔ ¬ 1 < b.toNat := UInt8.le_iff_toNat_le.trans Nat.not_lt.symm
      rw [decodeWithin, List.take_succ_cons, List.findIdx?_cons]
      simp only [decide_eq_true_eq]
      by_cases ends : b.toNat < 128
      · simp only [if_pos ends, Option.some.injEq, exists_eq_left', Nat.zero_add, List.take_succ_cons, List.take_zero,
          value_cons, value_nil, Nat.mod_eq_of_lt ends, List.drop_succ_cons, List.drop_zero, List.getElem?_cons_zero,
          small, Nat.mul_zero, Nat.add_zero]
        by_cases large : digits = 0 ∧ 1 < b.toNat
        · simp [large]
        · rw [if_neg large, Except.ok.injEq, Prod.mk.injEq]
          grind
      · rcases Nat.eq_zero_or_pos digits with rfl | more
        · simp [ends, show 1 < b.toNat by omega]
        · rw [if_neg (show ¬ (digits = 0 ∧ 1 < b.toNat) by omega), if_neg ends, if_neg ends]
          constructor
          · intro decoded
            obtain ⟨⟨high, behind⟩, later, same⟩ := map_eq_ok_iff.mp decoded
            obtain ⟨rfl, rfl⟩ := Prod.mk.inj same
            obtain ⟨last, found, bit, rfl, rfl⟩ := ih.mp later
            exact ⟨last + 1, by rw [found]; rfl, fun full => bit (by omega), by rw [List.take_succ_cons, value_cons], rfl⟩
          · rintro ⟨next, found, bit, rfl, rfl⟩
            obtain ⟨last, here, rfl⟩ := Option.map_eq_some_iff.mp found
            rw [ih.mpr ⟨last, here, fun full => bit (by omega), rfl, rfl⟩, List.take_succ_cons, value_cons]
            rfl

/-- A number is read exactly if its digits end and the tenth of them, if there is one, is one bit. -/
theorem decode_eq_ok {n : Nat} {bytes rest : Bytes} :
    decode bytes = .ok (n, rest) ↔
      ∃ last, lastDigit? bytes = some last ∧ (last = 9 → ∃ b, bytes[9]? = some b ∧ b ≤ 1) ∧
        n = value (bytes.take (last + 1)) ∧ rest = bytes.drop (last + 1) := by
  rw [decode_eq, decodeWithin_eq_ok]
  refine exists_congr fun last => and_congr_right fun _ => and_congr_left fun _ => ?_
  constructor
  · rintro bit rfl
    exact bit rfl
  · intro bit full
    obtain rfl : last = 9 := by omega
    exact bit rfl

theorem length_encode (n : Nat) : (encode n).length = width n := by
  induction n using width.induct with
  | case1 n small => rw [encode, width, if_pos small, if_pos small, List.length_singleton]
  | case2 n large ih => rw [encode, width, if_neg large, if_neg large, List.length_cons, ih]

/-- A number below a power of 128 takes no more digits than the exponent. -/
theorem width_le {digits n : Nat} (some : 0 < digits) (small : n < 128 ^ digits) : width n ≤ digits := by
  obtain ⟨digits, rfl⟩ := Nat.exists_eq_succ_of_ne_zero (Nat.ne_of_gt some)
  rw [← length_encode]
  exact length_encode_le digits small

/-- Digits end within the bytes. -/
theorem lastDigit?_lt {bytes : Bytes} {last : Nat} (found : lastDigit? bytes = some last) : last < bytes.length := by
  obtain ⟨inside, _⟩ := List.findIdx?_eq_some_iff_getElem.mp found
  rw [List.length_take] at inside
  omega

theorem toUInt8_topBit {b : UInt8} (top : ¬ b.toNat < 128) : (b.toNat % 128 + 128).toUInt8 = b := by
  have bound := b.toNat_lt
  rw [← UInt8.toNat_inj, toNat_toUInt8 (by omega)]
  omega

/-- A read that goes through takes some bytes. -/
theorem decodeWithin_ne (limit n : Nat) (bytes : Bytes) : decodeWithin limit bytes ≠ .ok (n, bytes) := by
  intro decoded
  obtain ⟨last, found, _, _, same⟩ := decodeWithin_eq_ok.mp decoded
  obtain ⟨inside, _⟩ := List.findIdx?_eq_some_iff_getElem.mp found
  have count := congrArg List.length same
  rw [List.length_take] at inside
  rw [List.length_drop] at count
  omega

/-- A number that is read from no more bytes than necessary is read from those that are written for it. -/
theorem eq_encode {limit n : Nat} {digits rest : Bytes} (some : digits ≠ [])
    (decoded : decodeWithin limit (digits ++ rest) = .ok (n, rest)) (short : digits.length ≤ width n) :
    digits = encode n := by
  induction digits generalizing limit n with
  | nil => exact absurd rfl some
  | cons b digits ih =>
    cases limit with
    | zero => cases decoded
    | succ limit =>
      rw [List.cons_append, decodeWithin] at decoded
      split at decoded
      · cases decoded
      · split at decoded
        · rename_i ends
          obtain ⟨rfl, none⟩ := Prod.mk.inj (Except.ok.inj decoded)
          rw [List.append_left_eq_self.mp none, encode, if_pos ends, Nat.toUInt8_eq, UInt8.ofNat_toNat]
        · rename_i goesOn
          obtain ⟨⟨high, behind⟩, later, same⟩ := map_eq_ok_iff.mp decoded
          obtain ⟨rfl, rfl⟩ := Prod.mk.inj same
          have filled : digits ≠ [] := by
            rintro rfl
            exact decodeWithin_ne limit high behind later
          have long := List.length_pos_iff.mpr filled
          have large : ¬ b.toNat % 128 + 128 * high < 128 := by
            intro small
            rw [width, if_pos small, List.length_cons] at short
            omega
          have above : (b.toNat % 128 + 128 * high) / 128 = high := by omega
          have low : (b.toNat % 128 + 128 * high) % 128 = b.toNat % 128 := by omega
          rw [width, if_neg large, above, List.length_cons] at short
          rw [encode, if_neg large, above, low, ← ih filled later (by omega), toUInt8_topBit goesOn]

/-- What is written for a number is shorter than all else that is read as this number. -/
theorem width_lt_of_ne {n : Nat} {others rest : Bytes} (decoded : decode (others ++ rest) = .ok (n, rest))
    (differ : others ≠ encode n) : width n < others.length := by
  rw [decode_eq] at decoded
  have filled : others ≠ [] := by
    rintro rfl
    exact decodeWithin_ne 10 n rest decoded
  by_contra short
  exact differ (eq_encode filled decoded (Nat.not_lt.mp short))

/-- Numbers that are read have 64 bits. -/
theorem decode_lt {n : Nat} {bytes rest : Bytes} (decoded : decode bytes = .ok (n, rest)) : n < 2 ^ 64 := by
  obtain ⟨⟨word, behind⟩, _, same⟩ := map_eq_ok_iff.mp decoded
  obtain ⟨rfl, _⟩ := Prod.mk.inj same
  exact word.toNat_lt

end Varint

namespace Cursor

variable {cursor after : Cursor} {n : Nat}

/-- A cursor reads a number as its bytes say and stops behind it. -/
theorem varint_eq_ok : varint cursor = .ok n after ↔
    ∃ rest, Varint.decode cursor.rest = .ok (n, rest) ∧ after = { cursor with rest } := by
  rw [varint]
  cases Varint.decode cursor.rest with
  | ok found =>
    obtain ⟨read, rest⟩ := found
    constructor
    · intro ran
      obtain ⟨rfl, rfl⟩ := EStateM.Result.ok.inj ran
      exact ⟨rest, rfl, rfl⟩
    · rintro ⟨_, same, rfl⟩
      obtain ⟨rfl, rfl⟩ := Prod.mk.inj (Except.ok.inj same)
      rfl
  | error fault =>
    refine iff_of_false (fun ran => ?_) ?_
    · cases fault <;> cases ran
    · rintro ⟨_, same, _⟩
      cases same

/-- A number that cannot be read leaves the cursor where it is. -/
theorem varint_unmoved {fault : Error} (failed : varint cursor = .error fault after) : after = cursor := by
  rw [varint] at failed
  split at failed
  · cases failed
  all_goals exact (EStateM.Result.error.inj failed).2.symm

theorem varint_at_eq_ok {body : Bytes} {context : String} {position : Nat} :
    varint (Cursor.at body context position) = .ok n after ↔
      ∃ last, Varint.lastDigit? (body.drop position) = some last ∧
        (last = 9 → ∃ b, (body.drop position)[9]? = some b ∧ b ≤ 1) ∧
        n = Varint.value ((body.drop position).take (last + 1)) ∧
        after = Cursor.at body context (position + last + 1) := by
  have behind (last : Nat) : { Cursor.at body context position with rest := (body.drop position).drop (last + 1) } =
      Cursor.at body context (position + last + 1) := by
    rw [List.drop_drop, ← Nat.add_assoc]
    rfl
  rw [varint_eq_ok]
  constructor
  · rintro ⟨rest, decoded, rfl⟩
    obtain ⟨last, found, bit, spelled, rfl⟩ := Varint.decode_eq_ok.mp decoded
    exact ⟨last, found, bit, spelled, behind last⟩
  · rintro ⟨last, found, bit, spelled, rfl⟩
    exact ⟨_, Varint.decode_eq_ok.mpr ⟨last, found, bit, spelled, rfl⟩, (behind last).symm⟩

/-- What is written is read back, and the cursor moves by its width. -/
theorem varint_encode {n : Nat} (fits : n < 2 ^ 64) (before rest : Bytes) (context : String) :
    varint (Cursor.at (before ++ Varint.encode n ++ rest) context before.length) =
      .ok n (Cursor.at (before ++ Varint.encode n ++ rest) context (before.length + Varint.width n)) := by
  refine varint_eq_ok.mpr ⟨rest, ?_, ?_⟩
  · rw [Cursor.at, List.append_assoc, List.drop_left]
    exact Varint.decode_encode fits rest
  · rw [Cursor.at, Cursor.at, ← Varint.length_encode, ← List.length_append, List.drop_left]

/-- A number is read if its digits end in time. Then what they spell fits in 64 bits and the cursor stands right behind
them; otherwise it does not move. A number that is written is read back whatever follows it, and its digits are fewer
than all others that are read as this number. -/
theorem varint_exact (body : Bytes) (position : Nat) (context : String) :
    let bytes := body.drop position
    ((∃ n after, varint (Cursor.at body context position) = .ok n after) ↔
      ∃ last, Varint.lastDigit? bytes = some last ∧ (last = 9 → ∃ b, bytes[9]? = some b ∧ b ≤ 1)) ∧
    (∀ n after, varint (Cursor.at body context position) = .ok n after →
      ∃ last, Varint.lastDigit? bytes = some last ∧ n = Varint.value (bytes.take (last + 1)) ∧ n < 2 ^ 64 ∧
        after = Cursor.at body context (position + last + 1) ∧ after.position = position + last + 1) ∧
    (∀ fault after, varint (Cursor.at body context position) = .error fault after →
      after = Cursor.at body context position) ∧
    ∀ (word : UInt64) (before rest : Bytes),
      let digits := Varint.encode word.toNat
      varint (Cursor.at (before ++ digits ++ rest) context before.length) =
        .ok word.toNat (Cursor.at (before ++ digits ++ rest) context (before.length + Varint.width word.toNat)) ∧
      digits.length = Varint.width word.toNat ∧ Varint.width word.toNat ≤ 10 ∧
      ∀ others, varint (Cursor.at (before ++ others ++ rest) context before.length) =
          .ok word.toNat (Cursor.at (before ++ others ++ rest) context (before ++ others).length) →
        others ≠ digits → Varint.width word.toNat < others.length := by
  intro bytes
  refine ⟨⟨?_, ?_⟩, ?_, fun fault after => varint_unmoved, fun word before rest => ?_⟩
  · rintro ⟨n, after, ran⟩
    obtain ⟨last, found, bit, _⟩ := varint_at_eq_ok.mp ran
    exact ⟨last, found, bit⟩
  · rintro ⟨last, found, bit⟩
    exact ⟨_, _, varint_at_eq_ok.mpr ⟨last, found, bit, rfl, rfl⟩⟩
  · intro n after ran
    obtain ⟨_, decoded, _⟩ := varint_eq_ok.mp ran
    obtain ⟨last, found, _, spelled, rfl⟩ := varint_at_eq_ok.mp ran
    have inside := Varint.lastDigit?_lt found
    rw [List.length_drop] at inside
    exact ⟨last, found, spelled, Varint.decode_lt decoded, rfl, position_at _ (by omega)⟩
  · refine ⟨varint_encode word.toNat_lt before rest context, Varint.length_encode _, ?_, fun others ran differ => ?_⟩
    · exact Varint.width_le (by decide) (Nat.lt_trans word.toNat_lt (by decide))
    · obtain ⟨behind, decoded, same⟩ := varint_eq_ok.mp ran
      rw [Cursor.at, List.append_assoc, List.drop_left] at decoded
      obtain rfl : rest = behind := by
        have left := congrArg Cursor.rest same
        rwa [Cursor.at, List.drop_left] at left
      exact Varint.width_lt_of_ne decoded differ

/-- Ten bytes for one bit, the highest that there is. -/
theorem varint_exact_highest_bit :
    let body : Bytes := [7, 128, 128, 128, 128, 128, 128, 128, 128, 128, 1, 5]
    varint (Cursor.at body "test" 1) = .ok (2 ^ 63) (Cursor.at body "test" 11) ∧
      Varint.lastDigit? (body.drop 1) = some 9 ∧ 2 ^ 63 = Varint.value ((body.drop 1).take 10) := by
  intro body
  have ran : varint (Cursor.at body "test" 1) = .ok (2 ^ 63) (Cursor.at body "test" 11) := rfl
  obtain ⟨last, found, spelled, _⟩ := (varint_exact body 1 "test").2.1 _ _ ran
  have ends : Varint.lastDigit? (body.drop 1) = some 9 := by decide
  obtain rfl : last = 9 := Option.some.inj (found.symm.trans ends)
  exact ⟨ran, found, spelled⟩

end Cursor
end BackupAtlas
