namespace BackupAtlas

abbrev Bytes := List UInt8

namespace Varint

/-- The digits of `n` in base 128, seven bits a byte, the lowest first, all but the last marked by
the top bit. A number of 64 bits takes at most ten bytes. -/
def encode (n : Nat) : Bytes :=
  if n < 128 then [n.toUInt8] else (n % 128 + 128).toUInt8 :: encode (n / 128)
termination_by n

def width (n : Nat) : Nat :=
  if n < 128 then 1 else width (n / 128) + 1
termination_by n

inductive Fault where
  /-- The bytes end before the number does. -/
  | truncated
  /-- The number does not fit in 64 bits. -/
  | overflow
  deriving DecidableEq, Repr

/-- Reads a number of at most `digits` bytes and returns it with the bytes after it. The last
byte that is allowed may only be 0 or 1, as just one of the 64 bits is left for it. Encodings
longer than necessary are accepted. -/
def decodeWithin : Nat → Bytes → Except Fault (Nat × Bytes)
  | 0, _ => .error .overflow
  | _ + 1, [] => .error .truncated
  | digits + 1, b :: rest =>
    if digits = 0 ∧ 1 < b.toNat then .error .overflow
    else if b.toNat < 128 then .ok (b.toNat, rest)
    else (decodeWithin digits rest).map fun (high, rest) => (b.toNat % 128 + 128 * high, rest)

/-- The same on a word, into which the digits to come are put from the bit `shift` on. -/
def decodeWord : Nat → UInt64 → UInt64 → Bytes → Except Fault (UInt64 × Bytes)
  | 0, _, _, _ => .error .overflow
  | _ + 1, _, _, [] => .error .truncated
  | digits + 1, shift, word, b :: rest =>
    if digits = 0 ∧ 1 < b then .error .overflow
    else
      let word := word ||| (b &&& 0x7f).toUInt64 <<< shift
      if b &&& 0x80 = 0 then .ok (word, rest) else decodeWord digits (shift + 7) word rest

/-- Reads a number of at most 64 bits from the front of `bytes`. -/
def decode (bytes : Bytes) : Except Fault (Nat × Bytes) :=
  (decodeWord 10 0 0 bytes).map fun (word, rest) => (word.toNat, rest)

end Varint
end BackupAtlas
