import BackupAtlas.Varint

namespace BackupAtlas.Fnv

def offset : Nat := 0xcbf29ce484222325

def prime : Nat := 0x100000001b3

def step (hash : Nat) (b : UInt8) : Nat := Nat.xor hash b.toNat * prime % UInt64.size

/-- The FNV-1a hash of 64 bits, which is the same everywhere and tells configurations apart. -/
def hash (bytes : Bytes) : Nat := bytes.foldl step offset

/-- The digits of a number of 64 bits in hexadecimal, sixteen in all. -/
def hex (n : Nat) : String :=
  String.ofList ((List.range 16).reverse.map fun i => Nat.digitChar (n >>> (4 * i) % 16))

end BackupAtlas.Fnv
