namespace BackupAtlas.Word

/-- How many numbers a word of 64 bits can stand for. -/
def limit : Nat := 0x10000000000000000

/-- The sum of two words. What does not fit in 64 bits is lost, as it is where the program is built without checks for
overflow. -/
def add (a b : Nat) : Nat := (a + b) % limit

theorem add_comm (a b : Nat) : add a b = add b a := by
  rw [add, add, Nat.add_comm]

theorem add_assoc (a b c : Nat) : add (add a b) c = add a (add b c) := by
  simp only [add, Nat.mod_add_mod, Nat.add_mod_mod, Nat.add_assoc]

/-- A sum is a word, whatever is added. -/
theorem add_lt (a b : Nat) : add a b < limit := Nat.mod_lt _ (by decide)

/-- Nothing is lost of a sum that is a word. -/
theorem add_of_lt {a b : Nat} (small : a + b < limit) : add a b = a + b := Nat.mod_eq_of_lt small

end BackupAtlas.Word
