import BackupAtlas.Proofs.Encodings
import BackupAtlas.StoredTree

namespace BackupAtlas

/-- `a - b`, unless that is below zero. -/
def minus? (a b : Nat) : Option Nat := if b ≤ a then some (a - b) else none

/-- The bytes between two positions, unless one of these is out of range. -/
def slice? (bytes : Bytes) (first last : Nat) : Option Bytes :=
  if first ≤ last ∧ last ≤ bytes.length then some ((bytes.drop first).take (last - first)) else none

/-- A subtraction that stays above zero passes its guard. -/
theorem minus?_of_le {a b : Nat} (less : b ≤ a) : minus? a b = some (a - b) := if_pos less

/-- A slice within the bytes passes its guard. -/
theorem slice?_of_le {bytes : Bytes} {first last : Nat} (forward : first ≤ last) (inside : last ≤ bytes.length) :
    slice? bytes first last = some ((bytes.drop first).take (last - first)) := if_pos ⟨forward, inside⟩

/-- A read by position: nothing where a guard stops it, otherwise its result and where it ends. -/
def GuardedRead (α : Type) := Nat → Option (EStateM.Result Error Nat α)

namespace GuardedRead

instance : Monad GuardedRead where
  pure a := fun position => some (.ok a position)
  bind first next := fun position =>
    match first position with
    | none => none
    | some (.error reason position) => some (.error reason position)
    | some (.ok a position) => next a position

def ofGuard {α : Type} (value? : Option α) : GuardedRead α := fun position => value?.map fun a => .ok a position

variable (body : Bytes) (context : String)

def fail {α : Type} (details : String) : GuardedRead α := fun position =>
  some (.error (.corrupt context details) position)

def varint : GuardedRead Nat := fun position =>
  match Varint.decode (body.drop position) with
  | .ok (n, rest) => (minus? body.length rest.length).map fun next => .ok n next
  | .error .truncated => fail context s!"truncated varint at offset {position}" position
  | .error .overflow => fail context s!"varint overflow at offset {position}" position

def length : GuardedRead Nat := do
  let n ← varint body context
  if body.length < n then fail context s!"length {n} exceeds buffer of {body.length} bytes" else pure n

def take (n : Nat) : GuardedRead Bytes := fun position =>
  if body.length < position + n then
    fail context s!"{n} bytes requested at offset {position}, buffer ends at {body.length}" position
  else (slice? body position (position + n)).map fun bytes => .ok bytes (position + n)

/-- The start of the record at `start`. -/
def head (start : Nat) : GuardedRead (Nat × Bytes × Nat) := do
  let belowLength ← varint body context
  let room ← ofGuard (minus? start StoredTree.magic.length)
  if room < belowLength then fail context s!"bad subtree length at {start}"
  let dataLength ← length body context
  let data ← take body context dataLength
  let count ← length body context
  pure (belowLength, data, count)

/-- An entry of the record at `start`. How far back the child stands is tested before it is subtracted. -/
def entry (start : Nat) : GuardedRead (RecordEntry start) := do
  let nameLength ← length body context
  let raw ← take body context nameLength
  match Utf8.decode raw with
  | .error fault => fail context s!"child name is not UTF-8: {fault.message}"
  | .ok name =>
    let back ← varint body context
    if inside : 0 < back ∧ back + StoredTree.magic.length ≤ start then
      pure { name, position := start - back, position_lt := StoredTree.before_of_back inside }
    else fail context s!"child {quoted name} offset out of range"

/-- The next `count` entries and where they end. -/
def entries (start : Nat) : (count : Nat) → (position : Nat) →
    Option (List (Except Error (RecordEntry start)) × Nat)
  | 0, position => some ([], position)
  | count + 1, position =>
    match entry body context start position with
    | none => none
    | some (.ok first next) => (entries start count next).map fun (others, last) => (.ok first :: others, last)
    | some (.error reason next) =>
      (entries start count next).map fun (others, last) => (.error reason :: others, last)

/-- The record at `start`, and the bytes that make up its block. -/
def record (start : Nat) : Option (Except Error (Record start)) :=
  match head body "tree node" start start with
  | none => none
  | some (.error reason _) => some (.error reason)
  | some (.ok (belowLength, data, count) next) => do
    let (entries, last) ← entries body "tree children" start count next
    let first ← minus? start belowLength
    let bytes ← slice? body first last
    let above ← minus? start first
    some (.ok { data, entries, block := ⟨bytes, above⟩ })

end GuardedRead

namespace Varint

/-- A read of a number leaves the rest of the bytes. -/
theorem decodeWithin_suffix {digits n : Nat} {bytes rest : Bytes} (decoded : decodeWithin digits bytes = .ok (n, rest)) :
    rest <:+ bytes := by
  induction digits generalizing n bytes with
  | zero => exact absurd decoded (by simp [decodeWithin])
  | succ digits ih =>
    cases bytes with
    | nil => exact absurd decoded (by simp [decodeWithin])
    | cons b bytes =>
      rw [decodeWithin] at decoded
      split at decoded
      · exact absurd decoded (by simp)
      · split at decoded
        · obtain ⟨_, rfl⟩ := Prod.mk.inj (Except.ok.inj decoded)
          exact List.suffix_cons _ _
        · obtain ⟨read, later, same⟩ := map_eq_ok_iff.mp decoded
          obtain ⟨_, rfl⟩ := Prod.mk.inj same
          exact (ih later).trans (List.suffix_cons _ _)

theorem decode_suffix {n : Nat} {bytes rest : Bytes} (decoded : decode bytes = .ok (n, rest)) : rest <:+ bytes :=
  decodeWithin_suffix (decode_eq bytes ▸ decoded)

end Varint

/-- The cursor at a position in a body. -/
def Cursor.at (body : Bytes) (context : String) (position : Nat) : Cursor := ⟨body.drop position, body.length, context⟩

/-- A cursor that is put within the bytes stands there. -/
theorem Cursor.position_at {body : Bytes} (context : String) {position : Nat} (inside : position ≤ body.length) :
    (Cursor.at body context position).position = position := by
  simp only [Cursor.position, Cursor.at, List.length_drop]
  omega

/-- A guarded read and a plain one end alike: no guard has stopped the former, it has gone forward within the bytes,
and what it gives is `good`; if it failed, this is because the bytes make no sense. -/
inductive EndsAlike (body : Bytes) (context : String) (start : Nat) {α : Type} (good : α → Prop) :
    Option (EStateM.Result Error Nat α) → EStateM.Result Error Cursor α → Prop
  | ok {a : α} {next : Nat} (fine : good a) (forward : start ≤ next) (inside : next ≤ body.length) :
    EndsAlike body context start good (some (.ok a next)) (.ok a (Cursor.at body context next))
  | error {details : String} {next : Nat} (forward : start ≤ next) (inside : next ≤ body.length) :
    EndsAlike body context start good (some (.error (.corrupt context details) next))
      (.error (.corrupt context details) (Cursor.at body context next))

/-- From every position within the bytes the guarded read and the plain one end alike. -/
def GuardedRead.Mirrors {α : Type} (body : Bytes) (context : String) (good : α → Prop) (guarded : GuardedRead α)
    (read : Read α) : Prop :=
  ∀ position ≤ body.length, EndsAlike body context position good (guarded position) (read (Cursor.at body context position))

namespace GuardedRead.Mirrors

variable {body : Bytes} {context : String} {α β : Type} {good : α → Prop} {fine : β → Prop}

theorem pure {a : α} (holds : good a) : Mirrors body context good (Pure.pure a) (Pure.pure a) :=
  fun position inside => .ok holds (Nat.le_refl position) inside

theorem fail (good : α → Prop) (details : String) :
    Mirrors body context good (GuardedRead.fail context details) (Cursor.fail details) :=
  fun position inside => .error (Nat.le_refl position) inside

theorem bind {guarded : GuardedRead α} {read : Read α} {next : α → GuardedRead β} {later : α → Read β}
    (first : Mirrors body context good guarded read)
    (second : ∀ a, good a → Mirrors body context fine (next a) (later a)) :
    Mirrors body context fine (guarded >>= next) (read >>= later) := by
  intro position inside
  have here := first position inside
  change EndsAlike body context position fine (match guarded position with
    | none => none
    | some (.error reason position) => some (.error reason position)
    | some (.ok a position) => next a position) (EStateM.bind read later _)
  rw [EStateM.bind]
  generalize guarded position = left at here
  generalize read (Cursor.at body context position) = right at here
  cases here with
  | error forward inside => exact .error forward inside
  | @ok a middle holds forward inside =>
    have there := second a holds middle inside
    simp only
    generalize next a middle = left at there
    generalize later a (Cursor.at body context middle) = right at there
    cases there with
    | ok holds more inside => exact .ok holds (Nat.le_trans forward more) inside
    | error more inside => exact .error (Nat.le_trans forward more) inside

theorem ofGuard {value? : Option α} {value : α} (passes : value? = some value) {next : α → GuardedRead β}
    {read : Read β} (later : Mirrors body context fine (next value) read) :
    Mirrors body context fine (GuardedRead.ofGuard value? >>= next) read := by
  subst passes
  exact later

theorem varint : Mirrors body context (fun _ => True) (GuardedRead.varint body context) Cursor.varint := by
  intro position inside
  rw [GuardedRead.varint, Cursor.varint]
  change EndsAlike _ _ _ _ _ (match Varint.decode (body.drop position) with
    | .ok (n, rest) => _ | .error .truncated => _ | .error .overflow => _)
  cases decoded : Varint.decode (body.drop position) with
  | error fault =>
    cases fault <;> simp only [Cursor.position_at context inside] <;> exact fail _ _ position inside
  | ok read =>
    obtain ⟨n, rest⟩ := read
    have behind : rest <:+ body.drop position := Varint.decode_suffix decoded
    have shorter := behind.length_le
    rw [List.length_drop] at shorter
    have place : rest = body.drop (body.length - rest.length) :=
      List.suffix_iff_eq_drop.mp (behind.trans (List.drop_suffix _ _))
    have ends : EndsAlike body context position (fun _ => True) (some (.ok n (body.length - rest.length)))
        (.ok n (Cursor.at body context (body.length - rest.length))) := .ok trivial (by omega) (by omega)
    simp only [minus?_of_le (show rest.length ≤ body.length by omega), Option.map_some]
    rwa [Cursor.at, ← place] at ends

theorem length : Mirrors body context (fun _ => True) (GuardedRead.length body context) Cursor.length := by
  refine varint.bind fun n _ => ?_
  intro position inside
  change EndsAlike body context position _ _
    ((if body.length < n then Cursor.fail _ else Pure.pure n : Read Nat) (Cursor.at body context position))
  by_cases large : body.length < n
  · rw [if_pos large, if_pos large]
    exact fail _ _ position inside
  · rw [if_neg large, if_neg large]
    exact pure trivial position inside

theorem take (n : Nat) : Mirrors body context (fun _ => True) (GuardedRead.take body context n) (Cursor.take n) := by
  intro position inside
  have left : (Cursor.at body context position).rest.length = body.length - position := List.length_drop
  rw [GuardedRead.take, Cursor.take, left]
  by_cases short : body.length - position < n
  · rw [if_pos short, if_pos (show body.length < position + n by omega), Cursor.position_at context inside]
    exact fail _ _ position inside
  · have ends : position + n ≤ body.length := by omega
    rw [if_neg short, if_neg (show ¬ body.length < position + n by omega), slice?_of_le (by omega) ends,
      Nat.add_sub_cancel_left, Option.map_some]
    simp only [Cursor.at, List.drop_drop]
    exact .ok trivial (by omega) ends

/-- What a record says of the records below it leaves room for the bytes in front. -/
theorem head {start : Nat} (low : StoredTree.magic.length ≤ start) :
    Mirrors body context (fun read => read.1 + StoredTree.magic.length ≤ start)
      (GuardedRead.head body context start) (StoredTree.readHead start) := by
  refine varint.bind fun belowLength _ => ofGuard (minus?_of_le low) ?_
  by_cases far : start - StoredTree.magic.length < belowLength
  · simp only [if_pos far]
    exact (fail (fun _ : PUnit => False) _).bind fun _ => False.elim
  · simp only [if_neg far]
    exact length.bind fun dataLength _ => (take dataLength).bind fun data _ => length.bind fun count _ =>
      pure (show belowLength + StoredTree.magic.length ≤ start by omega)

/-- A child stands behind the bytes in front. -/
theorem entry (start : Nat) : Mirrors body context (fun entry => StoredTree.magic.length ≤ entry.position)
    (GuardedRead.entry body context start) (StoredTree.readEntry start) := by
  refine length.bind fun nameLength _ => (take nameLength).bind fun raw _ => ?_
  cases Utf8.decode raw with
  | error fault => exact fail _ _
  | ok name =>
    refine varint.bind fun back _ => ?_
    by_cases inside : 0 < back ∧ back + StoredTree.magic.length ≤ start
    · simp only [dif_pos inside]
      exact pure (show StoredTree.magic.length ≤ start - back by omega)
    · simp only [dif_neg inside]
      exact fail _ _

end GuardedRead.Mirrors

namespace StoredTree

/-- A reason that blames the bytes. -/
def Blames (reason : Error) : Prop := ∃ context details, reason = .corrupt context details

/-- What the entries of a record may be: children between the bytes in front and the record, or reasons. -/
def Sensible {start : Nat} (entry : Except Error (RecordEntry start)) : Prop :=
  match entry with
  | .ok entry => magic.length ≤ entry.position
  | .error reason => Blames reason

variable {body : Bytes}

/-- Every entry is looked at, whatever became of the one before it. -/
theorem entries_eq (start count : Nat) {position : Nat} (inside : position ≤ body.length) :
    ∃ listed last, position ≤ last ∧ last ≤ body.length ∧
      GuardedRead.entries body "tree children" start count position = some (listed, last) ∧
      readEntries start count (Cursor.at body "tree children" position) =
        (listed, Cursor.at body "tree children" last) ∧
      ∀ entry ∈ listed, Sensible entry := by
  induction count generalizing position with
  | zero => exact ⟨[], position, Nat.le_refl _, inside, rfl, rfl, fun _ member => absurd member List.not_mem_nil⟩
  | succ count ih =>
    have mirrors : GuardedRead.Mirrors body "tree children" _ _ _ := GuardedRead.Mirrors.entry start
    have first := mirrors position inside
    rw [GuardedRead.entries, readEntries]
    generalize GuardedRead.entry body "tree children" start position = left at first
    generalize readEntry start (Cursor.at body "tree children" position) = right at first
    cases first with
    | @ok a next low forward inside =>
      obtain ⟨others, last, further, within, same, also, each⟩ := ih inside
      refine ⟨.ok a :: others, last, Nat.le_trans forward further, within, by simp only [same, Option.map_some],
        by simp only [also], List.forall_mem_cons.mpr ⟨low, each⟩⟩
    | @error details next forward inside =>
      obtain ⟨others, last, further, within, same, also, each⟩ := ih inside
      refine ⟨.error (.corrupt "tree children" details) :: others, last, Nat.le_trans forward further, within, by simp only [same, Option.map_some],
        by simp only [also], List.forall_mem_cons.mpr ⟨⟨_, _, rfl⟩, each⟩⟩

/-- No guard stops the read of a record that starts within the bytes. It is the plain read, and what it gives is
sensible. -/
theorem record_eq {start : Nat} (low : magic.length ≤ start) (high : start ≤ body.length) :
    GuardedRead.record body start = some (readRecord body start) ∧
      (∀ reason, readRecord body start = .error reason → Blames reason) ∧
      ∀ record, readRecord body start = .ok record →
        (∀ entry ∈ record.entries, Sensible entry) ∧ record.block.bytes <:+: body := by
  have mirrors : GuardedRead.Mirrors body "tree node" _ _ _ := GuardedRead.Mirrors.head low
  have first := mirrors start high
  rw [GuardedRead.record, readRecord]
  change EndsAlike body _ start _ _ (readHead start ⟨body.drop start, body.length, "tree node"⟩) at first
  generalize GuardedRead.head body "tree node" start start = left at first
  generalize readHead start ⟨body.drop start, body.length, "tree node"⟩ = right at first
  cases first with
  | error forward inside =>
    refine ⟨rfl, fun reason same => ⟨_, _, (Except.error.inj same).symm⟩, fun record same => ?_⟩
    exact absurd same (by simp)
  | @ok read next below forward inside =>
    obtain ⟨belowLength, data, count⟩ := read
    obtain ⟨listed, last, further, within, same, also, each⟩ := entries_eq start count inside
    have room : belowLength ≤ start := by simp only at below; omega
    have cursor : { Cursor.at body "tree node" next with context := "tree children" } =
      Cursor.at body "tree children" next := rfl
    simp only [same, cursor, also, minus?_of_le room, bind, Option.bind,
      slice?_of_le (show start - belowLength ≤ last by omega) within,
      minus?_of_le (show start - belowLength ≤ start by omega), Cursor.position_at "tree children" within]
    have back : start - (start - belowLength) = belowLength := by omega
    refine ⟨by rw [back], fun reason failed => absurd failed (by simp), fun record read => ?_⟩
    obtain rfl := Except.ok.inj read
    exact ⟨each, (List.take_prefix _ _).isInfix.trans (List.drop_suffix _ _).isInfix⟩

end StoredTree

end BackupAtlas
