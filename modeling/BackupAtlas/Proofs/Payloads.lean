import BackupAtlas.Payload
import BackupAtlas.Proofs.Encodings

namespace BackupAtlas

/-- Where at least `after` bytes follow `bytes`, reading takes these and returns `value`. -/
def Read.Takes {α : Type} (read : Read α) (bytes : Bytes) (after : Nat) (value : α) : Prop :=
  ∀ rest size context, after ≤ rest.length → bytes.length + rest.length ≤ size →
    read ⟨bytes ++ rest, size, context⟩ = .ok value ⟨rest, size, context⟩

namespace Read.Takes

variable {α β : Type} {read : Read α} {bytes more : Bytes} {after after' : Nat} {a : α} {b : β}

theorem weaken (takes : read.Takes bytes after a) (less : after ≤ after') : read.Takes bytes after' a :=
  fun rest size context room => takes rest size context (Nat.le_trans less room)

theorem pure (a : α) : (Pure.pure a : Read α).Takes [] 0 a := fun _ _ _ _ _ => rfl

/-- Two reads take what was written for both, one after the other. -/
theorem bind {next : α → Read β} (first : read.Takes bytes after' a) (second : (next a).Takes more after b)
    (room : after' ≤ more.length + after) : (read >>= next).Takes (bytes ++ more) after b := by
  intro rest size context left size_le
  have here := first (more ++ rest) size context (by rw [List.length_append]; omega)
    (by simp only [List.length_append] at size_le ⊢; omega)
  have there := second rest size context left (by rw [List.length_append] at size_le; omega)
  change EStateM.bind read next _ = _
  rw [List.append_assoc, EStateM.bind, here]
  exact there

theorem map (f : α → β) (takes : read.Takes bytes after a) :
    (read >>= fun a => Pure.pure (f a)).Takes bytes after (f a) := by
  have whole : (read >>= fun a => Pure.pure (f a)).Takes (bytes ++ []) after (f a) :=
    takes.bind ((pure (f a)).weaken (Nat.zero_le after)) (Nat.le_add_left _ _)
  rwa [List.append_nil] at whole

/-- A read that takes its bytes goes through, whatever follows. -/
theorem run (takes : read.Takes bytes 0 a) (rest : Bytes) (context : String) :
    Read.run read (bytes ++ rest) context = .ok a := by
  rw [Read.run, Cursor.start, takes rest _ context (Nat.zero_le _) (Nat.le_of_eq (by rw [List.length_append]))]

/-- A list is read back item by item. -/
theorem times {encode : α → Bytes} {values : List α} (each : ∀ value ∈ values, read.Takes (encode value) 0 value) :
    (Read.times read values.length).Takes (values.flatMap encode) 0 values := by
  induction values with
  | nil => exact pure []
  | cons value values ih =>
    have others := ih fun next member => each next (List.mem_cons_of_mem _ member)
    rw [List.flatMap_cons]
    exact (each value List.mem_cons_self).bind (others.map (value :: ·)) (Nat.zero_le _)

end Read.Takes

namespace Cursor

theorem takes_varint {n : Nat} (fits : n < 2 ^ 64) : varint.Takes (Varint.encode n) 0 n := by
  intro rest size context _ _
  rw [varint, Varint.decode_encode fits]

theorem takes_word {n : Nat} (fits : n < 2 ^ 32) : word.Takes (Varint.encode n) 0 n := by
  have more : n < 2 ^ 64 := Nat.lt_trans fits (by decide)
  have checked : (if n < 2 ^ 32 then pure n else fail s!"value {n} does not fit in 32 bits" : Read Nat).Takes
    [] 0 n := by
    rw [if_pos fits]
    exact .pure n
  have whole : word.Takes (Varint.encode n ++ []) 0 n := (takes_varint more).bind checked (Nat.zero_le _)
  rwa [List.append_nil] at whole

/-- A length is read back if as much follows. -/
theorem takes_length {n : Nat} (fits : n < 2 ^ 64) : length.Takes (Varint.encode n) n n := by
  intro rest size context room size_le
  have read := takes_varint fits rest size context (Nat.zero_le _) size_le
  have enough : ¬ size < n := by omega
  change EStateM.bind varint _ _ = _
  rw [EStateM.bind, read]
  change (if size < n then fail _ else pure n : Read Nat) _ = _
  rw [if_neg enough]
  rfl

theorem takes_byte (b : UInt8) : byte.Takes [b] 0 b := fun _ _ _ _ _ => rfl

theorem takes_take (bytes : Bytes) : (take bytes.length).Takes bytes 0 bytes := by
  intro rest size context _ _
  have enough : ¬ (bytes ++ rest).length < bytes.length := by rw [List.length_append]; omega
  rw [take, if_neg enough]
  simp only [List.take_left, List.drop_left]

end Cursor

namespace Read.Takes

variable {α β : Type} {read : Read α}

/-- A list is no longer than its bytes, as every item takes some. -/
theorem length_le_flatMap (encode : α → Bytes) {values : List α} (some : ∀ value ∈ values, 0 < (encode value).length) :
    values.length ≤ (values.flatMap encode).length := by
  induction values with
  | nil => exact Nat.zero_le _
  | cons value values ih =>
    have first := some value List.mem_cons_self
    have others := ih fun next member => some next (List.mem_cons_of_mem _ member)
    rw [List.flatMap_cons, List.length_append, List.length_cons]
    omega

/-- Reading a list behind its length. Every item has some bytes, so the length is plausible. -/
theorem counted {encode : α → Bytes} {values : List α} (each : ∀ value ∈ values, read.Takes (encode value) 0 value)
    (some : ∀ value ∈ values, 0 < (encode value).length) (few : values.length < 2 ^ 64) {next : List α → Read β}
    {more : Bytes} {b : β} (last : (next values).Takes more 0 b) :
    (do let count ← Cursor.length; next (← Read.times read count) : Read β).Takes
      (Varint.encode values.length ++ (values.flatMap encode ++ more)) 0 b := by
  refine (Cursor.takes_length few).bind ((times each).bind last (Nat.zero_le _)) ?_
  have enough := length_le_flatMap encode some
  rw [List.length_append]
  omega

end Read.Takes

namespace Tally

/-- A tally that can be written down. -/
structure Fits (tally : Tally) : Prop where
  nameless : tally.name = ""
  id : tally.id < 2 ^ 32
  mtime : tally.mtime < 2 ^ 64
  files : tally.files < 2 ^ 64
  size : tally.size < 2 ^ 64

def AllFit (tallies : List Tally) : Prop := tallies.length < 2 ^ 64 ∧ ∀ tally ∈ tallies, tally.Fits

theorem takes_encode {tally : Tally} (fits : tally.Fits) : read.Takes (encode tally) 0 tally := by
  have whole := (Cursor.takes_varint fits.size).map fun size => ({ tally with size } : Tally)
  rw [encode, List.append_assoc, List.append_assoc]
  refine (Cursor.takes_word fits.id).bind ?_ (Nat.zero_le _)
  refine (Cursor.takes_varint fits.mtime).bind ?_ (Nat.zero_le _)
  refine (Cursor.takes_varint fits.files).bind ?_ (Nat.zero_le _)
  have same : ∀ size, ({ id := tally.id, mtime := tally.mtime, files := tally.files, size } : Tally) =
    { tally with size } :=
    fun size => by rw [← fits.nameless]
  simpa only [same] using whole

theorem length_encode_pos (tally : Tally) : 0 < (encode tally).length := by
  have some := Varint.length_encode_pos tally.id
  simp only [encode, List.length_append]
  omega

theorem takes_encodeAll {tallies : List Tally} (fit : AllFit tallies) :
    readAll.Takes (encodeAll tallies) 0 tallies := by
  refine (Cursor.takes_length fit.1).bind (.times fun tally member => takes_encode (fit.2 tally member)) ?_
  exact Read.Takes.length_le_flatMap encode fun tally _ => length_encode_pos tally

end Tally

namespace FileStat

/-- A file whose numbers fit in the words for them. -/
structure Fits (file : FileStat) : Prop where
  uid : file.uid < 2 ^ 32
  gid : file.gid < 2 ^ 32
  mtime : file.mtime < 2 ^ 64
  size : file.size < 2 ^ 64

instance (file : FileStat) : Decidable file.Fits :=
  decidable_of_iff (file.uid < 2 ^ 32 ∧ file.gid < 2 ^ 32 ∧ file.mtime < 2 ^ 64 ∧ file.size < 2 ^ 64)
    ⟨fun ⟨uid, gid, mtime, size⟩ => ⟨uid, gid, mtime, size⟩, fun fits => ⟨fits.uid, fits.gid, fits.mtime, fits.size⟩⟩

theorem takes_encode {file : FileStat} (fits : file.Fits) : read.Takes (encode file) 0 file := by
  rw [encode, List.append_assoc, List.append_assoc]
  refine (Cursor.takes_word fits.uid).bind ?_ (Nat.zero_le _)
  refine (Cursor.takes_word fits.gid).bind ?_ (Nat.zero_le _)
  refine (Cursor.takes_varint fits.mtime).bind ?_ (Nat.zero_le _)
  exact (Cursor.takes_varint fits.size).map fun size => ({ file with size } : FileStat)

/-- A file is read back from its payload. -/
theorem decode_encode {file : FileStat} (fits : file.Fits) : decode file.encode = .ok file := by
  have whole := (takes_encode fits).run [] "snapshot file payload"
  rwa [List.append_nil] at whole

end FileStat

theorem Owner.takes_encode (owner : Owner) (uid : owner.uid < 2 ^ 32) (gid : owner.gid < 2 ^ 32) :
    read.Takes (Varint.encode owner.uid ++ Varint.encode owner.gid) 0 owner :=
  (Cursor.takes_word uid).bind ((Cursor.takes_word gid).map fun gid => ({ owner with gid } : Owner)) (Nat.zero_le _)

namespace DirStat

/-- A directory that can be written down. -/
structure Fits (dir : DirStat) : Prop where
  uid : dir.uid < 2 ^ 32
  gid : dir.gid < 2 ^ 32
  users : Tally.AllFit dir.users
  groups : Tally.AllFit dir.groups

theorem takes_encode {dir : DirStat} (fits : dir.Fits) : read.Takes (encode dir) 0 dir := by
  rw [encode, List.append_assoc]
  refine (Owner.takes_encode ⟨dir.uid, dir.gid⟩ fits.uid fits.gid).bind ?_ (Nat.zero_le _)
  refine (Tally.takes_encodeAll fits.users).bind ?_ (Nat.zero_le _)
  exact (Tally.takes_encodeAll fits.groups).map fun groups => ({ dir with groups } : DirStat)

/-- A directory is read back from its payload. -/
theorem decode_encode {dir : DirStat} (fits : dir.Fits) : decode dir.encode = .ok dir := by
  have whole := (takes_encode fits).run [] "snapshot directory payload"
  rwa [List.append_nil] at whole

theorem decodeOwner_encode {dir : DirStat} (fits : dir.Fits) : decodeOwner dir.encode = .ok ⟨dir.uid, dir.gid⟩ := by
  rw [decodeOwner, encode, List.append_assoc]
  exact (Owner.takes_encode ⟨dir.uid, dir.gid⟩ fits.uid fits.gid).run _ _

end DirStat

namespace Share

/-- A share before names are put in. -/
def bare (share : Share) : Share :=
  { share with
    users := share.users.map fun tally => { tally with name := "" }
    groups := share.groups.map fun tally => { tally with name := "" } }

structure Fits (share : Share) : Prop where
  rule : share.rule < 2 ^ 64
  users : Tally.AllFit share.users
  groups : Tally.AllFit share.groups

theorem takes_encode {share : Share} (fits : share.Fits) : read.Takes (encode share) 0 share := by
  rw [encode, List.append_assoc]
  refine (Cursor.takes_varint fits.rule).bind ?_ (Nat.zero_le _)
  refine (Tally.takes_encodeAll fits.users).bind ?_ (Nat.zero_le _)
  exact (Tally.takes_encodeAll fits.groups).map fun groups => ({ share with groups } : Share)

end Share

theorem Share.length_encode_pos (share : Share) : 0 < (encode share).length := by
  have some := Varint.length_encode_pos share.rule
  simp only [encode, List.length_append]
  omega

def Tagging.Fits : Tagging → Prop
  | .shares list => list.length < 2 ^ 64 ∧ ∀ share ∈ list, share.Fits
  | .uniform rule => rule < 2 ^ 64

namespace TaggedDir

structure Fits (dir : TaggedDir) : Prop where
  uid : dir.uid < 2 ^ 32
  gid : dir.gid < 2 ^ 32
  tagging : dir.tagging.Fits

theorem takes_encode {dir : TaggedDir} (fits : dir.Fits) : read.Takes (encode dir) 0 dir := by
  obtain ⟨uid, gid, tagging⟩ := dir
  obtain ⟨uidFits, gidFits, tagged⟩ := fits
  rw [encode]
  refine (Owner.takes_encode ⟨uid, gid⟩ uidFits gidFits).bind ?_ (Nat.zero_le _)
  cases tagging with
  | shares shares =>
    have inner : (do
        let count ← Cursor.length
        let shares ← Share.read.times count
        pure { uid, gid, tagging := .shares shares } : Read TaggedDir).Takes
          (Varint.encode shares.length ++ (shares.flatMap Share.encode ++ [])) 0
            { uid, gid, tagging := .shares shares } :=
      .counted (fun share member => Share.takes_encode (tagged.2 share member))
        (fun share _ => share.length_encode_pos)
        tagged.1 (.pure _)
    rw [List.append_nil] at inner
    exact (Cursor.takes_byte 0).bind inner (Nat.zero_le _)
  | uniform rule =>
    have small : rule < 2 ^ 64 := tagged
    have inner := (Cursor.takes_varint small).map fun rule => ({ uid, gid, tagging := .uniform rule } : TaggedDir)
    exact (Cursor.takes_byte 1).bind inner (Nat.zero_le _)

theorem decode_encode {dir : TaggedDir} (fits : dir.Fits) : decode dir.encode = .ok dir := by
  have whole := (takes_encode fits).run [] "rule-tagged directory payload"
  rwa [List.append_nil] at whole

def uniform? (dir : TaggedDir) : Option Nat :=
  match dir.tagging with
  | .shares _ => none
  | .uniform rule => some rule

/-- The rule of a uniform directory is read back by itself. -/
theorem decodeUniform?_encode {dir : TaggedDir} (fits : dir.Fits) : decodeUniform? dir.encode = .ok dir.uniform? := by
  obtain ⟨uid, gid, tagging⟩ := dir
  obtain ⟨uidFits, gidFits, tagged⟩ := fits
  rw [decodeUniform?, encode]
  have owner := Owner.takes_encode ⟨uid, gid⟩ uidFits gidFits
  cases tagging with
  | shares shares =>
    have marked : readUniform.Takes (Varint.encode uid ++ Varint.encode gid ++ [0]) 0 none :=
      owner.bind ((Cursor.takes_byte 0).map fun _ => none) (Nat.zero_le _)
    have whole := marked.run (Varint.encode shares.length ++ shares.flatMap Share.encode)
      "rule-tagged directory payload"
    rwa [List.append_assoc] at whole
  | uniform rule =>
    have small : rule < 2 ^ 64 := tagged
    have marked : readUniform.Takes (Varint.encode uid ++ Varint.encode gid ++ ([1] ++ Varint.encode rule)) 0
      (some rule) :=
      owner.bind ((Cursor.takes_byte 1).bind ((Cursor.takes_varint small).map some) (Nat.zero_le _)) (Nat.zero_le _)
    have whole := marked.run [] "rule-tagged directory payload"
    rwa [List.append_nil] at whole

end TaggedDir
end BackupAtlas
