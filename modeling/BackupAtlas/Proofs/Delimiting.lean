import BackupAtlas.Proofs.Payloads
import BackupAtlas.Proofs.RuleSets

namespace BackupAtlas

/-- What follows a number does not change it. -/
theorem Varint.decodeWithin_append {digits n : Nat} {bytes rest : Bytes}
    (decoded : decodeWithin digits bytes = .ok (n, rest)) (more : Bytes) :
    decodeWithin digits (bytes ++ more) = .ok (n, rest ++ more) := by
  induction digits generalizing n bytes with
  | zero => exact absurd decoded (by simp [decodeWithin])
  | succ digits ih =>
    cases bytes with
    | nil => exact absurd decoded (by simp [decodeWithin])
    | cons b bytes =>
      unfold decodeWithin at decoded
      rw [List.cons_append, decodeWithin]
      split at decoded
      · exact absurd decoded (by simp)
      · rename_i fits
        rw [if_neg fits]
        split at decoded
        · rename_i last
          obtain ⟨rfl, rfl⟩ := Prod.mk.inj (Except.ok.inj decoded)
          rw [if_pos last]
        · rename_i goesOn
          rw [if_neg goesOn]
          obtain ⟨⟨high, behind⟩, later, same⟩ := map_eq_ok_iff.mp decoded
          obtain ⟨rfl, rfl⟩ := Prod.mk.inj same
          rw [ih later]
          rfl

/-- A read that looks no further than what it takes. Once it goes through, it does so in the same way with more bytes
behind, in a payload that may be longer. -/
def Read.Steady {α : Type} (read : Read α) : Prop :=
  ∀ bytes size context value after, read ⟨bytes, size, context⟩ = .ok value after →
    ∃ rest, after = ⟨rest, size, context⟩ ∧ ∀ more larger, size ≤ larger →
      read ⟨bytes ++ more, larger, context⟩ = .ok value ⟨rest ++ more, larger, context⟩

/-- If two reads go through one after the other, each does. -/
theorem Read.bind_ok {α β : Type} {read : Read α} {next : α → Read β} {before after : Cursor} {b : β}
    (ran : (read >>= next) before = .ok b after) :
    ∃ a between, read before = .ok a between ∧ next a between = .ok b after := by
  rw [bind_eq] at ran
  split at ran
  · rename_i a between first
    exact ⟨a, between, first, ran⟩
  · cases ran

namespace Read.Steady

variable {α β : Type} {read : Read α}

theorem pure (a : α) : Steady (Pure.pure a : Read α) := by
  intro bytes size context value after ran
  obtain ⟨rfl, rfl⟩ := EStateM.Result.ok.inj ran
  exact ⟨bytes, rfl, fun _ _ _ => rfl⟩

theorem fail (details : String) : Steady (Cursor.fail details : Read α) := by
  intro bytes size context value after ran
  cases ran

/-- Steady reads can be joined. -/
theorem bind {next : α → Read β} (first : Steady read) (later : ∀ a, Steady (next a)) : Steady (read >>= next) := by
  intro bytes size context value after ran
  obtain ⟨a, between, took, ran⟩ := Read.bind_ok ran
  obtain ⟨middle, rfl, again⟩ := first _ _ _ _ _ took
  obtain ⟨rest, rfl, repeated⟩ := later a _ _ _ _ _ ran
  refine ⟨rest, rfl, fun more larger room => ?_⟩
  rw [bind_eq, again more larger room]
  exact repeated more larger room

theorem varint : Steady Cursor.varint := by
  intro bytes size context value after ran
  unfold Cursor.varint at ran
  split at ran
  · rename_i n rest decoded
    obtain ⟨rfl, rfl⟩ := EStateM.Result.ok.inj ran
    refine ⟨rest, rfl, fun more larger room => ?_⟩
    have whole : Varint.decode (bytes ++ more) = .ok (n, rest ++ more) := by
      rw [Varint.decode_eq] at decoded ⊢
      exact Varint.decodeWithin_append decoded more
    simp only [Cursor.varint, whole]
  · cases ran
  · cases ran

theorem word : Steady Cursor.word := by
  refine varint.bind fun n => ?_
  split
  · exact pure n
  · exact fail _

/-- A length that is plausible in a payload is so in a longer one. -/
theorem length : Steady Cursor.length := by
  intro bytes size context value after ran
  obtain ⟨n, between, took, ran⟩ := Read.bind_ok ran
  obtain ⟨rest, rfl, again⟩ := varint _ _ _ _ _ took
  rw [bind_eq, get_eq] at ran
  by_cases large : size < n
  · simp only [if_pos large] at ran
    cases ran
  · simp only [if_neg large] at ran
    obtain ⟨rfl, rfl⟩ := EStateM.Result.ok.inj ran
    refine ⟨rest, rfl, fun more larger room => ?_⟩
    have fits : ¬ larger < n := by omega
    unfold Cursor.length
    simp only [bind_eq, again more larger room, get_eq, if_neg fits]
    rfl

theorem byte : Steady Cursor.byte := by
  intro bytes size context value after ran
  cases bytes with
  | nil => cases ran
  | cons b rest =>
    obtain ⟨rfl, rfl⟩ := EStateM.Result.ok.inj ran
    exact ⟨rest, rfl, fun _ _ _ => rfl⟩

theorem times (each : Steady read) (count : Nat) : Steady (read.times count) := by
  induction count with
  | zero => exact pure []
  | succ count ih => exact each.bind fun first => ih.bind fun others => pure (first :: others)

theorem owner : Steady Owner.read := word.bind fun _ => word.bind fun _ => pure _

theorem tally : Steady Tally.read :=
  word.bind fun _ => varint.bind fun _ => varint.bind fun _ => varint.bind fun _ => pure _

theorem tallies : Steady Tally.readAll := length.bind fun count => tally.times count

theorem share : Steady Share.read := varint.bind fun _ => tallies.bind fun _ => tallies.bind fun _ => pure _

theorem fileStat : Steady FileStat.read :=
  word.bind fun _ => word.bind fun _ => varint.bind fun _ => varint.bind fun _ => pure _

theorem dirStat : Steady DirStat.read :=
  owner.bind fun _ => tallies.bind fun _ => tallies.bind fun _ => pure _

theorem taggedDir : Steady TaggedDir.read := by
  refine owner.bind fun owner => byte.bind fun mark => ?_
  split
  · exact length.bind fun count => (share.times count).bind fun shares => pure _
  · split
    · exact varint.bind fun rule => pure _
    · exact (fail _).bind fun tagging => pure _

/-- A steady read that takes all of some bytes cannot do with fewer. -/
theorem refuses_part {bytes part : Bytes} {a : α} (steady : Steady read) (takes : read.Takes bytes 0 a)
    (begins : part <+: bytes) (shorter : part ≠ bytes) (context : String) :
    ∃ e, Read.run read part context = .error e := by
  obtain ⟨more, rfl⟩ := begins
  rw [Read.run, Cursor.start]
  cases ran : read ⟨part, part.length, context⟩ with
  | error e after => exact ⟨e, rfl⟩
  | ok value after =>
    exfalso
    obtain ⟨rest, rfl, again⟩ := steady _ _ _ _ _ ran
    -- the same read would have to leave `more` behind and to leave nothing behind
    have short := again more (part ++ more).length (by rw [List.length_append]; omega)
    have whole := takes [] (part ++ more).length context (Nat.zero_le _) (Nat.le_refl _)
    rw [List.append_nil, short] at whole
    have left : rest ++ more = [] := congrArg Cursor.rest (EStateM.Result.ok.inj whole).2
    exact shorter (by rw [(List.append_eq_nil_iff.mp left).2, List.append_nil])

end Read.Steady

/-- What is encoded can be told from whatever follows it: it is read back with anything behind it, as much of it as is
kept, and cannot be read if something is missing at its end. -/
structure SelfDelimiting {α : Type} (encode : α → Bytes) (decode : Bytes → Except Error α) (Fits : α → Prop)
    (kept : α → α) : Prop where
  decode_append : ∀ value, Fits value → ∀ rest, decode (encode value ++ rest) = .ok (kept value)
  decode_part : ∀ value, Fits value → ∀ part, part <+: encode value → part ≠ encode value →
    ∃ e, decode part = .error e

/-- A steady read that takes just what was written makes payloads end where they say. -/
theorem SelfDelimiting.of_read {α : Type} {encode : α → Bytes} {read : Read α} {Fits : α → Prop} {kept : α → α}
    (steady : read.Steady) (takes : ∀ value, Fits value → read.Takes (encode value) 0 (kept value))
    (context : String) : SelfDelimiting encode (fun data => read.run data context) Fits kept where
  decode_append value fits rest := (takes value fits).run rest context
  decode_part value fits _ begins shorter := steady.refuses_part (takes value fits) begins shorter context

theorem Tally.encodeAll_bare (tallies : List Tally) :
    encodeAll (tallies.map fun tally => { tally with name := "" }) = encodeAll tallies := by
  rw [encodeAll, encodeAll, List.length_map, List.flatMap_map]
  rfl

theorem Share.encode_bare (share : Share) : share.bare.encode = share.encode := by
  simp only [encode, bare, Tally.encodeAll_bare]

namespace DirStat

/-- What is recorded of a directory, without names. -/
def bare (dir : DirStat) : DirStat :=
  { dir with
    users := dir.users.map fun tally => { tally with name := "" }
    groups := dir.groups.map fun tally => { tally with name := "" } }

theorem encode_bare (dir : DirStat) : dir.bare.encode = dir.encode := by
  simp only [encode, bare, Tally.encodeAll_bare]

/-- The owner that is read alone is that of the whole payload. -/
theorem decodeOwner_of_decode {data : Bytes} {dir : DirStat} (decoded : decode data = .ok dir) :
    decodeOwner data = .ok ⟨dir.uid, dir.gid⟩ := by
  rw [decode, Read.run] at decoded
  split at decoded
  · rename_i read after ran
    obtain rfl := Except.ok.inj decoded
    obtain ⟨owner, between, first, ran⟩ := Read.bind_ok ran
    obtain ⟨users, _, _, ran⟩ := Read.bind_ok ran
    obtain ⟨groups, _, _, ran⟩ := Read.bind_ok ran
    obtain ⟨rfl, _⟩ := EStateM.Result.ok.inj ran
    rw [decodeOwner, Read.run, first]
  · cases decoded

end DirStat

namespace TaggedDir

/-- A directory of a tagged tree, without names in its shares. -/
def bare (dir : TaggedDir) : TaggedDir :=
  { dir with
    tagging := match dir.tagging with
      | .shares shares => .shares (shares.map Share.bare)
      | .uniform rule => .uniform rule }

theorem encode_bare (dir : TaggedDir) : dir.bare.encode = dir.encode := by
  obtain ⟨uid, gid, tagging⟩ := dir
  cases tagging with
  | uniform rule => rfl
  | shares shares =>
    have each : (shares.map Share.bare).flatMap Share.encode = shares.flatMap Share.encode := by
      rw [List.flatMap_map]
      exact congrArg (shares.flatMap ·) (funext Share.encode_bare)
    simp only [encode, bare, each, List.length_map]

/-- What the read of a tagged directory does behind its owner. -/
theorem read_ok {cursor after : Cursor} {dir : TaggedDir} (ran : read cursor = .ok dir after) :
    ∃ behindOwner mark behindMark, Owner.read cursor = .ok ⟨dir.uid, dir.gid⟩ behindOwner ∧
      Cursor.byte behindOwner = .ok mark behindMark ∧
      ((mark ≠ 1 ∧ ∃ shares, dir.tagging = .shares shares) ∨
        (mark = 1 ∧ ∃ rule, dir.tagging = .uniform rule ∧ Cursor.varint behindMark = .ok rule after)) := by
  obtain ⟨owner, behindOwner, first, ran⟩ := Read.bind_ok ran
  obtain ⟨mark, behindMark, second, ran⟩ := Read.bind_ok ran
  refine ⟨behindOwner, mark, behindMark, ?_⟩
  split at ran
  · rename_i zero
    obtain ⟨count, _, _, ran⟩ := Read.bind_ok ran
    obtain ⟨shares, _, _, ran⟩ := Read.bind_ok ran
    obtain ⟨rfl, _⟩ := EStateM.Result.ok.inj ran
    exact ⟨first, second, Or.inl ⟨by rw [zero]; decide, shares, rfl⟩⟩
  · split at ran
    · rename_i one
      obtain ⟨rule, _, third, ran⟩ := Read.bind_ok ran
      obtain ⟨rfl, rfl⟩ := EStateM.Result.ok.inj ran
      exact ⟨first, second, Or.inr ⟨one, rule, rfl, third⟩⟩
    · obtain ⟨tagging, _, failed, _⟩ := Read.bind_ok ran
      cases failed

/-- The rule that is read alone is the one to which the whole payload gives all files. -/
theorem decodeUniform?_of_decode {data : Bytes} {dir : TaggedDir} (decoded : decode data = .ok dir) :
    decodeUniform? data = .ok dir.uniform? := by
  rw [decode, Read.run] at decoded
  split at decoded
  · rename_i whole after ran
    obtain rfl := Except.ok.inj decoded
    obtain ⟨behindOwner, mark, behindMark, owner, marked, kind⟩ := read_ok ran
    rw [decodeUniform?, Read.run, readUniform, bind_eq, owner]
    simp only [bind_eq, marked]
    rcases kind with ⟨other, shares, tagging⟩ | ⟨rfl, rule, tagging, last⟩
    · rw [if_neg other, uniform?, tagging]
      rfl
    · rw [if_pos rfl, uniform?, tagging, map_eq_pure_bind, bind_eq, last]
      rfl
  · cases decoded

/-- Where a rule can be read alone, it is all that the payload says. -/
theorem decode_of_decodeUniform? {data : Bytes} {rule : Nat} (decoded : decodeUniform? data = .ok (some rule)) :
    ∃ uid gid, decode data = .ok { uid, gid, tagging := .uniform rule } := by
  rw [decodeUniform?, Read.run] at decoded
  split at decoded
  · rename_i found after ran
    obtain rfl := Except.ok.inj decoded
    obtain ⟨owner, behindOwner, first, ran⟩ := Read.bind_ok ran
    obtain ⟨mark, behindMark, second, ran⟩ := Read.bind_ok ran
    split at ran
    · rename_i one
      rw [map_eq_pure_bind] at ran
      obtain ⟨known, last, third, ran⟩ := Read.bind_ok ran
      obtain rfl := Option.some.inj (EStateM.Result.ok.inj ran).1
      refine ⟨owner.uid, owner.gid, ?_⟩
      have notZero : mark ≠ 0 := by rw [one]; decide
      rw [decode, Read.run, read, bind_eq, first]
      simp only [bind_eq, second, if_neg notZero, if_pos one, third]
      rfl
    · cases (EStateM.Result.ok.inj ran).1
  · cases decoded

/-- A directory is uniform exactly if it is tagged with one rule. -/
theorem uniform?_eq_some {dir : TaggedDir} {rule : Nat} : dir.uniform? = some rule ↔ dir.tagging = .uniform rule := by
  unfold uniform?
  cases dir.tagging with
  | shares shares => simp
  | uniform other => simp

end TaggedDir

/-- What is written of files and directories is read back with the names left out, whatever follows it, and no beginning
of it can be read. The shorter reads answer wherever the whole payload can be read, and say what it says; where
the shorter read finds a rule, the payload can be read and says just that. -/
theorem payloads_self_delimiting :
    SelfDelimiting DirStat.encode DirStat.decode (fun dir => dir.bare.Fits) DirStat.bare ∧
    SelfDelimiting FileStat.encode FileStat.decode FileStat.Fits id ∧
    SelfDelimiting TaggedDir.encode TaggedDir.decode (fun dir => dir.bare.Fits) TaggedDir.bare ∧
    (∀ data dir, DirStat.decode data = .ok dir → DirStat.decodeOwner data = .ok ⟨dir.uid, dir.gid⟩) ∧
    (∀ data dir, TaggedDir.decode data = .ok dir → ∃ found, TaggedDir.decodeUniform? data = .ok found ∧
      ∀ rule, found = some rule ↔ dir.tagging = .uniform rule) ∧
    (∀ data rule, TaggedDir.decodeUniform? data = .ok (some rule) →
      ∃ uid gid, TaggedDir.decode data = .ok { uid, gid, tagging := .uniform rule }) := by
  refine ⟨?_, ?_, ?_, fun data dir => DirStat.decodeOwner_of_decode, ?_, fun data rule =>
    TaggedDir.decode_of_decodeUniform?⟩
  · refine .of_read .dirStat (fun dir fits => ?_) "snapshot directory payload"
    rw [← dir.encode_bare]
    exact DirStat.takes_encode fits
  · exact .of_read .fileStat (fun file => FileStat.takes_encode) "snapshot file payload"
  · refine .of_read .taggedDir (fun dir fits => ?_) "rule-tagged directory payload"
    rw [← dir.encode_bare]
    exact TaggedDir.takes_encode fits
  · intro data dir decoded
    exact ⟨dir.uniform?, TaggedDir.decodeUniform?_of_decode decoded, fun rule => TaggedDir.uniform?_eq_some⟩

/-- A directory with a name filled in, and one whose files all belong to a rule that takes two bytes. -/
theorem payloads_self_delimiting_named :
    let user : Tally := { id := 1000, name := "ann", mtime := 9, files := 2, size := 300 }
    let dir : DirStat := { uid := 1000, gid := 7, users := [user] }
    let tagged : TaggedDir := { uid := 1, gid := 2, tagging := .uniform 300 }
    dir.bare.Fits ∧ DirStat.decode (dir.encode ++ [255]) = .ok dir.bare ∧
      DirStat.decodeOwner (dir.encode ++ [255]) = .ok ⟨1000, 7⟩ ∧ (∃ e, DirStat.decode (dir.encode.take 8) = .error e) ∧
      tagged.bare.Fits ∧ TaggedDir.decode (tagged.encode ++ [0]) = .ok tagged.bare ∧
      TaggedDir.decodeUniform? (tagged.encode ++ [0]) = .ok (some 300) := by
  intro user dir tagged
  obtain ⟨dirs, _, taggeds, owners, rules, _⟩ := payloads_self_delimiting
  have fits : dir.bare.Fits := by
    refine ⟨by decide, by decide, ⟨by decide, ?_⟩, ⟨by decide, fun tally member => nomatch member⟩⟩
    intro tally member
    obtain rfl := List.mem_singleton.mp member
    exact ⟨rfl, by decide, by decide, by decide, by decide⟩
  have taggedFits : tagged.bare.Fits := ⟨by decide, by decide, show 300 < 2 ^ 64 by decide⟩
  have whole := dirs.decode_append dir fits [255]
  have uniform := taggeds.decode_append tagged taggedFits [0]
  have cutOff := dirs.decode_part dir fits (dir.encode.take 8) (List.take_prefix 8 _) (by decide +kernel)
  obtain ⟨found, peeked, only⟩ := rules _ _ uniform
  have same : found = some 300 := (only 300).mpr rfl
  exact ⟨fits, whole, owners _ _ whole, cutOff, taggedFits, uniform, same ▸ peeked⟩

end BackupAtlas
