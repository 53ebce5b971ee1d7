import BackupAtlas.Cursor
import BackupAtlas.Tally

namespace BackupAtlas

/-- Reads `n` things one after another. -/
def Read.times {α : Type} (read : Read α) : Nat → Read (List α)
  | 0 => pure []
  | n + 1 => do
    let first ← read
    let others ← times read n
    pure (first :: others)

namespace Tally

/-- A tally is stored as its id, mtime, files and size. All numbers of a payload have variable
length, and a list starts with its length. -/
def encode (tally : Tally) : Bytes :=
  Varint.encode tally.id ++ Varint.encode tally.mtime ++ Varint.encode tally.files ++
    Varint.encode tally.size

def encodeAll (tallies : List Tally) : Bytes :=
  Varint.encode tallies.length ++ tallies.flatMap encode

def read : Read Tally := do
  let id ← Cursor.word
  let mtime ← Cursor.varint
  let files ← Cursor.varint
  let size ← Cursor.varint
  pure { id, mtime, files, size }

def readAll : Read (List Tally) := do
  let count ← Cursor.length
  read.times count

end Tally

namespace FileStat

/-- A file of a snapshot is stored as uid, gid, mtime and size. -/
def encode (file : FileStat) : Bytes :=
  Varint.encode file.uid ++ Varint.encode file.gid ++ Varint.encode file.mtime ++
    Varint.encode file.size

def read : Read FileStat := do
  let uid ← Cursor.word
  let gid ← Cursor.word
  let mtime ← Cursor.varint
  let size ← Cursor.varint
  pure { uid, gid, mtime, size }

def decode (data : Bytes) : Except Error FileStat := read.run data "snapshot file payload"

end FileStat

/-- The user and the group that own a directory. -/
structure Owner where
  uid : Nat
  gid : Nat
  deriving DecidableEq, Repr

def Owner.read : Read Owner := do
  let uid ← Cursor.word
  let gid ← Cursor.word
  pure { uid, gid }

namespace DirStat

/-- A directory of a snapshot is stored as uid, gid, and the tallies of its users and of its
groups. -/
def encode (dir : DirStat) : Bytes :=
  Varint.encode dir.uid ++ Varint.encode dir.gid ++ Tally.encodeAll dir.users ++
    Tally.encodeAll dir.groups

def read : Read DirStat := do
  let owner ← Owner.read
  let users ← Tally.readAll
  let groups ← Tally.readAll
  pure { uid := owner.uid, gid := owner.gid, users, groups }

def decode (data : Bytes) : Except Error DirStat := read.run data "snapshot directory payload"

/-- Only the owner; the tallies are not read. -/
def decodeOwner (data : Bytes) : Except Error Owner :=
  Owner.read.run data "snapshot directory payload"

end DirStat

namespace Share

/-- A share is stored as its rule, users and groups. -/
def encode (share : Share) : Bytes :=
  Varint.encode share.rule ++ Tally.encodeAll share.users ++ Tally.encodeAll share.groups

def read : Read Share := do
  let rule ← Cursor.varint
  let users ← Tally.readAll
  let groups ← Tally.readAll
  pure { rule, users, groups }

end Share

/-- What a directory of a tagged tree says about the files below it. -/
inductive Tagging where
  /-- Their shares by rule; its subdirectories have entries of their own. -/
  | shares (shares : List Share)
  /-- All of them belong to one rule. -/
  | uniform (rule : Nat)
  deriving DecidableEq, Repr

/-- A directory of a tagged tree. -/
structure TaggedDir where
  uid : Nat
  gid : Nat
  tagging : Tagging
  deriving DecidableEq, Repr

namespace TaggedDir

/-- A directory of a tagged tree is stored as uid, gid, 0 and its shares, or as uid, gid, 1 and a
rule. The mark 0 or 1 is a byte. With the mark 1 all files below belong to that rule, and the
directory has no entries of its own in the tagged tree. -/
def encode (dir : TaggedDir) : Bytes :=
  Varint.encode dir.uid ++ Varint.encode dir.gid ++
    match dir.tagging with
    | .shares shares => 0 :: (Varint.encode shares.length ++ shares.flatMap Share.encode)
    | .uniform rule => 1 :: Varint.encode rule

def read : Read TaggedDir := do
  let owner ← Owner.read
  let mark ← Cursor.byte
  let tagging : Tagging ←
    if mark = 0 then do
      let count ← Cursor.length
      pure (.shares (← Share.read.times count))
    else if mark = 1 then do
      pure (.uniform (← Cursor.varint))
    else Cursor.fail s!"unknown node kind {mark.toNat}"
  pure { uid := owner.uid, gid := owner.gid, tagging }

def decode (data : Bytes) : Except Error TaggedDir := read.run data "rule-tagged directory payload"

def readUniform : Read (Option Nat) := do
  let _ ← Owner.read
  let mark ← Cursor.byte
  if mark = 1 then some <$> Cursor.varint else pure none

/-- The rule of a directory whose files all belong to one; shares are not read. -/
def decodeUniform? (data : Bytes) : Except Error (Option Nat) :=
  readUniform.run data "rule-tagged directory payload"

end TaggedDir
end BackupAtlas
