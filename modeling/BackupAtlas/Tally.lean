import BackupAtlas.Word

namespace BackupAtlas

/-- The files of one user or group: how many there are, how large they are together, and when the
latest was changed. Lists of tallies are kept in ascending order of the ids. -/
structure Tally where
  id : Nat
  /-- Filled in only where a summary is shown. -/
  name : String := ""
  /-- The latest change, in seconds since the epoch. -/
  mtime : Nat
  files : Nat
  size : Nat
  deriving DecidableEq, Repr, Inhabited

/-- What is recorded of a file. -/
structure FileStat where
  uid : Nat := 0
  gid : Nat := 0
  mtime : Nat := 0
  size : Nat := 0
  deriving DecidableEq, Repr, Inhabited

/-- What is recorded of a directory: its owner, and tallies of all files below it. -/
structure DirStat where
  uid : Nat := 0
  gid : Nat := 0
  users : List Tally := []
  groups : List Tally := []
  deriving DecidableEq, Repr, Inhabited

/-- The files of a directory that belong to one rule. Rule 0 stands for no rule. Lists of shares are
kept in ascending order of the rules. -/
structure Share where
  rule : Nat
  users : List Tally := []
  groups : List Tally := []
  deriving DecidableEq, Repr, Inhabited

namespace Tally

/-- The files of both. The figures are words. -/
def absorb (tally other : Tally) : Tally :=
  { tally with
    mtime := max tally.mtime other.mtime
    files := Word.add tally.files other.files
    size := Word.add tally.size other.size }

/-- The tally of a single file, for its user or its group. -/
def ofFile (id : Nat) (file : FileStat) : Tally :=
  { id, mtime := file.mtime, files := 1, size := file.size }

/-- Adds a tally to an ascending list. Names are not carried over. -/
def add (tally : Tally) : List Tally → List Tally
  | [] => [{ tally with name := "" }]
  | head :: rest =>
    if tally.id < head.id then { tally with name := "" } :: head :: rest
    else if tally.id = head.id then head.absorb tally :: rest
    else head :: add tally rest

/-- Adds all tallies of `other` to an ascending list. -/
def merge (tallies other : List Tally) : List Tally :=
  other.foldl (fun tallies tally => add tally tallies) tallies

/-- The number of files and their size in all. -/
def totals (tallies : List Tally) : Nat × Nat :=
  tallies.foldl (fun (files, size) tally => (Word.add files tally.files, Word.add size tally.size))
    (0, 0)

end Tally

namespace DirStat

def addFile (stat : DirStat) (file : FileStat) : DirStat :=
  { stat with
    users := Tally.add (.ofFile file.uid file) stat.users
    groups := Tally.add (.ofFile file.gid file) stat.groups }

/-- Adds the files below a subdirectory. -/
def addDir (stat sub : DirStat) : DirStat :=
  { stat with
    users := Tally.merge stat.users sub.users
    groups := Tally.merge stat.groups sub.groups }

end DirStat

namespace Share

/-- Changes the share of `rule` in an ascending list, which gets an empty one if it has none. -/
def alter (rule : Nat) (change : Share → Share) : List Share → List Share
  | [] => [change { rule }]
  | head :: rest =>
    if rule < head.rule then change { rule } :: head :: rest
    else if rule = head.rule then change head :: rest
    else head :: alter rule change rest

def absorb (share : Share) (users groups : List Tally) : Share :=
  { share with
    users := Tally.merge share.users users
    groups := Tally.merge share.groups groups }

def addFile (rule : Nat) (file : FileStat) (shares : List Share) : List Share :=
  alter rule (fun share =>
    share.absorb [.ofFile file.uid file] [.ofFile file.gid file]) shares

/-- Counts all files below a directory for `rule`. An empty directory leaves no trace. -/
def addDir (rule : Nat) (dir : DirStat) (shares : List Share) : List Share :=
  if dir.users.isEmpty && dir.groups.isEmpty then shares
  else alter rule (fun share => share.absorb dir.users dir.groups) shares

/-- Adds all shares of `other` to an ascending list. -/
def merge (shares other : List Share) : List Share :=
  other.foldl (fun shares share =>
    alter share.rule (fun own => own.absorb share.users share.groups) shares) shares

/-- The number of files and their size, for this rule. -/
def totals (share : Share) : Nat × Nat := Tally.totals share.users

/-- The place of `rule` in a list, found by halving. In an ascending list this is the place where
it stands; in any other it may be missed. -/
def locate (shares : Array Share) (rule : Nat) : Nat → Nat → Nat → Nat
  | 0, base, _ => base
  | fuel + 1, base, size =>
    if size ≤ 1 then base
    else
      let half := size / 2
      let middle := base + half
      let base := if rule < (shares.getD middle default).rule then base else middle
      locate shares rule fuel base (size - half)

/-- The share of `rule` in an ascending list. -/
def find? (rule : Nat) (shares : List Share) : Option Share :=
  let shares := shares.toArray
  (shares[locate shares rule shares.size 0 shares.size]?).filter (·.rule == rule)

end Share
end BackupAtlas
