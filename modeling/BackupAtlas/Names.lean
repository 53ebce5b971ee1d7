import BackupAtlas.Overlay

namespace BackupAtlas

/-- What a number stands for. -/
inductive Principal where
  | user (id : Nat)
  | group (id : Nat)
  deriving DecidableEq, Repr

namespace Principal

def id : Principal → Nat
  | user id | group id => id

end Principal

/-- A way to name users and groups. -/
abbrev Naming := Principal → String

/-- The names of users and groups. Figures carry numbers only; names are put in when figures are
shown. -/
structure NameTable where
  entries : List (Principal × String) := []
  deriving DecidableEq, Repr

namespace NameTable

/-- Names a user or a group, in place of an earlier name. -/
def insert (table : NameTable) (principal : Principal) (name : String) : NameTable :=
  { entries := (principal, name) :: table.entries }

/-- The name in the table, or else the number in decimal. -/
def name (table : NameTable) : Naming := fun principal =>
  match table.entries.lookup principal with
  | some name => name
  | none => toString principal.id

end NameTable

namespace Digest

/-- Puts names to the owner and to all tallies. -/
def named (naming : Naming) (digest : Digest) : Digest :=
  let label := fun (principal : Nat → Principal) (tally : Tally) =>
    { tally with name := naming (principal tally.id) }
  { digest with
    user := naming (.user digest.uid)
    group := naming (.group digest.gid)
    shares := digest.shares.map fun share =>
      { share with
        users := share.users.map (label .user)
        groups := share.groups.map (label .group) } }

end Digest

/-- Puts names to the figures of a directory and of its subdirectories. -/
def Summary.named (naming : Naming) (summary : Summary) : Summary :=
  { digest := summary.digest.named naming
    children := summary.children.map (·.named naming) }

structure CachedName where
  name : String
  /-- What the clock read when the name was asked for. -/
  asked : Nat
  deriving DecidableEq, Repr

/-- Names that were asked for, each kept for a limited time. Those that are too old are asked for
again. -/
structure NameCache where
  /-- How long a name is good, in ticks of the clock. -/
  lifetime : Nat
  entries : List (Principal × CachedName) := []
  deriving DecidableEq, Repr

namespace NameCache

def get? (cache : NameCache) (principal : Principal) : Option CachedName :=
  cache.entries.lookup principal

/-- Whether a cached name is still good. A name from the future is, as clocks may run back. -/
def isGood (cache : NameCache) (now : Nat) (entry : CachedName) : Bool :=
  now - entry.asked ≤ cache.lifetime

/-- The good name of a user or group in the cache, if there is one. -/
def good? (cache : NameCache) (principal : Principal) (now : Nat) : Option String :=
  ((cache.get? principal).filter (cache.isGood now)).map (·.name)

/-- Keeps a name, in place of an earlier one. -/
def insert (cache : NameCache) (principal : Principal) (entry : CachedName) : NameCache :=
  { cache with
    entries := (principal, entry) :: cache.entries.filter fun (key, _) => key ≠ principal }

section

variable {m : Type → Type} [Monad m]

/-- The name at the time `now`, which is asked for in turn unless the cache has a good one. -/
def nameFrom (cache : NameCache) (ask : Principal → m String) (principal : Principal) (now : Nat) :
    m (String × NameCache) :=
  match cache.good? principal now with
  | some name => pure (name, cache)
  | none => do
    let name ← ask principal
    return (name, cache.insert principal { name, asked := now })

end

/-- The name at the time `now`, where asking for one changes nothing. -/
def nameAt (cache : NameCache) (naming : Naming) (principal : Principal) (now : Nat) :
    String × NameCache :=
  Id.run (cache.nameFrom (fun principal => pure (naming principal)) principal now)

def clear (cache : NameCache) : NameCache := { cache with entries := [] }

end NameCache
end BackupAtlas
