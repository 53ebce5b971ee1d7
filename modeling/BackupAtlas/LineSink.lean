import BackupAtlas.Disk

namespace BackupAtlas

/-- A file that is being written, with what has not been passed on to it yet. -/
structure Stream where
  file : OpenFile
  pending : Bytes := []
  deriving DecidableEq, Repr

namespace Stream

/-- How much is collected before it is passed on. -/
def capacity : Nat := 16384

/-- Passes on what has been collected. If that fails it stays collected. -/
def flush (stream : Stream) (disk : Disk) : Stream × Disk :=
  if stream.pending = [] then (stream, disk)
  else
    match Disk.Call.write stream.pending stream.file disk with
    | .ok () disk => ({ stream with pending := [] }, disk)
    | .error _ disk => (stream, disk)

/-- Takes data for which there is room, and tells whether it was taken. Data as large as all the
room is passed on at once. -/
def take (stream : Stream) (data : Bytes) (disk : Disk) : Bool × Stream × Disk :=
  if data.length < capacity then (true, { stream with pending := stream.pending ++ data }, disk)
  else
    match Disk.Call.write data stream.file disk with
    | .ok () disk => (true, stream, disk)
    | .error _ disk => (false, stream, disk)

/-- Adds data, and tells whether it was taken. Room for it is made first. -/
def add (stream : Stream) (data : Bytes) (disk : Disk) : Bool × Stream × Disk :=
  if data.length ≤ capacity - stream.pending.length then stream.take data disk
  else
    let (stream, disk) := stream.flush disk
    if stream.pending = [] then stream.take data disk else (false, stream, disk)

/-- Passes on what it can and closes the file. What cannot be passed on is lost. -/
def close (stream : Stream) (disk : Disk) : Disk := (stream.flush disk).2

end Stream

/-- Where lines go at the moment. -/
inductive Outlet where
  /-- To the file they are meant for. -/
  | primary
  /-- To the second file. -/
  | fallback
  | console
  | nowhere
  deriving DecidableEq, Repr

namespace Outlet

def label : Outlet → String
  | primary => "normal"
  | fallback => "fallback"
  | console => "stderr"
  | nowhere => "discard"

/-- How far from being nowhere. -/
def rank : Outlet → Nat
  | primary => 3
  | fallback => 2
  | console => 1
  | nowhere => 0

/-- Whether lines are meant to go to a file. -/
def hasFile : Outlet → Bool
  | primary | fallback => true
  | console | nowhere => false

end Outlet

structure SinkSettings where
  path : String
  fallback : Option String := none
  /-- A file is set aside before it grows beyond this many bytes. -/
  maxSize : Nat
  /-- The number of files that are kept besides the one being written. -/
  keep : Nat
  /-- After this many milliseconds a file is brought up to date. -/
  syncInterval : Nat
  deriving DecidableEq, Repr

/-- Where the lines of a journal go. They are collected in memory and passed on to a file, which is
set aside under a number when it would grow too large; the oldest file goes when there are too many.
When a file fails, lines go to a second file, and then to the console. -/
structure LineSink where
  settings : SinkSettings
  outlet : Outlet := .nowhere
  /-- The file that is open. -/
  stream : Option Stream := none
  /-- The size of the file being written, with what is still collected. -/
  size : Nat := 0
  /-- When the file was last brought up to date, in milliseconds. -/
  synced : Nat
  /-- The lines that went to the console. -/
  console : List Bytes := []
  deriving DecidableEq, Repr

namespace LineSink

/-- The name under which the file at `path` is set aside. -/
def numbered (path : String) (number : Nat) : String := s!"{path}.{number}"

def flush (sink : LineSink) (disk : Disk) : LineSink × Disk :=
  match sink.stream with
  | none => (sink, disk)
  | some stream =>
    let (stream, disk) := stream.flush disk
    ({ sink with stream := some stream }, disk)

/-- Brings the file up to date. -/
def sync (sink : LineSink) (now : Nat) (disk : Disk) : LineSink × Disk :=
  let (sink, disk) := sink.flush disk
  ({ sink with synced := now }, disk)

def close (sink : LineSink) (disk : Disk) : Disk :=
  match sink.stream with
  | none => disk
  | some stream => stream.close disk

/-- Goes on without a file. -/
def release (sink : LineSink) (disk : Disk) : LineSink × Disk :=
  ({ sink with stream := none }, sink.close disk)

/-- Goes on with a file that has been opened. -/
def install (file : OpenFile) (size : Nat) (outlet : Outlet) (sink : LineSink) (disk : Disk) :
    LineSink × Disk :=
  ({ sink with outlet, stream := some { file }, size }, sink.close disk)

/-- Turns to the second file, or to the console if there is none that can be opened. -/
def openFallback (sink : LineSink) (disk : Disk) : LineSink × Disk :=
  match sink.settings.fallback with
  | none => release { sink with outlet := .console } disk
  | some path =>
    match Disk.Call.openAppend path disk with
    | .ok (file, size) disk => sink.install file size .fallback disk
    | .error _ disk => release { sink with outlet := .console } disk

/-- Opens the file that lines are meant for, or else turns to the second one. -/
def start (settings : SinkSettings) (now : Nat) (disk : Disk) : LineSink × Disk :=
  let sink : LineSink := { settings, synced := now }
  match Disk.Call.openAppend settings.path disk with
  | .ok (file, size) disk => sink.install file size .primary disk
  | .error _ disk => sink.openFallback disk

/-- Gives up an outlet that has failed, and turns to the next. -/
def degrade (sink : LineSink) (disk : Disk) : LineSink × Disk :=
  let (sink, disk) := sink.release disk
  match sink.outlet with
  | .primary => sink.openFallback disk
  | .fallback => ({ sink with outlet := .console }, disk)
  | .console | .nowhere => ({ sink with outlet := .nowhere }, disk)

/-- Goes back to the file that lines are meant for, if it can be opened again. -/
def recover (sink : LineSink) (disk : Disk) : LineSink × Disk :=
  match sink.outlet with
  | .primary => (sink, disk)
  | _ =>
    match Disk.Call.openAppend sink.settings.path disk with
    | .error _ disk => (sink, disk)
    | .ok (file, size) disk =>
      let (sink, disk) := sink.flush disk
      sink.install file size .primary disk

def path? (sink : LineSink) : Option String :=
  match sink.outlet with
  | .primary => some sink.settings.path
  | .fallback => sink.settings.fallback
  | .console | .nowhere => none

/-- Makes a call whose failure does not matter. -/
def attempt (call : Disk.Call Unit) (disk : Disk) : Disk := (call.answer? disk).2

/-- The calls that set the file at `path` aside: the last of the files set aside before goes, and
the others move up by one. -/
def asideCalls (path : String) (keep : Nat) : List (Disk.Call Unit) :=
  .remove (numbered path keep) ::
    (List.range (keep - 1)).reverse.map
      (fun i => .rename (numbered path (i + 1)) (numbered path (i + 2))) ++
    [if keep = 0 then .remove path else .rename path (numbered path 1)]

def setAside (path : String) (keep : Nat) (disk : Disk) : Disk :=
  (asideCalls path keep).foldl (fun disk call => attempt call disk) disk

/-- Sets the file being written aside and starts a new one in its place. -/
def rotate (sink : LineSink) (disk : Disk) : LineSink × Disk :=
  let (sink, disk) := sink.flush disk
  let (sink, disk) := sink.release disk
  match sink.path? with
  | none => (sink, disk)
  | some path =>
    let disk := setAside path sink.settings.keep disk
    match Disk.Call.openAppend path disk with
    | .ok (file, _) disk => sink.install file 0 sink.outlet disk
    | .error _ disk => sink.degrade disk

/-- Starts a new file if a line of the given length would make the present one too large. -/
def makeRoom (sink : LineSink) (length : Nat) (disk : Disk) : LineSink × Disk :=
  if sink.stream.isSome && sink.settings.maxSize < sink.size + length then sink.rotate disk
  else (sink, disk)

/-- Hands a line to the file, and tells whether it was taken. -/
def hand (line : Bytes) (sink : LineSink) (disk : Disk) : Bool × LineSink × Disk :=
  match sink.stream with
  | none => (false, sink, disk)
  | some stream =>
    let (taken, stream, disk) := stream.add line disk
    (taken, { sink with stream := some stream }, disk)

/-- Takes note of a line of the given length that has been taken, and brings the file up to date
if that has not been done for long. -/
def noteTaken (sink : LineSink) (length now : Nat) (disk : Disk) : LineSink × Disk :=
  let sink := { sink with size := sink.size + length }
  if sink.settings.syncInterval ≤ now - sink.synced then sink.sync now disk else (sink, disk)

/-- Tries to write a line, and tells whether that is all. A file that does not take it is given
up. -/
def tryWrite (line : Bytes) (now : Nat) (sink : LineSink) (disk : Disk) : Bool × LineSink × Disk :=
  let (sink, disk) := sink.makeRoom line.length disk
  match sink.outlet with
  | .primary | .fallback =>
    let (taken, sink, disk) := sink.hand line disk
    if taken then (true, sink.noteTaken line.length now disk) else (false, sink.degrade disk)
  | .console => (true, { sink with console := sink.console ++ [line] }, disk)
  | .nowhere => (true, sink, disk)

theorem flush_outlet (sink : LineSink) (disk : Disk) : (sink.flush disk).1.outlet = sink.outlet := by
  unfold flush
  split <;> rfl

theorem hand_outlet (line : Bytes) (sink : LineSink) (disk : Disk) :
    (sink.hand line disk).2.1.outlet = sink.outlet := by
  unfold hand
  split <;> rfl

theorem rank_openFallback (sink : LineSink) (disk : Disk) :
    (sink.openFallback disk).1.outlet.rank ≤ 2 := by
  unfold openFallback
  split
  · exact Nat.le_succ 1
  · split
    · exact Nat.le_refl 2
    · exact Nat.le_succ 1

/-- An outlet with a file gives way to a lower one. -/
theorem rank_degrade_lt {sink : LineSink} (active : sink.outlet.hasFile) (disk : Disk) :
    (sink.degrade disk).1.outlet.rank < sink.outlet.rank := by
  simp only [degrade, release]
  cases outlet : sink.outlet with
  | primary => exact Nat.lt_succ_of_le (rank_openFallback _ _)
  | fallback => exact Nat.le_refl 2
  | console => simp only [outlet, Outlet.hasFile, Bool.false_eq_true] at active
  | nowhere => simp only [outlet, Outlet.hasFile, Bool.false_eq_true] at active

theorem hasFile_of_path? {sink : LineSink} {path : String} (active : sink.path? = some path) :
    sink.outlet.hasFile := by
  unfold path? at active
  cases outlet : sink.outlet with
  | primary => rfl
  | fallback => rfl
  | console => simp only [outlet, reduceCtorEq] at active
  | nowhere => simp only [outlet, reduceCtorEq] at active

theorem rank_rotate_le (sink : LineSink) (disk : Disk) :
    (sink.rotate disk).1.outlet.rank ≤ sink.outlet.rank := by
  have same : ((sink.flush disk).1.release (sink.flush disk).2).1.outlet = sink.outlet :=
    flush_outlet sink disk
  rw [← same]
  simp only [rotate]
  split
  · exact Nat.le_refl _
  · rename_i path active
    split
    · exact Nat.le_refl _
    · exact Nat.le_of_lt (rank_degrade_lt (hasFile_of_path? active) _)

theorem rank_makeRoom_le (sink : LineSink) (length : Nat) (disk : Disk) :
    (sink.makeRoom length disk).1.outlet.rank ≤ sink.outlet.rank := by
  unfold makeRoom
  split
  · exact rank_rotate_le sink disk
  · exact Nat.le_refl _

/-- If there is more to do, the next outlet is a lower one. -/
theorem rank_tryWrite_lt {line : Bytes} {now : Nat} {sink : LineSink} {disk : Disk}
    (more : (sink.tryWrite line now disk).1 = false) :
    (sink.tryWrite line now disk).2.1.outlet.rank < sink.outlet.rank := by
  have room := rank_makeRoom_le sink line.length disk
  generalize made : sink.makeRoom line.length disk = ready at room
  have same := hand_outlet line ready.1 ready.2
  have gives : ready.1.outlet.hasFile → ((ready.1.hand line ready.2).2.1.degrade
      (ready.1.hand line ready.2).2.2).1.outlet.rank < sink.outlet.rank := fun active =>
    Nat.lt_of_lt_of_le (rank_degrade_lt (by rw [same]; exact active) _) (same ▸ room)
  simp only [tryWrite, made] at more ⊢
  cases outlet : ready.1.outlet with
  | primary =>
    simp only [outlet] at more gives ⊢
    split at more
    · cases more
    · rename_i refused
      rw [if_neg refused]
      exact gives rfl
  | fallback =>
    simp only [outlet] at more gives ⊢
    split at more
    · cases more
    · rename_i refused
      rw [if_neg refused]
      exact gives rfl
  | console => simp only [outlet, Bool.true_eq_false] at more
  | nowhere => simp only [outlet, Bool.true_eq_false] at more

/-- Writes a line, to the next outlet if the present one does not take it. -/
def write (line : Bytes) (now : Nat) (sink : LineSink) (disk : Disk) : LineSink × Disk :=
  let tried := sink.tryWrite line now disk
  if _ : tried.1 = false then write line now tried.2.1 tried.2.2 else tried.2
termination_by sink.outlet.rank
decreasing_by exact rank_tryWrite_lt ‹_›

end LineSink
end BackupAtlas
