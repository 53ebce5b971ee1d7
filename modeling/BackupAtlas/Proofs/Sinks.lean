import BackupAtlas.LineSink
import BackupAtlas.Proofs.Disks

namespace BackupAtlas

namespace Disk

/-- Nothing that was written is gone. -/
structure Grows (before after : Disk) : Prop where
  written : ∀ file, before.written file <+: after.written file
  has : ∀ file, before.Has file → after.Has file
  held : before.Held → after.Held

theorem Grows.refl (disk : Disk) : disk.Grows disk := ⟨fun _ => List.prefix_refl _, fun _ => id, id⟩

theorem Grows.trans {first second third : Disk} (one : first.Grows second) (two : second.Grows third) :
    first.Grows third where
  written file := (one.written file).trans (two.written file)
  has file has := two.has file (one.has file has)
  held held := two.held (one.held held)

theorem Keeps.grows {before after : Disk} (keeps : before.Keeps after) : before.Grows after where
  written file := keeps.written file ▸ List.prefix_refl _
  has _ := keeps.has
  held := keeps.held

theorem WritesTo.grows {file : OpenFile} {before after : Disk} (writes : before.WritesTo file after)
    (more : before.written file <+: after.written file) : before.Grows after where
  written other := by
    by_cases same : other = file
    · exact same ▸ more
    · exact writes.others other same ▸ List.prefix_refl _
  has other has := by
    cases other with
    | file number => exact Nat.lt_of_lt_of_eq has writes.length.symm
    | device => trivial
  held held name number named := by
    rw [writes.length]
    exact held name number (writes.names ▸ named)

end Disk

namespace Stream

variable {stream : Stream} {disk : Disk}

/-- What the file holds, with what has been collected for it. -/
def text (stream : Stream) (disk : Disk) : Bytes := disk.written stream.file ++ stream.pending

/-- What has been collected may be passed on to the file, and more may be collected. -/
structure Proceeds (before after : Stream × Disk) : Prop where
  file : after.1.file = before.1.file
  writes : before.2.WritesTo before.1.file after.2
  more : before.2.written before.1.file <+: after.2.written before.1.file

theorem Proceeds.grows {before after : Stream × Disk} (proceeds : Proceeds before after) : before.2.Grows after.2 :=
  proceeds.writes.grows proceeds.more

theorem Proceeds.trans {first second third : Stream × Disk} (one : Proceeds first second)
    (two : Proceeds second third) : Proceeds first third where
  file := two.file.trans one.file
  writes := one.writes.trans (one.file ▸ two.writes)
  more := one.more.trans (one.file ▸ two.more)

/-- Flushing takes what was collected to the file, whole. -/
theorem flush_proceeds (has : disk.Has stream.file) :
    Proceeds (stream, disk) (stream.flush disk) ∧
      (stream.flush disk).1.text (stream.flush disk).2 = stream.text disk := by
  unfold flush
  split
  · exact ⟨⟨rfl, .refl _ _, List.prefix_refl _⟩, rfl⟩
  · have ends := Disk.Call.write_ends has stream.pending
    cases ran : Disk.Call.write stream.pending stream.file disk with
    | ok u after =>
      obtain ⟨writes, written⟩ := ran ▸ ends
      refine ⟨⟨rfl, writes, written ▸ List.prefix_append _ _⟩, ?_⟩
      rw [text, text, written, List.append_nil]
    | error fault after =>
      obtain ⟨writes, written⟩ := ran ▸ ends
      refine ⟨⟨rfl, writes, written ▸ List.prefix_refl _⟩, ?_⟩
      rw [text, text, written]

/-- Data that takes all the room can be taken only if nothing has been collected before. -/
theorem take_proceeds (has : disk.Has stream.file) {data : Bytes}
    (room : capacity ≤ data.length → stream.pending = []) :
    Proceeds (stream, disk) (stream.take data disk).2 ∧ (stream.take data disk).2.1.text (stream.take data disk).2.2 =
      stream.text disk ++ if (stream.take data disk).1 then data else [] := by
  unfold take
  split
  · exact ⟨⟨rfl, .refl _ _, List.prefix_refl _⟩, by rw [text, text, if_pos rfl, List.append_assoc]⟩
  rename_i large
  have empty := room (Nat.le_of_not_lt large)
  have ends := Disk.Call.write_ends has data
  cases ran : Disk.Call.write data stream.file disk with
  | ok u after =>
    obtain ⟨writes, written⟩ := ran ▸ ends
    refine ⟨⟨rfl, writes, written ▸ List.prefix_append _ _⟩, ?_⟩
    rw [text, text, written, empty, if_pos rfl, List.append_nil, List.append_nil]
  | error fault after =>
    obtain ⟨writes, written⟩ := ran ▸ ends
    refine ⟨⟨rfl, writes, written ▸ List.prefix_refl _⟩, ?_⟩
    rw [text, text, written, if_neg Bool.false_ne_true, List.append_nil]

/-- Data that is taken is added at the end, be it collected or passed on at once. -/
theorem add_proceeds (has : disk.Has stream.file) (data : Bytes) :
    Proceeds (stream, disk) (stream.add data disk).2 ∧ (stream.add data disk).2.1.text (stream.add data disk).2.2 =
      stream.text disk ++ if (stream.add data disk).1 then data else [] := by
  unfold add
  split
  · rename_i fits
    refine take_proceeds has fun large => List.length_eq_zero_iff.mp ?_
    simp only [capacity] at *
    omega
  obtain ⟨proceeds, same⟩ := flush_proceeds has
  dsimp only
  split
  · rename_i empty
    have room : capacity ≤ data.length → (stream.flush disk).1.pending = [] := fun _ => empty
    obtain ⟨next, added⟩ := take_proceeds (proceeds.grows.has _ (proceeds.file ▸ has)) room
    exact ⟨proceeds.trans next, by rw [added, same]⟩
  · exact ⟨proceeds, by rw [same, if_neg Bool.false_ne_true, List.append_nil]⟩

theorem close_proceeds (has : disk.Has stream.file) :
    disk.Grows (stream.close disk) ∧ (stream.close disk).entries = disk.entries ∧
      (stream.close disk).written stream.file <+: stream.text disk ∧
      ∀ other, other ≠ stream.file → (stream.close disk).written other = disk.written other := by
  obtain ⟨proceeds, same⟩ := flush_proceeds has
  refine ⟨proceeds.grows, proceeds.writes.names, ?_, proceeds.writes.others⟩
  rw [← same, text, proceeds.file]
  exact List.prefix_append _ _

end Stream

namespace LineSink

-- Runs of calls are not to be unfolded.
attribute [local irreducible] Disk.check

variable {sink : LineSink} {disk : Disk} {path : String} {file : OpenFile}

/-- The file that is open. -/
def file? (sink : LineSink) : Option OpenFile := sink.stream.map (·.file)

/-- What has been collected for a file. -/
def collected (sink : LineSink) (file : OpenFile) : Bytes :=
  match sink.stream with
  | some stream => if stream.file = file then stream.pending else []
  | none => []

/-- What a file holds, with what has been collected for it. -/
def text (sink : LineSink) (disk : Disk) (file : OpenFile) : Bytes := disk.written file ++ sink.collected file

theorem collected_bare (bare : ∀ stream, sink.stream = some stream → stream.pending = []) (file : OpenFile) :
    sink.collected file = [] := by
  unfold collected
  cases opened : sink.stream with
  | none => rfl
  | some stream => simp only [bare stream opened, ite_self]

theorem text_stream {stream : Stream} (opened : sink.stream = some stream) :
    sink.text disk stream.file = stream.text disk := by
  simp only [text, collected, opened, if_pos, Stream.text]

theorem text_other {stream : Stream} (opened : sink.stream = some stream) (apart : file ≠ stream.file) :
    sink.text disk file = disk.written file := by
  simp only [text, collected, opened, if_neg (Ne.symm apart), List.append_nil]

/-- Whether the file that is open is there. -/
def Holds (sink : LineSink) (disk : Disk) : Prop := ∀ file, sink.file? = some file → disk.Has file

theorem Holds.stream {stream : Stream} (holds : sink.Holds disk) (opened : sink.stream = some stream) :
    disk.Has stream.file := holds stream.file (by rw [file?, opened]; rfl)

theorem Holds.keeps {after : Disk} (holds : sink.Holds disk) (keeps : disk.Keeps after) : sink.Holds after :=
  fun file opened => keeps.has (holds file opened)

theorem holds_closed (closed : sink.stream = none) : sink.Holds disk := by
  intro file opened
  rw [file?, closed] at opened
  cases opened

/-- The length that is taken note of is that of the file. -/
def Accurate (sink : LineSink) (disk : Disk) : Prop :=
  ∀ file, sink.file? = some file → sink.size = (sink.text disk file).length

/-- A file is open if lines are meant to go to one, and it is what the path in use leads to. -/
structure Settled (sink : LineSink) (disk : Disk) : Prop where
  held : disk.Held
  active : sink.file?.isSome = sink.outlet.hasFile
  there : sink.outlet ≠ .nowhere
  leads : ∀ file, sink.file? = some file → ∃ path, sink.path? = some path ∧ disk.Leads path file

theorem Settled.holds (settled : sink.Settled disk) : sink.Holds disk := by
  intro file opened
  obtain ⟨_, _, leads⟩ := settled.leads file opened
  exact leads.has settled.held

theorem Settled.extends {after : Disk} (settled : sink.Settled disk) (keeps : disk.Keeps after)
    (extended : disk.Extends after) : sink.Settled after where
  held := keeps.held settled.held
  active := settled.active
  there := settled.there
  leads file opened :=
    have ⟨path, used, leads⟩ := settled.leads file opened
    ⟨path, used, leads.extends extended⟩

/-- The file stays open, and data is added to it. -/
structure Takes (data : Bytes) (before after : LineSink × Disk) : Prop where
  settings : after.1.settings = before.1.settings
  outlet : after.1.outlet = before.1.outlet
  console : after.1.console = before.1.console
  file : after.1.file? = before.1.file?
  names : after.2.entries = before.2.entries
  grows : before.2.Grows after.2
  text : ∀ file, after.1.text after.2 file =
    before.1.text before.2 file ++ if before.1.file? = some file then data else []

namespace Takes

variable {data : Bytes} {before after : LineSink × Disk}

theorem refl (state : LineSink × Disk) : Takes [] state state :=
  ⟨rfl, rfl, rfl, rfl, rfl, .refl _, fun _ => by rw [ite_self, List.append_nil]⟩

theorem trans {more : Bytes} {last : LineSink × Disk} (one : Takes data before after) (two : Takes more after last) :
    Takes (data ++ more) before last where
  settings := two.settings.trans one.settings
  outlet := two.outlet.trans one.outlet
  console := two.console.trans one.console
  file := two.file.trans one.file
  names := two.names.trans one.names
  grows := one.grows.trans two.grows
  text file := by
    rw [two.text, one.text, one.file, List.append_assoc]
    split <;> rfl

theorem settled (takes : Takes data before after) (settled : before.1.Settled before.2) : after.1.Settled after.2 where
  held := takes.grows.held settled.held
  active := by rw [takes.file, takes.outlet, settled.active]
  there := takes.outlet ▸ settled.there
  leads file opened := by
    obtain ⟨path, used, leads⟩ := settled.leads file (takes.file ▸ opened)
    exact ⟨path, by rw [← used, path?, path?, takes.outlet, takes.settings], leads.extends (.of_entries takes.names)⟩

theorem accurate (takes : Takes data before after) (accurate : before.1.Accurate before.2)
    (size : after.1.size = before.1.size + data.length) : after.1.Accurate after.2 := by
  intro file opened
  rw [takes.file] at opened
  rw [takes.text, if_pos opened, List.length_append, size, accurate file opened]

/-- While a file stays open, only what goes to it changes. -/
theorem of_proceeds {stream : Stream} {next : Stream × Disk} (opened : sink.stream = some stream)
    (proceeds : Stream.Proceeds (stream, disk) next) (added : next.1.text next.2 = stream.text disk ++ data) :
    Takes data (sink, disk) ({ sink with stream := some next.1 }, next.2) where
  settings := rfl
  outlet := rfl
  console := rfl
  file := by simp only [file?, opened, Option.map_some, proceeds.file]
  names := proceeds.writes.names
  grows := proceeds.grows
  text file := by
    have now : ({ sink with stream := some next.1 } : LineSink).stream = some next.1 := rfl
    by_cases same : file = stream.file
    · subst same
      have this : sink.file? = some stream.file := by rw [file?, opened]; rfl
      rw [if_pos this, text_stream opened, ← added, ← text_stream now, proceeds.file]
    · have other : sink.file? ≠ some file := by
        rw [file?, opened]
        exact fun this => same (Option.some.inj this).symm
      have apart : file ≠ next.1.file := proceeds.file ▸ same
      rw [if_neg other, List.append_nil, text_other opened same, text_other now apart,
        proceeds.writes.others file same]

end Takes

theorem flush_takes (holds : sink.Holds disk) : Takes [] (sink, disk) (sink.flush disk) := by
  unfold flush
  split
  · exact .refl _
  · rename_i stream opened
    obtain ⟨proceeds, same⟩ := Stream.flush_proceeds (holds.stream opened)
    exact .of_proceeds opened proceeds (same.trans (List.append_nil _).symm)

theorem sync_takes (holds : sink.Holds disk) (now : Nat) : Takes [] (sink, disk) (sink.sync now disk) :=
  have flushed := flush_takes holds
  ⟨flushed.settings, flushed.outlet, flushed.console, flushed.file, flushed.names, flushed.grows, flushed.text⟩

theorem hand_takes (holds : sink.Holds disk) (line : Bytes) :
    Takes (if (sink.hand line disk).1 then line else []) (sink, disk) (sink.hand line disk).2 := by
  unfold hand
  split
  · exact .refl _
  · rename_i stream opened
    obtain ⟨proceeds, added⟩ := Stream.add_proceeds (holds.stream opened) line
    exact .of_proceeds opened proceeds added

/-- Nothing is added to any file or to the console: what has been collected is passed on or lost. -/
structure Quiet (before after : LineSink × Disk) : Prop where
  settings : after.1.settings = before.1.settings
  console : after.1.console = before.1.console
  grows : before.2.Grows after.2
  text : ∀ file, after.1.text after.2 file <+: before.1.text before.2 file

theorem Quiet.refl (state : LineSink × Disk) : Quiet state state := ⟨rfl, rfl, .refl _, fun _ => List.prefix_refl _⟩

theorem Quiet.trans {first second third : LineSink × Disk} (one : Quiet first second) (two : Quiet second third) :
    Quiet first third where
  settings := two.settings.trans one.settings
  console := two.console.trans one.console
  grows := one.grows.trans two.grows
  text file := (two.text file).trans (one.text file)

theorem Takes.quiet {before after : LineSink × Disk} (takes : Takes [] before after) : Quiet before after where
  settings := takes.settings
  console := takes.console
  grows := takes.grows
  text file := ⟨[], by rw [takes.text, ite_self, List.append_nil, List.append_nil]⟩

theorem quiet_keeps {after : Disk} (keeps : disk.Keeps after) : Quiet (sink, disk) (sink, after) where
  settings := rfl
  console := rfl
  grows := keeps.grows
  text file := ⟨[], by rw [List.append_nil, text, text, keeps.written]⟩

theorem close_eq_none (closed : sink.stream = none) : sink.close disk = disk := by rw [close, closed]

theorem close_grows (holds : sink.Holds disk) :
    disk.Grows (sink.close disk) ∧ (sink.close disk).entries = disk.entries ∧
      ∀ file, (sink.close disk).written file <+: sink.text disk file := by
  unfold close
  cases opened : sink.stream with
  | none => exact ⟨.refl _, rfl, fun file => List.prefix_append _ _⟩
  | some stream =>
    obtain ⟨grows, names, within, others⟩ := Stream.close_proceeds (holds.stream opened)
    refine ⟨grows, names, fun file => ?_⟩
    by_cases same : file = stream.file
    · subst same
      rw [text_stream opened]
      exact within
    · exact ⟨[], by rw [List.append_nil, text_other opened same, others file same]⟩

/-- The file is closed, and the sink goes on with one for which nothing has been collected, or without any. -/
theorem closed_quiet (holds : sink.Holds disk) {next : LineSink} (settings : next.settings = sink.settings)
    (console : next.console = sink.console) (bare : ∀ stream, next.stream = some stream → stream.pending = []) :
    Quiet (sink, disk) (next, sink.close disk) := by
  obtain ⟨grows, _, within⟩ := close_grows holds
  refine ⟨settings, console, grows, fun file => ?_⟩
  rw [text, collected_bare bare, List.append_nil]
  exact within file

theorem accurate_closed (closed : sink.stream = none) : sink.Accurate disk := by
  intro file opened
  rw [file?, closed] at opened
  cases opened

theorem accurate_fresh (fresh : sink.stream = some { file }) : sink.Accurate disk ↔ sink.size = disk.size file := by
  have bare : ∀ stream, sink.stream = some stream → stream.pending = [] := by
    rw [fresh]
    rintro _ ⟨⟩
    rfl
  simp only [Accurate, file?, fresh, Option.map_some, Option.some.injEq, forall_eq', text, collected_bare bare,
    List.append_nil, Disk.size_eq]

theorem Settled.fresh (held : disk.Held) (leads : disk.Leads path file) (fresh : sink.stream = some { file })
    (used : sink.path? = some path) : sink.Settled disk where
  held := held
  active := by rw [file?, fresh, hasFile_of_path? used]; rfl
  there nowhere := by simp only [path?, nowhere, reduceCtorEq] at used
  leads := by
    rw [file?, fresh]
    rintro _ ⟨⟩
    exact ⟨path, used, leads⟩

/-- A sink is settled when it has turned to a file that its path leads to. -/
theorem install_settled {outlet : Outlet} (holds : sink.Holds disk) (held : disk.Held) (leads : disk.Leads path file)
    (size : Nat) (used : ({ sink with outlet } : LineSink).path? = some path) :
    Quiet (sink, disk) (sink.install file size outlet disk) ∧
      (sink.install file size outlet disk).1.Settled (sink.install file size outlet disk).2 := by
  have quiet : Quiet (sink, disk) (sink.install file size outlet disk) :=
    closed_quiet holds rfl rfl (by rintro _ ⟨⟩; rfl)
  exact ⟨quiet, .fresh (quiet.grows.held held) (leads.extends (.of_entries (close_grows holds).2.1)) rfl used⟩

/-- Nothing has been added on the way, and where the sink has come to all is well. -/
structure Lands (before after : LineSink × Disk) : Prop where
  quiet : Quiet before after
  settled : after.1.Settled after.2
  accurate : after.1.Accurate after.2

theorem Lands.after {first second third : LineSink × Disk} (lands : Lands second third) (quiet : Quiet first second) :
    Lands first third := ⟨quiet.trans lands.quiet, lands.settled, lands.accurate⟩

theorem install_lands {size : Nat} {outlet : Outlet} {after : Disk} (held : disk.Held) (closed : sink.stream = none)
    (used : ({ sink with outlet } : LineSink).path? = some path)
    (ran : Disk.Call.openAppend path disk = .ok (file, size) after) :
    Lands (sink, disk) (sink.install file size outlet after) := by
  obtain ⟨keeps, _, leads, told⟩ := Disk.Call.openAppend_of_ok ran
  obtain ⟨quiet, settled⟩ := install_settled (holds_closed closed) (keeps.held held) leads size used
  refine ⟨(quiet_keeps keeps).trans quiet, settled, (accurate_fresh rfl).mpr ?_⟩
  exact told.trans (congrArg (Disk.size · file) (close_eq_none closed)).symm

theorem console_lands (held : disk.Held) (holds : sink.Holds disk) :
    Lands (sink, disk) ({ sink with outlet := .console, stream := none }, sink.close disk) := by
  have quiet : Quiet (sink, disk) ({ sink with outlet := .console, stream := none }, sink.close disk) :=
    closed_quiet holds rfl rfl nofun
  exact ⟨quiet, ⟨quiet.grows.held held, rfl, nofun, nofun⟩, accurate_closed rfl⟩

theorem openFallback_lands (held : disk.Held) (closed : sink.stream = none) :
    Lands (sink, disk) (sink.openFallback disk) := by
  unfold openFallback
  split
  · exact console_lands held (holds_closed closed)
  rename_i path meant
  split <;> rename_i ran
  · exact install_lands held closed meant ran
  · have keeps := Disk.Call.openAppend_keepsFiles path disk
    rw [ran] at keeps
    exact (console_lands (keeps.held held) (holds_closed closed)).after (quiet_keeps keeps)

/-- Giving up on a file lands at the fallback or at the console, with nothing added to any file. -/
theorem degrade_lands (held : disk.Held) (holds : sink.Holds disk) (active : sink.outlet.hasFile) :
    Lands (sink, disk) (sink.degrade disk) := by
  cases outlet : sink.outlet with
  | primary =>
    have quiet : Quiet (sink, disk) (sink.release disk) := closed_quiet holds rfl rfl nofun
    have next : sink.degrade disk = (sink.release disk).1.openFallback (sink.release disk).2 := by
      simp only [degrade, release, outlet]
    rw [next]
    exact (openFallback_lands (quiet.grows.held held) rfl).after quiet
  | fallback =>
    have next : sink.degrade disk = ({ sink with outlet := .console, stream := none }, sink.close disk) := by
      simp only [degrade, release, outlet]
    rw [next]
    exact console_lands held holds
  | console => rw [outlet] at active; cases active
  | nowhere => rw [outlet] at active; cases active

theorem start_lands (settings : SinkSettings) (now : Nat) (held : disk.Held) :
    Lands ({ settings, synced := now }, disk) (start settings now disk) := by
  unfold start
  dsimp only
  split <;> rename_i ran
  · exact install_lands held rfl rfl ran
  · have keeps := Disk.Call.openAppend_keepsFiles settings.path disk
    rw [ran] at keeps
    exact (openFallback_lands (keeps.held held) rfl).after (quiet_keeps keeps)

/-- Going back gives a file up for the one that lines are meant for, or changes nothing. -/
theorem recover_settled (settled : sink.Settled disk) :
    Quiet (sink, disk) (sink.recover disk) ∧ (sink.recover disk).1.Settled (sink.recover disk).2 ∧
      ((sink.recover disk).1.outlet = .primary ∨ (sink.recover disk).1.outlet = sink.outlet) := by
  unfold recover
  split
  · exact ⟨.refl _, settled, .inr rfl⟩
  have keeps := Disk.Call.openAppend_keepsFiles sink.settings.path disk
  have ends := Disk.Call.openAppend_ends sink.settings.path disk
  split <;> rename_i ran <;> rw [ran] at keeps ends
  · exact ⟨quiet_keeps keeps, settled.extends keeps ends, .inr rfl⟩
  · rename_i file size after
    have flushed := flush_takes (settled.holds.keeps keeps)
    have still := flushed.settled (settled.extends keeps ends.1)
    have leads := ends.2.1.extends (.of_entries flushed.names)
    have used : ({ (sink.flush after).1 with outlet := .primary } : LineSink).path? = some sink.settings.path :=
      congrArg (fun settings : SinkSettings => some settings.path) flushed.settings
    obtain ⟨quiet, settled⟩ := install_settled still.holds still.held leads size used
    exact ⟨((quiet_keeps keeps).trans flushed.quiet).trans quiet, settled, .inl rfl⟩

theorem attempt_keeps {call : Disk.Call Unit} (keeps : call.KeepsFiles) (disk : Disk) :
    disk.Keeps (attempt call disk) := by
  have ends := keeps disk
  unfold attempt Disk.Call.answer?
  cases ran : call disk <;> rw [ran] at ends <;> exact ends

theorem setAside_keeps (path : String) (keep : Nat) (disk : Disk) : disk.Keeps (setAside path keep disk) := by
  have all : ∀ call ∈ asideCalls path keep, call.KeepsFiles := by
    intro call member
    rcases List.mem_append.mp member with member | member
    · rcases List.mem_cons.mp member with rfl | member
      · exact Disk.Call.remove_keepsFiles _
      · obtain ⟨number, _, rfl⟩ := List.mem_map.mp member
        exact Disk.Call.rename_keepsFiles _ _
    · rw [List.mem_singleton.mp member]
      split
      · exact Disk.Call.remove_keepsFiles _
      · exact Disk.Call.rename_keepsFiles _ _
  unfold setAside
  generalize asideCalls path keep = calls at all
  induction calls generalizing disk with
  | nil => exact .refl disk
  | cons call calls ih =>
    obtain ⟨first, rest⟩ := List.forall_mem_cons.mp all
    exact (attempt_keeps first disk).trans (ih _ rest)

/-- The disk when what has been collected has been passed on, as far as it can be, and the file is closed. -/
def vacated (sink : LineSink) (disk : Disk) : Disk := (sink.flush disk).1.close (sink.flush disk).2

/-- What comes of opening another file in the place of one that has been set aside. -/
def renewal (sink : LineSink) (path : String) (disk : Disk) : EStateM.Result DiskFault Disk (OpenFile × Nat) :=
  Disk.Call.openAppend path (setAside path sink.settings.keep (sink.vacated disk))

theorem rotate_eq (used : sink.path? = some path) : sink.rotate disk =
    match sink.renewal path disk with
    | .ok (file, _) after => ({ sink with stream := some { file }, size := 0 }, after)
    | .error _ after => degrade { sink with stream := none } after := by
  have flushed : ∃ stream, (sink.flush disk).1 = { sink with stream } := by
    unfold flush
    split
    · exact ⟨sink.stream, rfl⟩
    · exact ⟨_, rfl⟩
  obtain ⟨stream, flushed⟩ := flushed
  have still : ({ sink with stream := none } : LineSink).path? = some path := used
  simp only [rotate, renewal, vacated, release, flushed, still]
  generalize setAside path sink.settings.keep _ = aside
  cases Disk.Call.openAppend path aside <;> rfl

theorem Settled.vacated_quiet (settled : sink.Settled disk) :
    Quiet (sink, disk) ({ sink with stream := none }, sink.vacated disk) := by
  have flushed := flush_takes settled.holds
  have closed : Quiet (sink.flush disk) ({ sink with stream := none }, sink.vacated disk) :=
    closed_quiet (flushed.settled settled).holds flushed.settings.symm flushed.console.symm nofun
  exact flushed.quiet.trans closed

/-- Rotation opens the path in use again and counts nothing of what is there, or gives the path up. -/
theorem rotate_cases (settled : sink.Settled disk) (used : sink.path? = some path) :
    (∃ file size after, sink.renewal path disk = .ok (file, size) after ∧ size = after.size file ∧
      sink.rotate disk = ({ sink with stream := some { file }, size := 0 }, after) ∧
      Quiet (sink, disk) (sink.rotate disk) ∧ (sink.rotate disk).1.Settled (sink.rotate disk).2) ∨
    ∃ fault after, sink.renewal path disk = .error fault after ∧ Lands (sink, disk) (sink.rotate disk) := by
  have vacated := settled.vacated_quiet
  have aside := setAside_keeps path sink.settings.keep (sink.vacated disk)
  have keeps := Disk.Call.openAppend_keepsFiles path (setAside path sink.settings.keep (sink.vacated disk))
  have ends := Disk.Call.openAppend_ends path (setAside path sink.settings.keep (sink.vacated disk))
  have same : sink.rotate disk = _ := rotate_eq used
  unfold renewal at same ⊢
  generalize Disk.Call.openAppend path (setAside path sink.settings.keep (sink.vacated disk)) = opened
    at keeps ends same ⊢
  cases opened with
  | ok opened after =>
    obtain ⟨file, size⟩ := opened
    obtain ⟨_, leads, told⟩ := ends
    have quiet := vacated.trans (quiet_keeps (aside.trans keeps))
    have closed : ({ sink with stream := none } : LineSink).Holds after := holds_closed rfl
    obtain ⟨opened, settled⟩ := install_settled closed (quiet.grows.held settled.held) leads 0 used
    exact .inl ⟨file, size, after, rfl, told, same, same ▸ quiet.trans opened, same ▸ settled⟩
  | error fault after =>
    have quiet := vacated.trans (quiet_keeps (aside.trans keeps))
    have closed : ({ sink with stream := none } : LineSink).Holds after := holds_closed rfl
    have lands := degrade_lands (quiet.grows.held settled.held) closed (hasFile_of_path? used)
    exact .inr ⟨fault, after, rfl, same ▸ lands.after quiet⟩

/-- Whether a line of the given length makes the sink start a new file. -/
def rotates (sink : LineSink) (length : Nat) : Bool :=
  sink.stream.isSome && sink.settings.maxSize < sink.size + length

theorem Settled.used (settled : sink.Settled disk) {length : Nat} (full : sink.rotates length) :
    ∃ path, sink.path? = some path := by
  obtain ⟨stream, opened⟩ := Option.isSome_iff_exists.mp (Bool.and_eq_true_iff.mp full).1
  obtain ⟨path, used, _⟩ := settled.leads stream.file (by rw [file?, opened]; rfl)
  exact ⟨path, used⟩

/-- Before a line is handed over, only names have changed. -/
theorem makeRoom_settled (settled : sink.Settled disk) (length : Nat) :
    Quiet (sink, disk) (sink.makeRoom length disk) ∧
      (sink.makeRoom length disk).1.Settled (sink.makeRoom length disk).2 := by
  unfold makeRoom
  split
  · rename_i full
    obtain ⟨path, used⟩ := settled.used full
    rcases rotate_cases settled used with ⟨_, _, _, _, _, _, quiet, next⟩ | ⟨_, _, _, lands⟩
    · exact ⟨quiet, next⟩
    · exact ⟨lands.quiet, lands.settled⟩
  · exact ⟨.refl _, settled⟩

theorem noteTaken_takes (holds : sink.Holds disk) (length now : Nat) :
    Takes [] (sink, disk) (sink.noteTaken length now disk) := by
  have noted : Takes [] (sink, disk) ({ sink with size := sink.size + length }, disk) :=
    ⟨rfl, rfl, rfl, rfl, rfl, .refl _, fun _ => by rw [ite_self, List.append_nil]; rfl⟩
  unfold noteTaken
  dsimp only
  split
  · have stillHolds : ({ sink with size := sink.size + length } : LineSink).Holds disk := holds
    exact noted.trans (sync_takes stillHolds now)
  · exact noted

theorem flush_size (sink : LineSink) (disk : Disk) : (sink.flush disk).1.size = sink.size := by
  unfold flush
  split <;> rfl

theorem hand_size (line : Bytes) (sink : LineSink) (disk : Disk) : (sink.hand line disk).2.1.size = sink.size := by
  unfold hand
  split <;> rfl

theorem noteTaken_size (sink : LineSink) (length now : Nat) (disk : Disk) :
    (sink.noteTaken length now disk).1.size = sink.size + length := by
  unfold noteTaken
  dsimp only
  split
  · exact flush_size _ disk
  · rfl

end LineSink

end BackupAtlas
