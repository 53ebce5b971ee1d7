import BackupAtlas.Proofs.Deliveries
import BackupAtlas.Proofs.Shelves

namespace BackupAtlas

theorem OpenFile.eq_file_of_entry {file : OpenFile} {number : Nat} (same : file.entry = .file number) :
    file = .file number := by
  cases file <;> cases same
  rfl

theorem Disk.Call.write_of_nil {disk : Disk} (admits : disk.refusals = []) (data : Bytes) (number : Nat) :
    Disk.Call.write data (.file number) disk = .ok () (Disk.append number data disk) := by
  rw [Disk.Call.write, bind_eq, admitted_of_nil admits]
  rfl

namespace Stream

variable {stream : Stream} {disk : Disk} {number : Nat}

theorem flush_of_nil (file : stream.file = .file number) (admits : disk.refusals = []) :
    (stream.flush disk).1.pending = [] ∧ (stream.flush disk).2.refusals = [] := by
  unfold flush
  split
  · rename_i empty
    exact ⟨empty, admits⟩
  · rw [file, Disk.Call.write_of_nil admits]
    exact ⟨rfl, admits⟩

theorem take_of_nil (file : stream.file = .file number) (admits : disk.refusals = []) (data : Bytes) :
    (stream.take data disk).1 = true ∧ (stream.take data disk).2.2.refusals = [] := by
  unfold take
  split
  · exact ⟨rfl, admits⟩
  · rw [file, Disk.Call.write_of_nil admits]
    exact ⟨rfl, admits⟩

theorem flush_file (stream : Stream) (disk : Disk) : (stream.flush disk).1.file = stream.file := by
  unfold flush
  split
  · rfl
  · split <;> rfl

theorem add_of_nil (file : stream.file = .file number) (admits : disk.refusals = []) (data : Bytes) :
    (stream.add data disk).1 = true ∧ (stream.add data disk).2.2.refusals = [] := by
  unfold add
  split
  · exact take_of_nil file admits data
  · obtain ⟨empty, still⟩ := flush_of_nil file admits
    dsimp only
    rw [if_pos empty]
    exact take_of_nil ((flush_file stream disk).trans file) still data

end Stream

namespace LineSink

variable {sink : LineSink} {disk : Disk} {number : Nat}

theorem stream_of_file? {file : OpenFile} (opened : sink.file? = some file) :
    ∃ stream, sink.stream = some stream ∧ stream.file = file := Option.map_eq_some_iff.mp opened

theorem flush_of_nil (opened : sink.file? = some (.file number)) (admits : disk.refusals = []) :
    (∀ stream, (sink.flush disk).1.stream = some stream → stream.pending = []) ∧ (sink.flush disk).2.refusals = [] := by
  obtain ⟨stream, there, file⟩ := stream_of_file? opened
  obtain ⟨empty, still⟩ := Stream.flush_of_nil file admits
  rw [flush, there]
  refine ⟨?_, still⟩
  rintro _ ⟨⟩
  exact empty

theorem hand_of_nil (opened : sink.file? = some (.file number)) (admits : disk.refusals = []) (line : Bytes) :
    (sink.hand line disk).1 = true ∧ (sink.hand line disk).2.2.refusals = [] := by
  obtain ⟨stream, there, file⟩ := stream_of_file? opened
  rw [hand, there]
  exact Stream.add_of_nil file admits line

theorem noteTaken_of_nil (opened : sink.file? = some (.file number)) (admits : disk.refusals = []) (length now : Nat) :
    (sink.noteTaken length now disk).2.refusals = [] := by
  have still : ({ sink with size := sink.size + length } : LineSink).file? = some (.file number) := opened
  unfold noteTaken
  dsimp only
  split
  · exact (flush_of_nil still admits).2
  · exact admits

/-- When everything has been passed on, closing the file changes nothing. -/
theorem vacated_of_nil (opened : sink.file? = some (.file number)) (admits : disk.refusals = []) :
    sink.vacated disk = (sink.flush disk).2 := by
  have empty := (flush_of_nil opened admits).1
  unfold vacated close
  cases there : (sink.flush disk).1.stream with
  | none => rfl
  | some stream => exact congrArg Prod.snd (if_pos (empty stream there))

/-- The files once a line has been written, the newest first, each with the lines in it. A new file is begun for a line
that would make the newest too large. -/
def fill (maxSize : Nat) (files : List (List Bytes)) (line : Bytes) : List (List Bytes) :=
  match files with
  | [] => [[line]]
  | newest :: older =>
    if maxSize < newest.flatten.length + line.length then [line] :: newest :: older else (newest ++ [line]) :: older

theorem fill_lines (maxSize : Nat) (files : List (List Bytes)) (line : Bytes) :
    (fill maxSize files line).reverse.flatten = files.reverse.flatten ++ [line] := by
  unfold fill
  split
  · rfl
  · split <;> simp

theorem foldl_fill_lines (maxSize : Nat) (lines : List Bytes) (files : List (List Bytes)) :
    (lines.foldl (fill maxSize) files).reverse.flatten = files.reverse.flatten ++ lines := by
  induction lines generalizing files with
  | nil => exact (List.append_nil _).symm
  | cons line lines ih => rw [List.foldl_cons, ih, fill_lines, List.append_assoc, List.singleton_append]

/-- The file that a line is in is not too large, or has no other line. -/
theorem fill_newest (maxSize : Nat) (files : List (List Bytes)) (line : Bytes) :
    ∃ newest older, fill maxSize files line = newest :: older ∧
      (newest.flatten.length ≤ maxSize ∨ newest = [line]) := by
  unfold fill
  split
  · exact ⟨_, _, rfl, .inr rfl⟩
  · split
    · exact ⟨_, _, rfl, .inr rfl⟩
    · rename_i fits
      refine ⟨_, _, rfl, .inl ?_⟩
      rw [List.flatten_concat, List.length_append]
      exact Nat.le_of_not_lt fits

theorem foldl_fill_ne_nil (maxSize : Nat) (lines : List Bytes) {files : List (List Bytes)} (nonempty : files ≠ []) :
    lines.foldl (fill maxSize) files ≠ [] := by
  induction lines generalizing files with
  | nil => exact nonempty
  | cons line lines ih =>
    obtain ⟨newest, older, same, _⟩ := fill_newest maxSize files line
    exact ih (same ▸ List.cons_ne_nil _ _)

/-- What a file holds that a name stands for, with what has been collected for it. -/
def textOf (state : LineSink × Disk) : Option DiskEntry → Bytes
  | some (.file number) => state.1.text state.2 (.file number)
  | _ => []

/-- What there is under a name of the row, with what has been collected for it. -/
def shown (state : LineSink × Disk) (number : Nat) : Bytes :=
  textOf state (state.2.lead (rowName state.1.settings.path number)).toOption

/-- What there is under all the names of the row, the oldest first. -/
def retained (state : LineSink × Disk) : Bytes :=
  (List.range (state.1.settings.keep + 1)).reverse.flatMap (shown state)

/-- The files of a row, the newest first, each taken as one line. -/
def filesOf (state : LineSink × Disk) : List (List Bytes) :=
  (List.range (state.1.settings.keep + 1)).map fun number => [shown state number]

/-- Whether the names of the row show these files, the newest first. -/
def Shows (state : LineSink × Disk) (files : List (List Bytes)) : Prop :=
  ∀ k ≤ state.1.settings.keep, shown state k = (files.getD k []).flatten

theorem flatMap_range_reverse (files : List (List Bytes)) (count : Nat) :
    ((List.range count).reverse.flatMap fun k => (files.getD k []).flatten) =
      (files.take count).reverse.flatten.flatten := by
  induction count with
  | zero => rfl
  | succ count ih =>
    rw [List.range_succ, List.reverse_append, List.reverse_singleton, List.singleton_append, List.flatMap_cons, ih,
      List.take_add_one, List.reverse_append, List.flatten_append, List.flatten_append, List.getD_eq_getElem?_getD]
    cases files[count]? <;> simp

theorem Shows.retained {state : LineSink × Disk} {files : List (List Bytes)} (shows : Shows state files) :
    retained state = (files.take (state.1.settings.keep + 1)).reverse.flatten.flatten := by
  rw [← flatMap_range_reverse, LineSink.retained, List.flatMap, List.flatMap]
  refine congrArg List.flatten (List.map_congr_left fun k member => shows k ?_)
  exact Nat.le_of_lt_succ (List.mem_range.mp (List.mem_reverse.mp member))

variable {state next : LineSink × Disk} {dir : DiskPath} {name : String} {entries : Nat → Option DiskEntry}
  {files older : List (List Bytes)} {newest : List Bytes} {line : Bytes} {now : Nat}

theorem Row.shown (row : Row state.2 state.1.settings.path state.1.settings.keep dir name entries) {k : Nat}
    (within : k ≤ state.1.settings.keep) : shown state k = textOf state (entries k) := by
  rw [LineSink.shown, row.toOption_lead within]

/-- The path in use leads to the file that is open, and the names of the row stand for files of their own, with the
given lines in them. -/
structure Stocked (state : LineSink × Disk) (dir : DiskPath) (name : String) (entries : Nat → Option DiskEntry)
    (files : List (List Bytes)) : Prop where
  settled : state.1.Settled state.2
  accurate : state.1.Accurate state.2
  primary : state.1.outlet = .primary
  row : Row state.2 state.1.settings.path state.1.settings.keep dir name entries
  opened : ∃ number, state.1.file? = some (.file number) ∧ entries 0 = some (.file number)
  apart : Apart state.1.settings.keep entries
  holds : ∀ k ≤ state.1.settings.keep, textOf state (entries k) = (files.getD k []).flatten

namespace Stocked

theorem shows (stocked : Stocked state dir name entries files) : Shows state files := fun k within =>
  (stocked.row.shown within).trans (stocked.holds k within)

theorem used (stocked : Stocked state dir name entries files) : state.1.path? = some state.1.settings.path := by
  rw [path?, stocked.primary]

theorem opened_text (stocked : Stocked state dir name entries (newest :: older)) : ∃ number,
    state.1.file? = some (.file number) ∧ entries 0 = some (.file number) ∧
      state.1.text state.2 (.file number) = newest.flatten := by
  obtain ⟨number, opened, first⟩ := stocked.opened
  have text := stocked.holds 0 (Nat.zero_le _)
  rw [first] at text
  exact ⟨number, opened, first, text⟩

/-- What goes to the file that is open goes to the newest one of the row. -/
theorem takes {data : Bytes} {added : List Bytes} (stocked : Stocked state dir name entries (newest :: older))
    (takes : Takes data state next) (admits : next.2.refusals = []) (size : next.1.size = state.1.size + data.length)
    (adds : added.flatten = newest.flatten ++ data) : Stocked next dir name entries (added :: older) := by
  obtain ⟨number, opened, first, text⟩ := stocked.opened_text
  refine ⟨takes.settled stocked.settled, takes.accurate stocked.accurate size, takes.outlet.trans stocked.primary, ?_,
    ⟨number, takes.file.trans opened, first⟩, ?_, ?_⟩ <;> rw [takes.settings]
  · exact stocked.row.of_entries takes.names admits
  · exact stocked.apart
  · intro k within
    cases k with
    | zero =>
      rw [first]
      exact (takes.text _).trans (by rw [if_pos opened, text, List.getD_cons_zero, adds])
    | succ k =>
      have before := stocked.holds _ within
      rw [List.getD_cons_succ] at before ⊢
      rw [← before]
      rcases stocked.row.plain (k + 1) within with none | ⟨other, file⟩
      · rw [none]
        rfl
      · have closed : state.1.file? ≠ some (.file other) := by
          intro this
          injection opened.symm.trans this with same
          injection same with same
          exact absurd (stocked.apart _ within 0 (Nat.zero_le _) number (same ▸ file) first) (Nat.succ_ne_zero k)
        rw [file]
        exact (takes.text _).trans (by rw [if_neg closed, List.append_nil]; rfl)

theorem flushed (stocked : Stocked state dir name entries (newest :: older)) :
    Stocked (state.1.flush state.2) dir name entries (newest :: older) := by
  obtain ⟨number, opened, _⟩ := stocked.opened
  exact stocked.takes (flush_takes stocked.settled.holds) (flush_of_nil opened stocked.row.admits).2
    (flush_size _ _) (List.append_nil _).symm

theorem synced (stocked : Stocked state dir name entries (newest :: older)) (now : Nat) :
    Stocked (state.1.sync now state.2) dir name entries (newest :: older) := by
  obtain ⟨number, opened, _⟩ := stocked.opened
  exact stocked.takes (sync_takes stocked.settled.holds now) (flush_of_nil opened stocked.row.admits).2
    (flush_size _ _) (List.append_nil _).symm

/-- When the file that is open has been closed, it holds all that was collected for it. -/
theorem vacated (stocked : Stocked state dir name entries files) :
    Row (state.1.vacated state.2) state.1.settings.path state.1.settings.keep dir name entries ∧
      ∀ file, (state.1.vacated state.2).written file = state.1.text state.2 file := by
  obtain ⟨number, opened, _⟩ := stocked.opened
  have takes := flush_takes stocked.settled.holds
  obtain ⟨bare, still⟩ := flush_of_nil opened stocked.row.admits
  rw [vacated_of_nil opened stocked.row.admits]
  refine ⟨stocked.row.of_entries takes.names still, fun file => ?_⟩
  have text := takes.text file
  rwa [LineSink.text, collected_bare bare, List.append_nil, ite_self, List.append_nil] at text

end Stocked

theorem textOf_congr (same : ∀ file, next.1.text next.2 file = state.1.text state.2 file) (entry : Option DiskEntry) :
    textOf next entry = textOf state entry := by
  match entry with
  | some (.file number) => exact same _
  | none | some .directory | some .device => rfl

/-- Under names with a gap among them there are the files with nothing in the gap's place. -/
theorem withGap_files {keep gap : Nat}
    (holds : ∀ k ≤ keep, textOf state (entries k) = (files.getD k []).flatten) {k : Nat} (within : k ≤ keep) :
    textOf state (withGap keep gap entries k) = ((files.insertIdx gap []).getD k []).flatten := by
  rw [withGap, List.getD_eq_getElem?_getD, List.getElem?_insertIdx]
  split
  · rw [holds k within, List.getD_eq_getElem?_getD]
  · split
    · split <;> rfl
    · rw [holds _ (Nat.le_trans (Nat.sub_le k 1) within), List.getD_eq_getElem?_getD]

/-- What is there between the calls that set a file aside. -/
theorem Stocked.between (stocked : Stocked state dir name entries files) (positive : 0 < state.1.settings.keep)
    {calls : List (Disk.Call Unit)} (first : calls <+: asideCalls state.1.settings.path state.1.settings.keep) :
    let between : LineSink × Disk := ({ state.1 with stream := none },
      calls.foldl (fun disk call => attempt call disk) (state.1.vacated state.2))
    ∃ gap others, Row between.2 state.1.settings.path state.1.settings.keep dir name others ∧
      (∀ k, state.1.settings.keep < k → others k = entries k) ∧
      Shows between (files.insertIdx gap []) := by
  intro between
  obtain ⟨row, texts⟩ := stocked.vacated
  have bare : ∀ stream, between.1.stream = some stream → stream.pending = [] := by rintro _ ⟨⟩
  have same (kept : between.2.contents = (state.1.vacated state.2).contents) (file : OpenFile) :
      between.1.text between.2 file = state.1.text state.2 file := by
    rw [text, collected_bare bare, List.append_nil, Disk.written_of_contents kept, texts]
  by_cases begun : calls = []
  · subst begun
    refine ⟨state.1.settings.keep + 1, entries, row, fun _ _ => rfl, fun k within => ?_⟩
    have shown : shown between k = textOf between (entries k) := Row.shown row within
    rw [shown, textOf_congr (same rfl), stocked.holds k within, List.getD_eq_getElem?_getD, List.getD_eq_getElem?_getD,
      List.getElem?_insertIdx_of_lt (Nat.lt_succ_of_le within)]
  · obtain ⟨gap, within, cleared, kept, _⟩ := row.cleared positive first begun
    refine ⟨gap, _, cleared, fun k beyond => ?_, fun k within => ?_⟩
    · exact withGap_of_lt within beyond
    · have shown : shown between k = textOf between (withGap state.1.settings.keep gap entries k) :=
        Row.shown cleared within
      rw [shown, textOf_congr (same kept)]
      exact withGap_files stocked.holds within

/-- Once a file has been set aside the first name is free. -/
theorem Stocked.asided (stocked : Stocked state dir name entries files) (positive : 0 < state.1.settings.keep)
    {aside : Disk}
    (sets : setAside state.1.settings.path state.1.settings.keep (state.1.vacated state.2) = aside) :
    Row aside state.1.settings.path state.1.settings.keep dir name (withGap state.1.settings.keep 0 entries) ∧
      aside.Held ∧ ∀ file, aside.written file = state.1.text state.2 file := by
  obtain ⟨row, texts⟩ := stocked.vacated
  obtain ⟨gap, _, cleared, kept, last⟩ := row.cleared positive (List.prefix_refl _) (List.cons_ne_nil _ _)
  obtain rfl := last rfl
  have held := (setAside_keeps state.1.settings.path state.1.settings.keep _).held
    (stocked.settled.vacated_quiet.grows.held stocked.settled.held)
  subst sets
  exact ⟨cleared, held, fun file => (Disk.written_of_contents kept file).trans (texts file)⟩

theorem Settled.rotate_settings {sink : LineSink} {disk : Disk} {path : String} (settled : sink.Settled disk)
    (used : sink.path? = some path) : (sink.rotate disk).1.settings = sink.settings := by
  rcases rotate_cases settled used with ⟨_, _, _, _, _, _, quiet, _⟩ | ⟨_, _, _, lands⟩
  · exact quiet.settings
  · exact lands.quiet.settings

/-- A new file in front, with the others moved up by one. -/
theorem Stocked.fresh {number : Nat} (stocked : Stocked state dir name entries files)
    (settled : next.1.Settled next.2) (primary : next.1.outlet = .primary)
    (settings : next.1.settings = state.1.settings) (stream : next.1.stream = some { file := .file number })
    (size : next.1.size = 0) (empty : 0 = next.2.size (.file number))
    (row : Row next.2 state.1.settings.path state.1.settings.keep dir name
      (behind state.1.settings.keep number entries))
    (texts : ∀ file, next.2.written file = state.1.text state.2 file)
    (old : ∀ k other, k + 1 ≤ state.1.settings.keep → entries k = some (.file other) → other ≠ number) :
    Stocked next dir name (behind state.1.settings.keep number entries) ([] :: files) := by
  have bare : ∀ stream, next.1.stream = some stream → stream.pending = [] := by
    rw [stream]
    rintro _ ⟨⟩
    rfl
  have plain (file : OpenFile) : next.1.text next.2 file = next.2.written file := by
    rw [text, collected_bare bare, List.append_nil]
  refine ⟨settled, (accurate_fresh stream).mpr (size.trans empty), primary, ?_,
    ⟨number, by rw [file?, stream]; rfl, rfl⟩, ?_, ?_⟩ <;> rw [settings]
  · exact row
  · exact stocked.apart.pushed old
  · intro k within
    cases k with
    | zero =>
      refine (plain _).trans (List.length_eq_zero_iff.mp ?_)
      rw [← Disk.size_eq, empty]
    | succ k =>
      rw [behind_succ within, textOf_congr fun file => (plain file).trans (texts file)]
      exact stocked.holds k (Nat.le_of_succ_le within)

/-- Rotation begins a new file with no lines, and the others move up by one. -/
theorem Stocked.rotated (stocked : Stocked state dir name entries files) (positive : 0 < state.1.settings.keep) :
    ∃ others, Stocked (state.1.rotate state.2) dir name others ([] :: files) ∧
      ∀ k, state.1.settings.keep < k → others k = entries k := by
  have renews : state.1.renewal state.1.settings.path state.2 = Disk.Call.openAppend state.1.settings.path
    (setAside state.1.settings.path state.1.settings.keep (state.1.vacated state.2)) := rfl
  generalize sets : setAside state.1.settings.path state.1.settings.keep (state.1.vacated state.2) = aside at renews
  obtain ⟨row, held, texts⟩ := stocked.asided positive sets
  obtain ⟨opens, renewed⟩ := row.openAppend
  obtain ⟨keeps, _⟩ := Disk.Call.openAppend_of_ok opens
  have old : ∀ k other, k + 1 ≤ state.1.settings.keep → entries k = some (.file other) →
      other ≠ aside.contents.length := by
    intro k other within file
    exact Nat.ne_of_lt (row.held held ((withGap_zero_succ within).trans file))
  rcases rotate_cases stocked.settled stocked.used with
    ⟨file, size, after, ran, told, same, _, settled⟩ | ⟨_, _, ran, _⟩
  · rw [renews, opens] at ran
    injection ran with opened there
    injection opened with file size
    subst file size
    rw [there] at keeps renewed
    rw [same] at settled ⊢
    exact ⟨_, stocked.fresh settled stocked.primary rfl rfl rfl told renewed
      (fun file => (keeps.written file).trans (texts file)) old, fun k => behind_of_lt⟩
  · rw [renews, opens] at ran
    cases ran

theorem Stocked.size_eq (stocked : Stocked state dir name entries (newest :: older)) :
    state.1.size = newest.flatten.length := by
  obtain ⟨number, opened, _, text⟩ := stocked.opened_text
  rw [stocked.accurate _ opened, text]

/-- Making room for a line sets the open file aside when the line would be too much, and else does nothing to the
row. -/
theorem Stocked.madeRoom (stocked : Stocked state dir name entries (newest :: older))
    (positive : 0 < state.1.settings.keep) (line : Bytes) : ∃ others newest' older',
      Stocked (state.1.makeRoom line.length state.2) dir name others (newest' :: older') ∧
      fill state.1.settings.maxSize (newest :: older) line = (newest' ++ [line]) :: older' ∧
      ∀ k, state.1.settings.keep < k → others k = entries k := by
  obtain ⟨number, opened, _⟩ := stocked.opened
  obtain ⟨stream, there, _⟩ := stream_of_file? opened
  have full : (state.1.stream.isSome && decide (state.1.settings.maxSize < state.1.size + line.length)) =
      decide (state.1.settings.maxSize < newest.flatten.length + line.length) := by
    rw [there, Option.isSome_some, Bool.true_and, stocked.size_eq]
  rw [makeRoom, fill, full]
  by_cases large : state.1.settings.maxSize < newest.flatten.length + line.length
  · rw [if_pos (decide_eq_true large), if_pos large]
    obtain ⟨others, rotated, beyond⟩ := stocked.rotated positive
    exact ⟨others, [], newest :: older, rotated, rfl, beyond⟩
  · rw [if_neg (mt of_decide_eq_true large), if_neg large]
    exact ⟨entries, newest, older, stocked, rfl, fun _ _ => rfl⟩

/-- A line is taken, and goes to the newest file. -/
theorem Stocked.handed (stocked : Stocked state dir name entries (newest :: older)) (line : Bytes) (now : Nat) :
    let handed := state.1.hand line state.2
    handed.1 = true ∧
      Stocked (handed.2.1.noteTaken line.length now handed.2.2) dir name entries ((newest ++ [line]) :: older) := by
  obtain ⟨number, opened, _⟩ := stocked.opened
  obtain ⟨taken, still⟩ := hand_of_nil opened stocked.row.admits line
  have takes := hand_takes stocked.settled.holds line
  rw [if_pos taken] at takes
  have noted := takes.trans (noteTaken_takes (takes.settled stocked.settled).holds line.length now)
  rw [List.append_nil] at noted
  refine ⟨taken, stocked.takes noted ?_ ?_ List.flatten_concat⟩
  · exact noteTaken_of_nil (takes.file.trans opened) still _ _
  · rw [noteTaken_size, hand_size]

/-- One step of a run: a line that is written goes to the newest file or begins one. -/
theorem Stocked.written (stocked : Stocked state dir name entries (newest :: older))
    (positive : 0 < state.1.settings.keep) (line : Bytes) (now : Nat) : ∃ others,
      Stocked (state.1.write line now state.2) dir name others
        (fill state.1.settings.maxSize (newest :: older) line) ∧
      ∀ k, state.1.settings.keep < k → others k = entries k := by
  obtain ⟨others, newest', older', ready, filled, beyond⟩ := stocked.madeRoom positive line
  obtain ⟨taken, handed⟩ := ready.handed line now
  have active : (state.1.makeRoom line.length state.2).1.outlet.hasFile := by rw [ready.primary]; rfl
  have tried : state.1.tryWrite line now state.2 = _ := tryWrite_of_file rfl active
  rw [if_pos taken] at tried
  have done : state.1.write line now state.2 = (state.1.tryWrite line now state.2).2 := by
    rw [write, dif_neg (by rw [tried]; exact Bool.noConfusion)]
  rw [done, tried, filled]
  exact ⟨others, handed, beyond⟩

/-- What it takes to set files aside without a failure: the file that lines are meant for is open, the device refuses
nothing, and the names of the row can be used and stand for files of their own, if for anything. -/
structure Ready (state : LineSink × Disk) : Prop where
  primary : state.1.outlet = .primary
  admits : state.2.refusals = []
  plain : ∀ k ≤ state.1.settings.keep, state.2.lead (rowName state.1.settings.path k) = .error .missing ∨
    ∃ number, state.2.lead (rowName state.1.settings.path k) = .ok (.file number)
  apart : Apart state.1.settings.keep fun k => (state.2.lead (rowName state.1.settings.path k)).toOption

theorem outlet_openFallback (sink : LineSink) (disk : Disk) : (sink.openFallback disk).1.outlet ≠ .primary := by
  unfold openFallback
  split
  · exact Outlet.noConfusion
  · split <;> exact Outlet.noConfusion

/-- Lines go to the file that they are meant for if it could be opened. -/
theorem start_of_primary {settings : SinkSettings} {begun : Nat} {disk : Disk}
    (primary : (start settings begun disk).1.outlet = .primary) : ∃ file size after,
      Disk.Call.openAppend settings.path disk = .ok (file, size) after ∧ start settings begun disk =
        ({ settings, outlet := .primary, stream := some { file }, size, synced := begun }, after) := by
  unfold start at primary ⊢
  cases ran : Disk.Call.openAppend settings.path disk with
  | ok opened after => exact ⟨opened.1, opened.2, after, rfl, rfl⟩
  | error fault after =>
    simp only [ran] at primary
    exact absurd primary (outlet_openFallback _ _)

theorem getD_filesOf (state : LineSink × Disk) {k : Nat} (within : k ≤ state.1.settings.keep) :
    ((filesOf state).getD k []).flatten = shown state k := by
  rw [filesOf, List.getD_eq_getElem?_getD, List.getElem?_map, List.getElem?_range (Nat.lt_succ_of_le within)]
  exact List.append_nil _

/-- What the row holds when the sink is opened counts as files of one text each. -/
theorem Stocked.started {settings : SinkSettings} {begun : Nat} {disk : Disk} (held : disk.Held)
    (ready : Ready (start settings begun disk)) : ∃ dir name entries,
      Stocked (start settings begun disk) dir name entries (filesOf (start settings begun disk)) := by
  have lands := start_lands settings begun held
  obtain ⟨file, size, after, ran, same⟩ := start_of_primary ready.primary
  obtain ⟨_, _, ⟨dir, name, sits, found⟩, _⟩ := Disk.Call.openAppend_of_ok ran
  have opened : (start settings begun disk).1.file? = some file := by rw [same]; rfl
  have path : (start settings begun disk).1.settings.path = settings.path := by rw [same]
  have there : (start settings begun disk).2 = after := by rw [same]
  generalize start settings begun disk = state at lands ready opened path there
  rw [← there, ← path] at sits
  rw [← there] at found
  have row := Row.of_leads sits ready.admits ready.plain
  refine ⟨dir, name, _, lands.settled, lands.accurate, ready.primary, row, ?_, ?_, fun k within => ?_⟩
  · rcases row.plain 0 (Nat.zero_le _) with none | ⟨number, file⟩
    · exact absurd (found.symm.trans none) nofun
    · have same := Option.some.inj (found.symm.trans file)
      exact ⟨number, opened.trans (congrArg some (OpenFile.eq_file_of_entry same)), file⟩
  · intro k within other otherWithin number file otherFile
    exact ready.apart k within other otherWithin number ((row.toOption_lead within).trans file)
      ((row.toOption_lead otherWithin).trans otherFile)
  · exact (row.shown within).symm.trans (getD_filesOf _ within).symm

end LineSink

namespace SinkStep

/-- The line that a step writes. -/
def line? : SinkStep → Option Bytes
  | write line _ => some line
  | recover | flush | sync _ => none

def linesOf (steps : List SinkStep) : List Bytes := steps.filterMap line?

variable {state : LineSink × Disk} {dir : DiskPath} {name : String} {entries : Nat → Option DiskEntry}
  {files : List (List Bytes)}

theorem run_stocked (stocked : LineSink.Stocked state dir name entries files) (nonempty : files ≠ [])
    (positive : 0 < state.1.settings.keep) (step : SinkStep) : ∃ others,
      LineSink.Stocked (step.run state) dir name others
        ((linesOf [step]).foldl (LineSink.fill state.1.settings.maxSize) files) ∧
      ∀ k, state.1.settings.keep < k → others k = entries k := by
  obtain ⟨newest, older, rfl⟩ := List.exists_cons_of_ne_nil nonempty
  cases step with
  | write line now => exact stocked.written positive line now
  | recover =>
    have same : SinkStep.recover.run state = state := by simp only [run, LineSink.recover, stocked.primary]
    rw [same]
    exact ⟨entries, stocked, fun _ _ => rfl⟩
  | flush => exact ⟨entries, stocked.flushed, fun _ _ => rfl⟩
  | sync now => exact ⟨entries, stocked.synced now, fun _ _ => rfl⟩

/-- Whatever steps are taken, the row holds what the lines fill, and files beyond it stay as they were. -/
theorem runAll_stocked (stocked : LineSink.Stocked state dir name entries files) (nonempty : files ≠ [])
    (positive : 0 < state.1.settings.keep) (steps : List SinkStep) : ∃ others,
      LineSink.Stocked (runAll steps state) dir name others
        ((linesOf steps).foldl (LineSink.fill state.1.settings.maxSize) files) ∧
      ∀ k, state.1.settings.keep < k → others k = entries k := by
  induction steps generalizing state entries files with
  | nil => exact ⟨entries, stocked, fun _ _ => rfl⟩
  | cons step steps ih =>
    obtain ⟨between, next, first⟩ := run_stocked stocked nonempty positive step
    have kept := (run_settled stocked.settled step).2
    have still := LineSink.foldl_fill_ne_nil state.1.settings.maxSize (linesOf [step]) nonempty
    obtain ⟨others, last, rest⟩ := ih next still (kept ▸ positive)
    rw [kept] at last rest
    refine ⟨others, ?_, fun k beyond => (rest k beyond).trans (first k beyond)⟩
    have lines : linesOf (step :: steps) = linesOf [step] ++ linesOf steps := by
      rw [linesOf, linesOf, linesOf, ← List.filterMap_append]
      rfl
    rw [lines, List.foldl_append]
    exact last

end SinkStep

namespace LineSink

variable {state opened : LineSink × Disk} {files : List (List Bytes)}

/-- What all files hold is what was lost, followed by what is retained. -/
theorem Shows.cut (shows : Shows state files) : files.reverse.flatten.flatten =
    (files.drop (state.1.settings.keep + 1)).reverse.flatten.flatten ++ LineSink.retained state := by
  rw [shows.retained, ← List.flatten_append, ← List.flatten_append, ← List.reverse_append, List.take_append_drop]

/-- A gap among the names costs one of the files that they show, the oldest. -/
theorem take_insertIdx (files : List (List Bytes)) (gap keep : Nat) : ∃ count, keep ≤ count ∧
    ((files.insertIdx gap []).take (keep + 1)).reverse.flatten = (files.take count).reverse.flatten := by
  induction gap generalizing files keep with
  | zero =>
    refine ⟨keep, Nat.le_refl keep, ?_⟩
    rw [List.insertIdx_zero, List.take_succ_cons, List.reverse_cons, List.flatten_concat, List.append_nil]
  | succ gap ih =>
    match files, keep with
    | [], keep => exact ⟨keep, Nat.le_refl keep, by
        rw [List.insertIdx_of_length_lt (Nat.succ_pos gap), List.take_nil, List.take_nil]⟩
    | newest :: older, 0 => exact ⟨1, Nat.zero_le 1, rfl⟩
    | newest :: older, keep + 1 =>
      obtain ⟨count, least, same⟩ := ih older keep
      refine ⟨count + 1, Nat.succ_le_succ least, ?_⟩
      rw [List.insertIdx_succ_cons, List.take_succ_cons, List.take_succ_cons, List.reverse_cons, List.reverse_cons,
        List.flatten_append, List.flatten_append, same]

/-- The same while there is a gap in the row. -/
theorem Shows.cut_insertIdx {gap : Nat} (shows : Shows state (files.insertIdx gap [])) :
    ∃ count, state.1.settings.keep ≤ count ∧ files.reverse.flatten.flatten =
      (files.drop count).reverse.flatten.flatten ++ LineSink.retained state := by
  obtain ⟨count, least, same⟩ := take_insertIdx files gap state.1.settings.keep
  refine ⟨count, least, ?_⟩
  rw [shows.retained, same, ← List.flatten_append, ← List.flatten_append, ← List.reverse_append, List.take_append_drop]

/-- Whether nothing is gone but the oldest of these files, each as a whole, beyond so many of the newest: the names of
the row show the newest, where one name may be free, and no other name has come into use. -/
structure Retains (opened : LineSink × Disk) (files : List (List Bytes)) (count : Nat) (state : LineSink × Disk) :
    Prop where
  shows : ∃ gap, Shows state (files.insertIdx gap [])
  cut : files.reverse.flatten.flatten = (files.drop count).reverse.flatten.flatten ++ retained state
  beyond : ∀ k, opened.1.settings.keep < k →
    state.2.lead (numbered opened.1.settings.path k) = opened.2.lead (numbered opened.1.settings.path k)

theorem flatten_filesOf (state : LineSink × Disk) : (filesOf state).reverse.flatten.flatten = retained state := by
  have shows : Shows state (filesOf state) := fun k within => (getD_filesOf state within).symm
  have all : (filesOf state).length ≤ state.1.settings.keep + 1 :=
    Nat.le_of_eq (by rw [filesOf, List.length_map, List.length_range])
  rw [shows.retained, List.take_of_length_le all]

section Kept

variable {dir : DiskPath} {name : String} {entries others : Nat → Option DiskEntry} {initial : List (List Bytes)}
  {settings : SinkSettings}

theorem Retains.of_rows {gap count : Nat} (first : Row opened.2 settings.path settings.keep dir name entries)
    (row : Row state.2 settings.path settings.keep dir name others) (kept : opened.1.settings = settings)
    (beyond : ∀ k, settings.keep < k → others k = entries k) (shows : Shows state (files.insertIdx gap []))
    (cut : files.reverse.flatten.flatten = (files.drop count).reverse.flatten.flatten ++ retained state) :
    Retains opened files count state := by
  subst kept
  exact ⟨⟨gap, shows⟩, cut, fun k more => first.lead_numbered row (Nat.zero_lt_of_lt more) (beyond k more)⟩

theorem Stocked.retains (started : Stocked opened dir name entries initial)
    (stocked : Stocked state dir name others files) (kept : opened.1.settings = state.1.settings)
    (beyond : ∀ k, state.1.settings.keep < k → others k = entries k) :
    Retains opened files (state.1.settings.keep + 1) state := by
  have shows : Shows state (files.insertIdx (state.1.settings.keep + 1) []) := fun k within => by
    rw [stocked.shows k within, List.getD_eq_getElem?_getD, List.getD_eq_getElem?_getD,
      List.getElem?_insertIdx_of_lt (Nat.lt_succ_of_le within)]
  exact .of_rows (kept ▸ started.row) stocked.row kept beyond shows stocked.shows.cut

/-- Once another file has been begun one file more is gone. -/
theorem Stocked.rotated_retains (started : Stocked opened dir name entries initial)
    (stocked : Stocked state dir name others files) (positive : 0 < state.1.settings.keep)
    (kept : opened.1.settings = state.1.settings) (beyond : ∀ k, state.1.settings.keep < k → others k = entries k) :
    Shows (state.1.rotate state.2) ([] :: files) ∧
      Retains opened files state.1.settings.keep (state.1.rotate state.2) := by
  obtain ⟨between, rotated, same⟩ := stocked.rotated positive
  have still := stocked.settled.rotate_settings stocked.used
  have cut := rotated.shows.cut
  rw [still, List.drop_succ_cons, List.reverse_cons, List.flatten_concat, List.append_nil] at cut
  have shows : Shows (state.1.rotate state.2) (files.insertIdx 0 []) := rotated.shows
  exact ⟨rotated.shows, .of_rows (kept ▸ started.row) (still ▸ rotated.row) kept
    (fun k more => (same k more).trans (beyond k more)) shows cut⟩

/-- Between the calls that set a file aside no more is gone than one file more. -/
theorem Stocked.between_retains (started : Stocked opened dir name entries initial)
    (stocked : Stocked state dir name others files) (positive : 0 < state.1.settings.keep)
    (kept : opened.1.settings = state.1.settings) (beyond : ∀ k, state.1.settings.keep < k → others k = entries k)
    {calls : List (Disk.Call Unit)} (first : calls <+: asideCalls state.1.settings.path state.1.settings.keep) :
    ∃ count, state.1.settings.keep ≤ count ∧ Retains opened files count ({ state.1 with stream := none },
      calls.foldl (fun disk call => attempt call disk) (state.1.vacated state.2)) := by
  obtain ⟨gap, between, row, same, shows⟩ := stocked.between positive first
  obtain ⟨count, least, cut⟩ := shows.cut_insertIdx
  exact ⟨count, least, .of_rows (kept ▸ started.row) row kept
    (fun k more => (same k more).trans (beyond k more)) shows cut⟩

/-- The file that the last line is in is not too large, or has no other line. -/
theorem Stocked.newest {lines : List Bytes} {maxSize : Nat} (stocked : Stocked state dir name others
    (lines.foldl (fill maxSize) initial)) (wrote : lines ≠ []) :
    (shown state 0).length ≤ maxSize ∨ lines.getLast? = some (shown state 0) := by
  obtain ⟨before, last, rfl⟩ := lines.eq_nil_or_concat.resolve_left wrote
  obtain ⟨newest, older, same, fits⟩ := fill_newest maxSize (before.foldl (fill maxSize) initial) last
  rw [List.concat_eq_append] at stocked ⊢
  rw [List.foldl_append, List.foldl_cons, List.foldl_nil, same] at stocked
  rw [stocked.shows 0 (Nat.zero_le _), List.getD_cons_zero, List.getLast?_concat]
  exact fits.imp_right fun alone => by rw [alone, List.flatten_singleton]

end Kept

end LineSink

theorem LineSink.Stocked.runs {opened : LineSink × Disk} {dir : DiskPath} {name : String} {settings : SinkSettings}
    {entries : Nat → Option DiskEntry} (started : Stocked opened dir name entries (filesOf opened))
    (kept : opened.1.settings = settings) (positive : 0 < settings.keep) (steps : List SinkStep) :
    let lines := SinkStep.linesOf steps
    let files := lines.foldl (fill settings.maxSize) (filesOf opened)
    let state := SinkStep.runAll steps opened
    files.reverse.flatten = (filesOf opened).reverse.flatten ++ lines ∧
      files.reverse.flatten.flatten = retained opened ++ lines.flatten ∧
      Shows state files ∧ Retains opened files (settings.keep + 1) state ∧
      (lines ≠ [] → (shown state 0).length ≤ settings.maxSize ∨ lines.getLast? = some (shown state 0)) ∧
      (∀ calls, calls <+: asideCalls settings.path settings.keep → ∃ count, settings.keep ≤ count ∧
        Retains opened files count ({ state.1 with stream := none },
          calls.foldl (fun disk call => attempt call disk) (state.1.vacated state.2))) ∧
      Shows (state.1.rotate state.2) ([] :: files) ∧ Retains opened files settings.keep (state.1.rotate state.2) := by
  intro lines files state
  subst kept
  have nonempty : filesOf opened ≠ [] := by
    rw [filesOf, List.range_succ_eq_map]
    exact List.cons_ne_nil _ _
  have kept : state.1.settings = opened.1.settings := (SinkStep.runAll_settled started.settled steps).2
  obtain ⟨others, stocked, beyond⟩ := SinkStep.runAll_stocked started nonempty positive steps
  have all : files.reverse.flatten = (filesOf opened).reverse.flatten ++ lines :=
    foldl_fill_lines opened.1.settings.maxSize lines (filesOf opened)
  have newest := stocked.newest
  change Stocked state dir name others files at stocked
  rw [← kept] at positive beyond ⊢
  refine ⟨all, by rw [all, List.flatten_append, flatten_filesOf], stocked.shows,
    started.retains stocked kept.symm beyond, kept ▸ newest,
    fun calls first => started.between_retains stocked positive kept.symm beyond first,
    started.rotated_retains stocked positive kept.symm beyond⟩

/-- A name of a file keeps standing for it. -/
theorem Disk.lead_extends {before after : Disk} (extended : before.Extends after) {path : String} {number : Nat}
    (there : before.lead path = .ok (.file number)) : after.lead path = .ok (.file number) := by
  unfold Disk.lead at there ⊢
  cases placed : before.place path with
  | error fault =>
    rw [placed] at there
    cases there
  | ok place =>
    rw [placed] at there
    match place with
    | .reached _ => cases there
    | .within dir name slashed =>
      rw [(Disk.place_opens extended.opens placed).1]
      simp only [bind, Except.bind, Disk.entryAt] at there ⊢
      cases named : before.named? dir name with
      | error fault =>
        rw [named] at there
        cases there
      | ok found =>
        obtain ⟨short, atName⟩ := Disk.named?_ok named
        rw [named] at there
        cases found with
        | none => cases there
        | some entry =>
          rw [Disk.named?_of_short short, extended _ _ atName]
          exact there

/-- Rotation loses only the oldest files. When the device refuses nothing and the names of the row stand for files of
their own, then after any steps the names show the newest of the files that the lines have been filled into, and all
that has been there or been written is what the oldest files held, followed by what the names show. This also holds
between the calls that set a file aside and once another file has been begun. No name beyond the row comes into use,
and the newest file is not too large, or holds just the last line. Opening changes no file. -/
theorem LineSink.rotation_loses_oldest {disk : Disk} (held : disk.Held) {settings : SinkSettings}
    (positive : 0 < settings.keep) {begun : Nat} (ready : Ready (start settings begun disk)) (steps : List SinkStep) :
    let opened := start settings begun disk
    let lines := SinkStep.linesOf steps
    let files := lines.foldl (fill settings.maxSize) (filesOf opened)
    let state := SinkStep.runAll steps opened
    (∀ file, opened.2.written file = disk.written file) ∧
      (∀ path number, disk.lead path = .ok (.file number) → opened.2.lead path = .ok (.file number)) ∧
      files.reverse.flatten = (filesOf opened).reverse.flatten ++ lines ∧
      files.reverse.flatten.flatten = retained opened ++ lines.flatten ∧
      Shows state files ∧ Retains opened files (settings.keep + 1) state ∧
      (lines ≠ [] → (shown state 0).length ≤ settings.maxSize ∨ lines.getLast? = some (shown state 0)) ∧
      (∀ calls, calls <+: asideCalls settings.path settings.keep → ∃ count, settings.keep ≤ count ∧
        Retains opened files count ({ state.1 with stream := none },
          calls.foldl (fun disk call => attempt call disk) (state.1.vacated state.2))) ∧
      Shows (state.1.rotate state.2) ([] :: files) ∧ Retains opened files settings.keep (state.1.rotate state.2) := by
  intro opened lines files state
  obtain ⟨dir, name, entries, started⟩ := Stocked.started held ready
  obtain ⟨file, size, after, ran, same⟩ := start_of_primary ready.primary
  obtain ⟨keeps, extended, _⟩ := Disk.Call.openAppend_of_ok ran
  have there : (start settings begun disk).2 = after := congrArg Prod.snd same
  have kept : (start settings begun disk).1.settings = settings :=
    congrArg (fun state : LineSink × Disk => state.1.settings) same
  rw [← there] at keeps extended
  exact ⟨keeps.written, fun path number => Disk.lead_extends extended, started.runs kept positive steps⟩

/-- A row of three files: the second line that is written makes the oldest of them go. -/
theorem LineSink.rotation_loses_oldest_three_files :
    let settings : SinkSettings := { path := "/j", maxSize := 3, keep := 2, syncInterval := 9 }
    let disk : Disk :=
      { entries := [(["j"], .file 0), (["j.1"], .file 1), (["j.2"], .file 2)], contents := [[1], [2], [3]] }
    let steps : List SinkStep := [.write [4, 4] 0, .write [5, 5] 0, .flush, .write [6] 0]
    let opened := start settings 0 disk
    let state := SinkStep.runAll steps opened
    disk.Held ∧ Ready opened ∧ retained opened = [3, 2, 1] ∧ retained state = [2, 1, 4, 4, 5, 5, 6] ∧
      Retains opened [[[5, 5], [6]], [[1], [4, 4]], [[2]], [[3]]] 3 state := by
  intro settings disk steps opened state
  have held : disk.Held := by
    intro name number named
    simp only [disk, List.mem_cons, Prod.mk.injEq, DiskEntry.file.injEq, List.not_mem_nil, or_false] at named
    rcases named with ⟨_, rfl⟩ | ⟨_, rfl⟩ | ⟨_, rfl⟩ <;> decide
  have kept : opened.1.settings = settings := by decide +kernel
  have leads : ∀ k ≤ settings.keep, opened.2.lead (rowName settings.path k) = .ok (.file k) := by
    intro k within
    have read : (opened.2.lead (rowName settings.path k)).toOption = some (.file k) := by
      match k, within with
      | 0, _ | 1, _ | 2, _ => decide +kernel
    cases there : opened.2.lead (rowName settings.path k) with
    | error fault => rw [there] at read; cases read
    | ok entry => rw [there] at read; exact congrArg Except.ok (Option.some.inj read)
  have ready : Ready opened := by
    refine ⟨by decide +kernel, by decide +kernel, ?_, ?_⟩ <;> rw [kept]
    · exact fun k within => .inr ⟨k, leads k within⟩
    · intro k within other otherWithin number file otherFile
      have one := (congrArg Except.toOption (leads k within)).symm.trans file
      have two := (congrArg Except.toOption (leads other otherWithin)).symm.trans otherFile
      exact DiskEntry.file.inj (Option.some.inj (one.trans two.symm))
  obtain ⟨_, _, _, _, _, retains, _⟩ := rotation_loses_oldest held (by decide) ready steps
  have files : (SinkStep.linesOf steps).foldl (fill settings.maxSize) (filesOf opened) =
    [[[5, 5], [6]], [[1], [4, 4]], [[2]], [[3]]] := by decide +kernel
  exact ⟨held, ready, by decide +kernel, by decide +kernel, files ▸ retains⟩

end BackupAtlas
