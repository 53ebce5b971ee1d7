import BackupAtlas.Proofs.Sinks

namespace BackupAtlas

theorem Outlet.rank_le (outlet : Outlet) : outlet.rank ≤ 3 := by cases outlet <;> decide

theorem Outlet.rank_pos {outlet : Outlet} (there : outlet ≠ .nowhere) : 0 < outlet.rank := by
  cases outlet with
  | nowhere => exact absurd rfl there
  | primary | fallback | console => decide

namespace LineSink

variable {sink : LineSink} {disk : Disk} {line : Bytes} {now : Nat}

/-- A line has been added to one file or written to the console, and nothing else has been added anywhere. -/
inductive Delivered (line : Bytes) (before after : LineSink × Disk) : Prop
  /-- The line follows what the file held and what may have been collected for it. -/
  | toFile (file : OpenFile) (kept : Bytes) (opened : after.1.file? = some file)
      (below : before.2.written file <+: kept) (above : kept <+: before.1.text before.2 file)
      (added : after.1.text after.2 file = kept ++ line)
      (others : ∀ other, other ≠ file → after.1.text after.2 other <+: before.1.text before.2 other)
      (console : after.1.console = before.1.console) (settings : after.1.settings = before.1.settings)
      (grows : before.2.Grows after.2)
  | toConsole (closed : after.1.file? = none) (added : after.1.console = before.1.console ++ [line])
      (files : ∀ file, after.1.text after.2 file <+: before.1.text before.2 file)
      (settings : after.1.settings = before.1.settings) (grows : before.2.Grows after.2)

theorem Delivered.settings {before after : LineSink × Disk} (delivered : Delivered line before after) :
    after.1.settings = before.1.settings := by
  cases delivered <;> assumption

theorem Delivered.after {first second third : LineSink × Disk} (delivered : Delivered line second third)
    (quiet : Quiet first second) : Delivered line first third := by
  cases delivered with
  | toFile file kept opened below above added others console settings grows =>
    exact .toFile file kept opened ((quiet.grows.written file).trans below) (above.trans (quiet.text file)) added
      (fun other apart => (others other apart).trans (quiet.text other)) (console.trans quiet.console)
      (settings.trans quiet.settings) (quiet.grows.trans grows)
  | toConsole closed added files settings grows =>
    exact .toConsole closed (quiet.console ▸ added) (fun file => (files file).trans (quiet.text file))
      (settings.trans quiet.settings) (quiet.grows.trans grows)

/-- What an open file takes is delivered to it. -/
theorem Takes.delivered {before after : LineSink × Disk} {file : OpenFile} (takes : Takes line before after)
    (opened : before.1.file? = some file) : Delivered line before after :=
  .toFile file (before.1.text before.2 file) (takes.file.trans opened) (List.prefix_append _ _) (List.prefix_refl _)
    (by rw [takes.text, if_pos opened])
    (fun other apart => ⟨[], by
      rw [takes.text, if_neg fun same => apart (Option.some.inj (same.symm.trans opened)), List.append_nil,
        List.append_nil]⟩)
    takes.console takes.settings takes.grows

/-- With an outlet that has a file, a line is handed to the file, and the outlet is given up if that fails. -/
theorem tryWrite_of_file {ready : LineSink × Disk} (made : sink.makeRoom line.length disk = ready)
    (active : ready.1.outlet.hasFile) : sink.tryWrite line now disk =
      if (ready.1.hand line ready.2).1 then
        (true, (ready.1.hand line ready.2).2.1.noteTaken line.length now (ready.1.hand line ready.2).2.2)
      else (false, (ready.1.hand line ready.2).2.1.degrade (ready.1.hand line ready.2).2.2) := by
  simp only [tryWrite, made]
  cases outlet : ready.1.outlet with
  | primary => rfl
  | fallback => rfl
  | console => rw [outlet] at active; cases active
  | nowhere => rw [outlet] at active; cases active

/-- With a file open the line is taken, or the outlet is given up. -/
theorem tryWrite_ends (now : Nat) {ready : LineSink × Disk} (made : sink.makeRoom line.length disk = ready)
    (settled : ready.1.Settled ready.2) (active : ready.1.outlet.hasFile) :
    (∃ next, sink.tryWrite line now disk = (true, next) ∧ Takes line ready next ∧
      next.1.size = ready.1.size + line.length) ∨
    ∃ kept, sink.tryWrite line now disk = (false, kept.1.degrade kept.2) ∧ Takes [] ready kept := by
  have handed := hand_takes settled.holds line
  rw [tryWrite_of_file made active]
  by_cases taken : (ready.1.hand line ready.2).1 = true
  · rw [if_pos taken] at handed ⊢
    have noted := noteTaken_takes (handed.settled settled).holds line.length now
    refine Or.inl ⟨_, rfl, ?_, by rw [noteTaken_size, hand_size]⟩
    have takes := handed.trans noted
    rwa [List.append_nil] at takes
  · rw [if_neg taken] at handed ⊢
    exact Or.inr ⟨_, rfl, handed⟩

/-- On the console every line is written at the first try. -/
theorem tryWrite_of_console {ready : LineSink × Disk} (made : sink.makeRoom line.length disk = ready)
    (console : ready.1.outlet = .console) :
    sink.tryWrite line now disk = (true, { ready.1 with console := ready.1.console ++ [line] }, ready.2) := by
  simp only [tryWrite, made, console]

theorem hasFile_or_console (there : sink.outlet ≠ .nowhere) : sink.outlet.hasFile ∨ sink.outlet = .console := by
  cases outlet : sink.outlet with
  | primary => exact .inl rfl
  | fallback => exact .inl rfl
  | console => exact .inr rfl
  | nowhere => exact absurd outlet there

/-- A try delivers the line, or gives an outlet up and leaves the line to the next one. -/
theorem tryWrite_settled (settled : sink.Settled disk) (line : Bytes) (now : Nat) :
    (sink.tryWrite line now disk).2.1.Settled (sink.tryWrite line now disk).2.2 ∧
      if (sink.tryWrite line now disk).1 then Delivered line (sink, disk) (sink.tryWrite line now disk).2
      else Quiet (sink, disk) (sink.tryWrite line now disk).2 := by
  obtain ⟨quiet, settled⟩ := makeRoom_settled settled line.length
  generalize made : sink.makeRoom line.length disk = ready at quiet settled
  rcases hasFile_or_console settled.there with active | console
  · rcases tryWrite_ends now made settled active with ⟨next, tried, takes, _⟩ | ⟨kept, tried, takes⟩
    · obtain ⟨file, opened⟩ := Option.isSome_iff_exists.mp (settled.active.trans active)
      rw [tried]
      exact ⟨takes.settled settled, (takes.delivered opened).after quiet⟩
    · have still := takes.settled settled
      have lands := degrade_lands still.held still.holds (takes.outlet ▸ active)
      rw [tried]
      exact ⟨lands.settled, (quiet.trans takes.quiet).trans lands.quiet⟩
  · rw [tryWrite_of_console made console]
    have closed : ready.1.file? = none := by
      have inactive := settled.active
      rw [console] at inactive
      exact Option.isNone_iff_eq_none.mp (Option.isSome_eq_false_iff.mp inactive)
    have written : Delivered line ready ({ ready.1 with console := ready.1.console ++ [line] }, ready.2) :=
      .toConsole closed rfl (fun file => List.prefix_refl _) rfl (.refl _)
    exact ⟨⟨settled.held, settled.active, settled.there, settled.leads⟩, written.after quiet⟩

/-- A line that is written is delivered, whatever outlets are given up before. -/
theorem write_settled (settled : sink.Settled disk) (line : Bytes) (now : Nat) :
    Delivered line (sink, disk) (sink.write line now disk) ∧
      (sink.write line now disk).1.Settled (sink.write line now disk).2 := by
  induction sink, disk using write.induct line now with
  | case1 sink disk tried more ih =>
    obtain ⟨next, quiet⟩ := tryWrite_settled settled line now
    rw [if_neg (by rw [more]; exact Bool.false_ne_true)] at quiet
    obtain ⟨delivered, settled⟩ := ih next
    rw [write, dif_pos more]
    exact ⟨delivered.after quiet, settled⟩
  | case2 sink disk tried done =>
    obtain ⟨next, delivered⟩ := tryWrite_settled settled line now
    rw [if_pos (eq_true_of_ne_false done)] at delivered
    rw [write, dif_neg done]
    exact ⟨delivered, next⟩

/-- The states in which a sink tries to write a line. -/
def rounds (line : Bytes) (now : Nat) (sink : LineSink) (disk : Disk) : List (LineSink × Disk) :=
  let tried := sink.tryWrite line now disk
  (sink, disk) :: if _ : tried.1 = false then rounds line now tried.2.1 tried.2.2 else []
termination_by sink.outlet.rank
decreasing_by exact rank_tryWrite_lt ‹_›

/-- Whether the file cannot be opened again when it has been set aside to make room for a line. -/
def reopeningFails (sink : LineSink) (length : Nat) (disk : Disk) : Bool :=
  sink.rotates length &&
    match sink.path? with
    | some path =>
      match sink.renewal path disk with
      | .ok _ _ => false
      | .error _ _ => true
    | none => false

/-- How often an outlet is given up in one try: when it cannot be opened again, and when it does not take the line. -/
def lossesOf (line : Bytes) (now : Nat) (state : LineSink × Disk) : Nat :=
  (state.1.reopeningFails line.length state.2).toNat + (!(state.1.tryWrite line now state.2).1).toNat

def degradations (line : Bytes) (now : Nat) (sink : LineSink) (disk : Disk) : Nat :=
  (sink.rounds line now disk).foldr (fun round count => lossesOf line now round + count) 0

/-- A file that cannot be opened again costs one outlet. -/
theorem rank_makeRoom (sink : LineSink) (length : Nat) (disk : Disk) :
    (sink.reopeningFails length disk).toNat + (sink.makeRoom length disk).1.outlet.rank ≤ sink.outlet.rank := by
  cases full : sink.rotates length with
  | false =>
    have same : sink.makeRoom length disk = (sink, disk) := if_neg (ne_true_of_eq_false full)
    exact Nat.le_of_eq (by rw [same, reopeningFails, full, Bool.false_and, Bool.toNat_false, Nat.zero_add])
  | true =>
    have made : sink.makeRoom length disk = sink.rotate disk := if_pos full
    rw [made, reopeningFails, full, Bool.true_and]
    cases used : sink.path? with
    | none => exact Nat.zero_add _ ▸ rank_rotate_le sink disk
    | some path =>
      rw [rotate_eq used]
      dsimp only
      generalize sink.renewal path disk = opened
      cases opened with
      | ok opened after => exact Nat.le_of_eq (Nat.zero_add _)
      | error fault after =>
        have active : ({ sink with stream := none } : LineSink).outlet.hasFile := hasFile_of_path? used
        exact Nat.one_add _ ▸ rank_degrade_lt active after

/-- Each failed try costs one outlet, and one more if a file could not be opened again. -/
theorem rank_tryWrite (settled : sink.Settled disk) (line : Bytes) (now : Nat) :
    lossesOf line now (sink, disk) + (sink.tryWrite line now disk).2.1.outlet.rank ≤ sink.outlet.rank := by
  obtain ⟨_, settled⟩ := makeRoom_settled settled line.length
  have room := rank_makeRoom sink line.length disk
  unfold lossesOf
  generalize made : sink.makeRoom line.length disk = ready at settled room
  suffices next : (!(sink.tryWrite line now disk).1).toNat + (sink.tryWrite line now disk).2.1.outlet.rank ≤
      ready.1.outlet.rank by
    dsimp only at room ⊢
    omega
  rcases hasFile_or_console settled.there with active | console
  · rcases tryWrite_ends now made settled active with ⟨next, tried, takes, _⟩ | ⟨kept, tried, takes⟩
    · exact Nat.le_of_eq (by rw [tried, Bool.not_true, Bool.toNat_false, Nat.zero_add, takes.outlet])
    · rw [tried, Bool.not_false, Bool.toNat_true, Nat.one_add, ← takes.outlet]
      exact rank_degrade_lt (takes.outlet ▸ active) _
  · exact Nat.le_of_eq (by rw [tryWrite_of_console made console, Bool.not_true, Bool.toNat_false, Nat.zero_add])

/-- Each outlet that is given up is one less on the way to the console. -/
theorem rank_write (settled : sink.Settled disk) (line : Bytes) (now : Nat) :
    sink.degradations line now disk + (sink.write line now disk).1.outlet.rank ≤ sink.outlet.rank := by
  induction sink, disk using write.induct line now with
  | case1 sink disk tried more ih =>
    have first := rank_tryWrite settled line now
    have rest := ih (tryWrite_settled settled line now).1
    rw [degradations] at rest ⊢
    rw [write, dif_pos more, rounds, dif_pos more, List.foldr_cons, Nat.add_assoc]
    exact Nat.le_trans (Nat.add_le_add_left rest _) first
  | case2 sink disk tried done =>
    have first := rank_tryWrite settled line now
    rwa [degradations, write, dif_neg done, rounds, dif_neg done, List.foldr_cons, List.foldr_nil, Nat.add_zero]

end LineSink

/-- What is done with a sink once it has been opened. -/
inductive SinkStep where
  | write (line : Bytes) (now : Nat)
  /-- Goes back to the file that lines are meant for. -/
  | recover
  | flush
  | sync (now : Nat)
  deriving DecidableEq, Repr

namespace SinkStep

def run : SinkStep → LineSink × Disk → LineSink × Disk
  | write line now, (sink, disk) => sink.write line now disk
  | recover, (sink, disk) => sink.recover disk
  | flush, (sink, disk) => sink.flush disk
  | sync now, (sink, disk) => sink.sync now disk

def runAll (steps : List SinkStep) (state : LineSink × Disk) : LineSink × Disk :=
  steps.foldl (fun state step => step.run state) state

variable {state : LineSink × Disk}

theorem run_settled (settled : state.1.Settled state.2) (step : SinkStep) :
    (step.run state).1.Settled (step.run state).2 ∧ (step.run state).1.settings = state.1.settings := by
  cases step with
  | write line now =>
    obtain ⟨delivered, settled⟩ := LineSink.write_settled settled line now
    exact ⟨settled, delivered.settings⟩
  | recover =>
    obtain ⟨quiet, settled, _⟩ := LineSink.recover_settled settled
    exact ⟨settled, quiet.settings⟩
  | flush =>
    have takes := LineSink.flush_takes settled.holds
    exact ⟨takes.settled settled, takes.settings⟩
  | sync now =>
    have takes := LineSink.sync_takes settled.holds now
    exact ⟨takes.settled settled, takes.settings⟩

/-- A sink stays settled through all steps of a run. -/
theorem runAll_settled (settled : state.1.Settled state.2) (steps : List SinkStep) :
    (runAll steps state).1.Settled (runAll steps state).2 ∧ (runAll steps state).1.settings = state.1.settings := by
  induction steps generalizing state with
  | nil => exact ⟨settled, rfl⟩
  | cons step steps ih =>
    obtain ⟨next, same⟩ := run_settled settled step
    obtain ⟨last, kept⟩ := ih next
    exact ⟨last, kept.trans same⟩

end SinkStep

/-- Steps that write no line add none to any file. -/
theorem SinkStep.run_quiet {state : LineSink × Disk} (settled : state.1.Settled state.2) {step : SinkStep}
    (silent : ∀ line now, step ≠ .write line now) : LineSink.Quiet state (step.run state) := by
  cases step with
  | write line now => exact absurd rfl (silent line now)
  | recover => exact (LineSink.recover_settled settled).1
  | flush => exact (LineSink.flush_takes settled.holds).quiet
  | sync now => exact (LineSink.sync_takes settled.holds now).quiet

/-- Lines are meant to go to one outlet after the other, and back to the first only by going back. -/
theorem SinkStep.rank_run {state : LineSink × Disk} (settled : state.1.Settled state.2) (step : SinkStep) :
    (step.run state).1.outlet.rank ≤ state.1.outlet.rank ∨ step = .recover ∧ (step.run state).1.outlet = .primary := by
  cases step with
  | write line now =>
    exact .inl (Nat.le_trans (Nat.le_add_left _ _) (LineSink.rank_write settled line now))
  | recover =>
    rcases (LineSink.recover_settled settled).2.2 with back | same
    · exact .inr ⟨rfl, back⟩
    · exact .inl (Nat.le_of_eq (congrArg Outlet.rank same))
  | flush => exact .inl (Nat.le_of_eq (congrArg Outlet.rank (LineSink.flush_takes settled.holds).outlet))
  | sync now => exact .inl (Nat.le_of_eq (congrArg Outlet.rank (LineSink.sync_takes settled.holds now).outlet))

/-- However calls to the disk go, a line that is written to a sink that has been opened goes to one file or to the
console, once, and nothing else adds to any of them. At most two outlets are given up on the way, and only going back
leads up again. A file is open exactly if lines are meant to go to one, it is what the path in use leads to, and there
is always somewhere for lines to go. -/
theorem LineSink.delivers_once {disk : Disk} (held : disk.Held) (settings : SinkSettings) (begun : Nat)
    (steps : List SinkStep) :
    let state := SinkStep.runAll steps (start settings begun disk)
    state.1.outlet ≠ .nowhere ∧ state.1.stream.isSome = state.1.outlet.hasFile ∧ state.1.settings = settings ∧
      (∀ file, state.1.file? = some file → ∃ path, state.1.path? = some path ∧ state.2.lead path = .ok file.entry) ∧
      (∀ line now, Delivered line state (state.1.write line now state.2) ∧
        state.1.degradations line now state.2 ≤ 2) ∧
      (∀ step : SinkStep, (∀ line now, step ≠ .write line now) → Quiet state (step.run state)) ∧
      ∀ step : SinkStep, (step.run state).1.outlet.rank ≤ state.1.outlet.rank ∨
        step = .recover ∧ (step.run state).1.outlet = .primary := by
  intro state
  have started := start_lands settings begun held
  obtain ⟨settled, kept⟩ : state.1.Settled state.2 ∧ state.1.settings = _ :=
    SinkStep.runAll_settled started.settled steps
  refine ⟨settled.there, ?_, kept.trans started.quiet.settings, ?_, fun line now => ?_,
    fun step => SinkStep.run_quiet settled, SinkStep.rank_run settled⟩
  · rw [← settled.active, file?, Option.isSome_map]
  · intro file opened
    obtain ⟨path, used, leads⟩ := settled.leads file opened
    exact ⟨path, used, leads.lead⟩
  · obtain ⟨delivered, after⟩ := write_settled settled line now
    have ranks := rank_write settled line now
    have below := Outlet.rank_pos after.there
    have above := state.1.outlet.rank_le
    exact ⟨delivered, by omega⟩

/-- The file makes room for a line but cannot be opened again, so the line goes to the second file. -/
theorem LineSink.delivers_once_reopening_refused :
    let settings : SinkSettings := { path := "/j", fallback := some "/k", maxSize := 1, keep := 0, syncInterval := 9 }
    let disk : Disk := { refusals := [false, false, false, true] }
    let state := SinkStep.runAll [.flush] (start settings 0 disk)
    disk.Held ∧ state.1.outlet = .primary ∧ (state.1.write [1, 2] 0 state.2).1.outlet = .fallback ∧
      state.1.degradations [1, 2] 0 state.2 = 1 ∧ Delivered [1, 2] state (state.1.write [1, 2] 0 state.2) := by
  intro settings disk state
  have held : disk.Held := nofun
  obtain ⟨_, _, _, _, writes, _⟩ := delivers_once held settings 0 [.flush]
  exact ⟨held, by decide +kernel, by decide +kernel, by decide +kernel, (writes [1, 2] 0).1⟩

end BackupAtlas
