import BackupAtlas.Proofs.Deliveries

namespace BackupAtlas

-- Runs of calls are not to be unfolded.
attribute [local irreducible] Disk.check

namespace LineSink

variable {sink : LineSink} {disk : Disk} {path : String} {line : Bytes} {now : Nat}

/-- Whether the file that is opened to make room for a line is one that has not been set aside. -/
def reopensFilled (sink : LineSink) (length : Nat) (disk : Disk) : Bool :=
  sink.rotates length &&
    match sink.path? with
    | some path =>
      match sink.renewal path disk with
      | .ok (_, size) _ => size ≠ 0
      | .error _ _ => false
    | none => false

/-- Whether the file that the sink goes back to grows when the present one is closed, after it has been measured. -/
def recoversStale (sink : LineSink) (disk : Disk) : Bool :=
  sink.outlet ≠ .primary &&
    match Disk.Call.openAppend sink.settings.path disk with
    | .ok (file, size) _ => (sink.recover disk).2.size file ≠ size
    | .error _ _ => false

/-- Making room keeps the length right, unless the file that is opened for it holds something already. -/
theorem makeRoom_accurate (settled : sink.Settled disk) (accurate : sink.Accurate disk) (length : Nat) :
    (sink.makeRoom length disk).1.Accurate (sink.makeRoom length disk).2 ↔ sink.reopensFilled length disk = false := by
  cases full : sink.rotates length with
  | false =>
    have same : sink.makeRoom length disk = (sink, disk) := if_neg (ne_true_of_eq_false full)
    rw [same, reopensFilled, full, Bool.false_and]
    exact iff_of_true accurate rfl
  | true =>
    obtain ⟨path, used⟩ := settled.used full
    have made : sink.makeRoom length disk = sink.rotate disk := if_pos full
    rw [made, reopensFilled, full, Bool.true_and, used]
    rcases rotate_cases settled used with ⟨file, size, after, ran, told, same, _⟩ | ⟨fault, after, ran, lands⟩
    · dsimp only
      rw [same, accurate_fresh rfl, ran, told]
      simp only [decide_not, Bool.not_eq_false', decide_eq_true_eq]
      exact eq_comm
    · dsimp only
      rw [ran]
      exact iff_of_true lands.accurate rfl

/-- A sink that cannot go back stays as it is. -/
theorem recover_of_error (away : sink.outlet ≠ .primary) {fault : DiskFault} {after : Disk}
    (ran : Disk.Call.openAppend sink.settings.path disk = .error fault after) : sink.recover disk = (sink, after) := by
  cases outlet : sink.outlet with
  | primary => exact absurd outlet away
  | fallback | console | nowhere => simp only [recover, outlet, ran]

theorem recover_of_ok (away : sink.outlet ≠ .primary) {file : OpenFile} {size : Nat} {after : Disk}
    (ran : Disk.Call.openAppend sink.settings.path disk = .ok (file, size) after) :
    sink.recover disk = (sink.flush after).1.install file size .primary (sink.flush after).2 := by
  cases outlet : sink.outlet with
  | primary => exact absurd outlet away
  | fallback | console | nowhere => simp only [recover, outlet, ran]

/-- Going back keeps the length right, unless the file grows after it has been measured. -/
theorem recover_accurate (accurate : sink.Accurate disk) :
    (sink.recover disk).1.Accurate (sink.recover disk).2 ↔ sink.recoversStale disk = false := by
  by_cases primary : sink.outlet = .primary
  · have same : sink.recover disk = (sink, disk) := by simp only [recover, primary]
    rw [same, recoversStale, primary]
    exact iff_of_true accurate rfl
  have keeps := Disk.Call.openAppend_keepsFiles sink.settings.path disk
  rw [recoversStale, decide_eq_true (p := sink.outlet ≠ .primary) primary, Bool.true_and]
  cases ran : Disk.Call.openAppend sink.settings.path disk with
  | ok opened after =>
    rw [recover_of_ok primary ran]
    dsimp only
    rw [accurate_fresh rfl]
    simp only [decide_not, Bool.not_eq_false', decide_eq_true_eq]
    exact eq_comm
  | error fault after =>
    rw [ran] at keeps
    rw [recover_of_error primary ran]
    refine iff_of_true (fun file opened => ?_) rfl
    rw [accurate file opened, text, text, keeps.written]

/-- What is accurate once there is room for a line stays so, whether the line is taken or not. -/
theorem tryWrite_accurate (settled : sink.Settled disk) (line : Bytes) (now : Nat)
    (accurate : (sink.makeRoom line.length disk).1.Accurate (sink.makeRoom line.length disk).2) :
    (sink.tryWrite line now disk).2.1.Accurate (sink.tryWrite line now disk).2.2 := by
  obtain ⟨_, settled⟩ := makeRoom_settled settled line.length
  generalize made : sink.makeRoom line.length disk = ready at settled accurate
  rcases hasFile_or_console settled.there with active | console
  · rcases tryWrite_ends now made settled active with ⟨next, tried, takes, size⟩ | ⟨kept, tried, takes⟩
    · rw [tried]
      exact takes.accurate accurate size
    · have still := takes.settled settled
      rw [tried]
      exact (degrade_lands still.held still.holds (takes.outlet ▸ active)).accurate
  · rw [tryWrite_of_console made console]
    exact accurate

end LineSink

namespace SinkStep

variable {state : LineSink × Disk}

/-- The states that a step leads through: once there is room for a line, and after each try to write it. -/
def moments : SinkStep → LineSink × Disk → List (LineSink × Disk)
  | write line now, (sink, disk) =>
    (sink.rounds line now disk).flatMap fun round =>
      [round.1.makeRoom line.length round.2, (round.1.tryWrite line now round.2).2]
  | recover, state => [recover.run state]
  | flush, state => [flush.run state]
  | sync now, state => [(sync now).run state]

/-- Whether a step opens a file that holds more than is counted. -/
def miscounts : SinkStep → LineSink × Disk → Bool
  | write line now, (sink, disk) =>
    (sink.rounds line now disk).any fun round => round.1.reopensFilled line.length round.2
  | recover, (sink, disk) => sink.recoversStale disk
  | flush, _ => false
  | sync _, _ => false

def momentsOf : List SinkStep → LineSink × Disk → List (LineSink × Disk)
  | [], _ => []
  | step :: steps, state => step.moments state ++ momentsOf steps (step.run state)

def anyMiscounts : List SinkStep → LineSink × Disk → Bool
  | [], _ => false
  | step :: steps, state => step.miscounts state || anyMiscounts steps (step.run state)

end SinkStep

/-- Whether the length that is taken note of is that of the file in all of these states. -/
def AllAccurate (states : List (LineSink × Disk)) : Prop := ∀ state ∈ states, state.1.Accurate state.2

theorem allAccurate_nil : AllAccurate [] := fun _ member => absurd member List.not_mem_nil

theorem allAccurate_cons {state : LineSink × Disk} {states : List (LineSink × Disk)} :
    AllAccurate (state :: states) ↔ state.1.Accurate state.2 ∧ AllAccurate states := List.forall_mem_cons

theorem allAccurate_append {states more : List (LineSink × Disk)} :
    AllAccurate (states ++ more) ↔ AllAccurate states ∧ AllAccurate more := List.forall_mem_append

/-- A line that is written keeps the length right through all of its tries, unless one of them opens a filled file. -/
theorem LineSink.write_accurate {sink : LineSink} {disk : Disk} (settled : sink.Settled disk)
    (accurate : sink.Accurate disk) (line : Bytes) (now : Nat) :
    (AllAccurate (SinkStep.moments (.write line now) (sink, disk)) ↔
      SinkStep.miscounts (.write line now) (sink, disk) = false) ∧
    (AllAccurate (SinkStep.moments (.write line now) (sink, disk)) →
      (sink.write line now disk).1.Accurate (sink.write line now disk).2) := by
  simp only [SinkStep.moments, SinkStep.miscounts]
  induction sink, disk using write.induct line now with
  | case1 sink disk tried more ih =>
    have room := makeRoom_accurate settled accurate line.length
    have after := tryWrite_accurate settled line now
    have next := (tryWrite_settled settled line now).1
    rw [write, dif_pos more, rounds, dif_pos more, List.flatMap_cons, List.any_cons, Bool.or_eq_false_iff,
      allAccurate_append, allAccurate_cons, allAccurate_cons, ← room]
    refine ⟨⟨?_, ?_⟩, ?_⟩
    · rintro ⟨⟨ready, tried, -⟩, rest⟩
      exact ⟨ready, (ih next tried).1.mp rest⟩
    · rintro ⟨ready, rest⟩
      exact ⟨⟨ready, after ready, allAccurate_nil⟩, (ih next (after ready)).1.mpr rest⟩
    · rintro ⟨⟨-, tried, -⟩, rest⟩
      exact (ih next tried).2 rest
  | case2 sink disk tried done =>
    have room := makeRoom_accurate settled accurate line.length
    have after := tryWrite_accurate settled line now
    rw [write, dif_neg done, rounds, dif_neg done, List.flatMap_cons, List.any_cons, Bool.or_eq_false_iff,
      allAccurate_append, allAccurate_cons, allAccurate_cons, ← room]
    refine ⟨⟨?_, ?_⟩, ?_⟩
    · rintro ⟨⟨ready, -⟩, -⟩
      exact ⟨ready, rfl⟩
    · rintro ⟨ready, -⟩
      exact ⟨⟨ready, after ready, allAccurate_nil⟩, allAccurate_nil⟩
    · rintro ⟨⟨-, tried, -⟩, -⟩
      exact tried

namespace SinkStep

variable {state : LineSink × Disk}

/-- A step keeps the length right in all that it leads through, unless it opens a file that holds more. -/
theorem run_accurate (settled : state.1.Settled state.2) (accurate : state.1.Accurate state.2) (step : SinkStep) :
    (AllAccurate (step.moments state) ↔ step.miscounts state = false) ∧
      (AllAccurate (step.moments state) → (step.run state).1.Accurate (step.run state).2) := by
  have single {next : LineSink × Disk} : AllAccurate [next] ↔ next.1.Accurate next.2 := List.forall_mem_singleton
  cases step with
  | write line now => exact LineSink.write_accurate settled accurate line now
  | recover => exact ⟨single.trans (LineSink.recover_accurate accurate), single.mp⟩
  | flush =>
    have kept := (LineSink.flush_takes settled.holds).accurate accurate (LineSink.flush_size _ _)
    exact ⟨iff_of_true (single.mpr kept) rfl, single.mp⟩
  | sync now =>
    have kept := (LineSink.sync_takes settled.holds now).accurate accurate (LineSink.flush_size _ _)
    exact ⟨iff_of_true (single.mpr kept) rfl, single.mp⟩

/-- The length stays right through a whole run exactly if no step of it miscounts. -/
theorem runAll_accurate (settled : state.1.Settled state.2) (accurate : state.1.Accurate state.2)
    (steps : List SinkStep) : AllAccurate (momentsOf steps state) ↔ anyMiscounts steps state = false := by
  induction steps generalizing state with
  | nil => exact iff_of_true allAccurate_nil rfl
  | cons step steps ih =>
    obtain ⟨same, after⟩ := run_accurate settled accurate step
    have next := (run_settled settled step).1
    rw [momentsOf, anyMiscounts, allAccurate_append, Bool.or_eq_false_iff, ← same]
    exact ⟨fun ⟨first, rest⟩ => ⟨first, (ih next (after first)).mp rest⟩,
      fun ⟨first, rest⟩ => ⟨first, (ih next (after first)).mpr rest⟩⟩

end SinkStep

/-- The length that is taken note of is that of the file, with what has been collected for it, in every state of a run,
exactly if no rotation opens the file again that it was to set aside and no going back opens the file that is about to
grow. -/
theorem LineSink.accurate_iff {disk : Disk} (held : disk.Held) (settings : SinkSettings) (begun : Nat)
    (steps : List SinkStep) :
    let opened := start settings begun disk
    AllAccurate (opened :: SinkStep.momentsOf steps opened) ↔ SinkStep.anyMiscounts steps opened = false := by
  intro opened
  have lands : Lands _ opened := start_lands settings begun held
  exact allAccurate_cons.trans ((and_iff_right lands.accurate).trans
    (SinkStep.runAll_accurate lands.settled lands.accurate steps))

/-- Two paths to one file: it is measured before what has been collected for it is passed on. -/
theorem LineSink.accurate_iff_two_paths :
    let settings : SinkSettings := { path := "/j", fallback := some "/j", maxSize := 9, keep := 1, syncInterval := 9 }
    let disk : Disk := { refusals := [true] }
    let opened := start settings 0 disk
    disk.Held ∧ AllAccurate (opened :: SinkStep.momentsOf [.write [1] 0] opened) ∧
      ¬ AllAccurate (opened :: SinkStep.momentsOf [.write [1] 0, .recover] opened) := by
  intro settings disk opened
  have held : disk.Held := nofun
  refine ⟨held, (accurate_iff held settings 0 [.write [1] 0]).mpr (by decide +kernel), fun all => ?_⟩
  have none := (accurate_iff held settings 0 [.write [1] 0, .recover]).mp all
  exact absurd none (by decide +kernel)

/-- A directory of that name keeps the file from being set aside, and what it holds is no longer counted. -/
theorem LineSink.blocked_rotation_miscounts :
    let settings : SinkSettings := { path := "/j", maxSize := 3, keep := 1, syncInterval := 9 }
    let disk : Disk := { entries := [(["j.1"], .directory)] }
    let state := SinkStep.runAll [.write [1, 1] 0, .write [2, 2] 0] (start settings 0 disk)
    state.1.outlet = .primary ∧ state.1.size = 2 ∧ state.1.text state.2 (.file 0) = [1, 1, 2, 2] ∧
      ¬ state.1.Accurate state.2 := by
  intro settings disk state
  have opened : state.1.file? = some (.file 0) := by decide +kernel
  have size : state.1.size = 2 := by decide +kernel
  have text : state.1.text state.2 (.file 0) = [1, 1, 2, 2] := by decide +kernel
  refine ⟨by decide +kernel, size, text, fun accurate => ?_⟩
  have same := accurate _ opened
  rw [size, text] at same
  exact absurd same (by decide)

end BackupAtlas
