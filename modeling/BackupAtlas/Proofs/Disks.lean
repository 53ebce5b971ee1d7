import BackupAtlas.Disk
import BackupAtlas.Proofs.Registries

namespace BackupAtlas

/-- What a name stands for if opening it gives this file. -/
def OpenFile.entry : OpenFile → DiskEntry
  | file number => .file number
  | device => .device

namespace Disk

variable {disk before after : Disk} {path dir : DiskPath} {name : String} {names : List String}

/-- What is in an open file. A device holds nothing. -/
def written (disk : Disk) : OpenFile → Bytes
  | .file number => disk.content number
  | .device => []

theorem written_of_contents (same : after.contents = before.contents) (file : OpenFile) :
    after.written file = before.written file := by
  cases file with
  | file number => simp only [written, content, same]
  | device => rfl

/-- The size of a file is the length of what has been written to it. -/
theorem size_eq (disk : Disk) (file : OpenFile) : disk.size file = (disk.written file).length := by cases file <;> rfl

/-- Whether there is such a file. -/
def Has (disk : Disk) : OpenFile → Prop
  | .file number => number < disk.contents.length
  | .device => True

/-- Every name of a file stands for a file that there is. -/
def Held (disk : Disk) : Prop := ∀ name number, (name, .file number) ∈ disk.entries → number < disk.contents.length

theorem mem_of_find?_file {number : Nat} (found : disk.find? path = some (.file number)) :
    (path, .file number) ∈ disk.entries := by
  unfold find? at found
  split at found
  · cases found
  · obtain ⟨_, _, split, _⟩ := List.lookup_eq_some_iff.mp found
    rw [split]
    exact List.mem_append_right _ List.mem_cons_self

/-- Whether a path goes through directories only and ends at one. -/
def Reaches (disk : Disk) (dir : DiskPath) : Prop := ∀ above, above <+: dir → disk.find? above = some .directory

theorem reaches_top (disk : Disk) : disk.Reaches [] := by
  intro above within
  rw [List.prefix_nil.mp within]
  rfl

theorem reaches_concat :
    disk.Reaches (dir ++ [name]) ↔ disk.Reaches dir ∧ disk.find? (dir ++ [name]) = some .directory := by
  refine ⟨fun reached => ⟨fun above within => reached above (within.trans (List.prefix_append _ _)),
    reached _ (List.prefix_refl _)⟩, fun ⟨reached, last⟩ above within => ?_⟩
  rcases List.prefix_concat_iff.mp within with rfl | within
  · exact last
  · exact reached above within

theorem Reaches.dropLast (reached : disk.Reaches dir) : disk.Reaches dir.dropLast :=
  fun above within => reached above (within.trans (List.dropLast_prefix dir))

/-- Whether every directory that can be reached stays one. -/
def Opens (before after : Disk) : Prop := ∀ dir, before.Reaches dir → after.Reaches dir

/-- Directories that stay through two calls stay through both. -/
theorem Opens.trans {first second third : Disk} (one : first.Opens second) (two : second.Opens third) :
    first.Opens third := fun dir reached => two dir (one dir reached)

/-- Whether every name keeps what it stands for. -/
def Extends (before after : Disk) : Prop := ∀ path entry, before.find? path = some entry → after.find? path = some entry

theorem Extends.refl (disk : Disk) : disk.Extends disk := fun _ _ => id

theorem Extends.trans {first second third : Disk} (one : first.Extends second) (two : second.Extends third) :
    first.Extends third := fun path entry there => two path entry (one path entry there)

theorem Extends.of_entries (same : after.entries = before.entries) : before.Extends after := by
  intro path entry there
  rw [← there]
  simp only [find?, same]

theorem Extends.opens (extended : before.Extends after) : before.Opens after :=
  fun _ reached above within => extended _ _ (reached above within)

theorem find?_put_self {entry : DiskEntry} (below : path ≠ []) : (put path entry disk).find? path = some entry := by
  simp [find?, put, below]

theorem find?_put_ne {entry : DiskEntry} {other : DiskPath} (different : other ≠ path) :
    (put path entry disk).find? other = disk.find? other := by
  unfold find? put
  split
  · rfl
  · rw [List.lookup_cons, beq_eq_false_iff_ne.mpr different]
    exact (lookup_filter (· ≠ path) _).trans (if_pos (decide_eq_true different))

/-- A new entry leaves all others in place. -/
theorem extends_put {entry : DiskEntry} (free : disk.find? path = none) : disk.Extends (put path entry disk) := by
  intro other found there
  rw [find?_put_ne _]
  · exact there
  · rintro rfl
    rw [free] at there
    cases there

theorem named?_ok {entry : Option DiskEntry} (found : disk.named? dir name = .ok entry) :
    name.utf8ByteSize ≤ maxNameLength ∧ disk.find? (dir ++ [name]) = entry := by
  unfold named? at found
  split at found
  · cases found
  · exact ⟨by omega, by injection found⟩

theorem named?_of_short (short : name.utf8ByteSize ≤ maxNameLength) :
    disk.named? dir name = .ok (disk.find? (dir ++ [name])) := if_neg (by omega)

/-- Names lead to the same place as long as the directories on the way stay. -/
theorem walk_opens {last : DiskPath} (opens : before.Opens after) (reached : before.Reaches dir)
    (ran : before.walk dir names = .ok last) : after.walk dir names = .ok last ∧ before.Reaches last := by
  induction names generalizing dir with
  | nil =>
    injection ran with same
    exact ⟨by rw [walk, same], same ▸ reached⟩
  | cons name names ih =>
    rw [walk] at ran ⊢
    by_cases here : name = "."
    · rw [if_pos here] at ran ⊢
      exact ih reached ran
    by_cases up : name = ".."
    · rw [if_neg here, if_pos up] at ran ⊢
      exact ih reached.dropLast ran
    rw [if_neg here, if_neg up] at ran ⊢
    cases named : before.named? dir name with
    | error fault => simp only [named, reduceCtorEq] at ran
    | ok found =>
      obtain ⟨short, atName⟩ := named?_ok named
      match found, atName with
      | some .directory, atName =>
        have below := reaches_concat.mpr ⟨reached, atName⟩
        simp only [named] at ran
        rw [named?_of_short short, opens _ below _ (List.prefix_refl _)]
        exact ih below ran
      | none, _ | some (.file _), _ | some .device, _ => simp only [named, reduceCtorEq] at ran

/-- Names lead through directories only. -/
inductive Passes (disk : Disk) : DiskPath → List String → Prop
  | done (dir : DiskPath) : Passes disk dir []
  | up {dir : DiskPath} {names : List String} (rest : Passes disk dir.dropLast names) : Passes disk dir (".." :: names)
  | down {dir : DiskPath} {name : String} {names : List String} (apart : name ≠ "..")
      (here : disk.named? dir name = .ok (some .directory)) (rest : Passes disk (dir ++ [name]) names) :
      Passes disk dir (name :: names)

theorem Passes.opens (passes : before.Passes dir names) (reached : before.Reaches dir) (opens : before.Opens after) :
    after.Passes dir names := by
  induction passes with
  | done dir => exact .done dir
  | up rest ih => exact .up (ih reached.dropLast)
  | down apart here rest ih =>
    obtain ⟨short, found⟩ := named?_ok here
    have below := reaches_concat.mpr ⟨reached, found⟩
    exact .down apart (by rw [named?_of_short short, opens _ below _ (List.prefix_refl _)]) (ih below)

/-- What a path leads to. -/
def lead (disk : Disk) (path : String) : Except DiskFault DiskEntry := do disk.entryAt (← disk.place path)

/-- A path leads to a name in a directory exactly if the names before it lead to that directory and it is a proper
one. -/
theorem place_within {path name : String} {slashed : Bool} : disk.place path = .ok (.within dir name slashed) ↔
    check path = .ok () ∧ path ≠ "" ∧ (FilePath.names path).getLast? = some name ∧ name ≠ "." ∧ name ≠ ".." ∧
      disk.walk [] (FilePath.names path).dropLast = .ok dir ∧ FilePath.isSlashed path = slashed := by
  simp only [place]
  cases check path with
  | error fault => simp [bind, Except.bind]
  | ok u =>
    by_cases empty : path = ""
    · simp [bind, Except.bind, empty]
    cases (FilePath.names path).getLast? with
    | none => simp [bind, Except.bind, pure, Except.pure, empty]
    | some last =>
      cases disk.walk [] (FilePath.names path).dropLast with
      | error fault => simp [bind, Except.bind, empty]
      | ok reached =>
        simp only [bind, Except.bind, pure, Except.pure, empty, if_false, Option.some.injEq, Except.ok.injEq, true_and,
          ne_eq, not_false_eq_true]
        by_cases here : last = "."
        · simp only [if_pos here, Except.ok.injEq, reduceCtorEq, false_iff]
          exact fun ⟨same, apart, _⟩ => apart (same ▸ here)
        by_cases up : last = ".."
        · simp only [if_neg here, if_pos up, Except.ok.injEq, reduceCtorEq, false_iff]
          exact fun ⟨same, _, apart, _⟩ => apart (same ▸ up)
        simp only [if_neg here, if_neg up, Except.ok.injEq, DiskPlace.within.injEq]
        exact ⟨fun ⟨dirs, same, slash⟩ => ⟨same, same ▸ here, same ▸ up, dirs, slash⟩,
          fun ⟨same, _, _, dirs, slash⟩ => ⟨dirs, same, slash⟩⟩

/-- A path leads to the same place as long as the directories on the way stay. -/
theorem place_opens {path : String} {slashed : Bool} (opens : before.Opens after)
    (found : before.place path = .ok (.within dir name slashed)) :
    after.place path = .ok (.within dir name slashed) ∧ before.Reaches dir := by
  obtain ⟨checked, nonempty, last, here, up, walked, slash⟩ := place_within.mp found
  obtain ⟨walked, reached⟩ := walk_opens opens (reaches_top _) walked
  exact ⟨place_within.mpr ⟨checked, nonempty, last, here, up, walked, slash⟩, reached⟩

/-- Whether a path leads to a name in a directory, and directories above it need not be made. -/
structure Sits (disk : Disk) (path : String) (dir : DiskPath) (name : String) : Prop where
  checked : check (FilePath.parent path) = .ok ()
  parents : disk.Passes [] (FilePath.components (FilePath.parent path))
  place : disk.place path = .ok (.within dir name false)
  reached : disk.Reaches dir
  short : name.utf8ByteSize ≤ maxNameLength

theorem Sits.opens {path : String} (sits : before.Sits path dir name) (opens : before.Opens after) :
    after.Sits path dir name :=
  ⟨sits.checked, sits.parents.opens (reaches_top _) opens, (place_opens opens sits.place).1, opens _ sits.reached,
    sits.short⟩

theorem lead_of_error {path : String} {fault : DiskFault} (checked : check path = .error fault) :
    disk.lead path = .error fault := by
  simp only [lead, place, checked]
  rfl

theorem entryAt_within (short : name.utf8ByteSize ≤ maxNameLength) : disk.entryAt (.within dir name false) =
    (disk.find? (dir ++ [name])).elim (.error .missing) .ok := by
  rw [entryAt, named?_of_short short]
  cases disk.find? (dir ++ [name]) with
  | none => rfl
  | some entry => cases entry <;> rfl

/-- What a path leads to is what stands under its last name. -/
theorem lead_within {path : String} (place : disk.place path = .ok (.within dir name false))
    (short : name.utf8ByteSize ≤ maxNameLength) :
    disk.lead path = (disk.find? (dir ++ [name])).elim (.error .missing) .ok := by
  rw [lead, place]
  exact entryAt_within short

/-- Whether a path leads to a file, through directories that need not be made. -/
def Leads (disk : Disk) (path : String) (file : OpenFile) : Prop :=
  ∃ dir name, disk.Sits path dir name ∧ disk.find? (dir ++ [name]) = some file.entry

theorem Leads.lead {path : String} {file : OpenFile} (leads : disk.Leads path file) :
    disk.lead path = .ok file.entry := by
  obtain ⟨dir, name, sits, found⟩ := leads
  rw [lead_within sits.place sits.short, found, Option.elim_some]

/-- A path leads to the same file as long as no entry is taken away. -/
theorem Leads.extends {path : String} {file : OpenFile} (leads : before.Leads path file)
    (extended : before.Extends after) : after.Leads path file := by
  obtain ⟨dir, name, sits, found⟩ := leads
  exact ⟨dir, name, sits.opens extended.opens, extended _ _ found⟩

/-- The file that a path leads to is there. -/
theorem Leads.has {path : String} {file : OpenFile} (leads : disk.Leads path file) (held : disk.Held) :
    disk.Has file := by
  obtain ⟨dir, name, _, found⟩ := leads
  cases file with
  | file number => exact held _ number (mem_of_find?_file found)
  | device => trivial

-- Whether a path can be followed is never looked into from here on, which keeps runs of calls from being unfolded.
attribute [local irreducible] check

/-- Names may change, but no file does. -/
structure Keeps (before after : Disk) : Prop where
  written : ∀ file, after.written file = before.written file
  length : before.contents.length ≤ after.contents.length
  held : before.Held → after.Held

namespace Keeps

theorem refl (disk : Disk) : disk.Keeps disk := ⟨fun _ => rfl, Nat.le_refl _, id⟩

theorem trans {first second third : Disk} (one : first.Keeps second) (two : second.Keeps third) :
    first.Keeps third where
  written file := (two.written file).trans (one.written file)
  length := Nat.le_trans one.length two.length
  held held := two.held (one.held held)

theorem has {file : OpenFile} (keeps : before.Keeps after) (has : before.Has file) : after.Has file := by
  cases file with
  | file number => exact Nat.lt_of_lt_of_le has keeps.length
  | device => trivial

/-- Names of files may go and may change. -/
theorem of_named (same : after.contents = before.contents)
    (origin : ∀ name number, (name, .file number) ∈ after.entries → ∃ old, (old, .file number) ∈ before.entries) :
    before.Keeps after where
  written := written_of_contents same
  length := same ▸ Nat.le_refl _
  held held name number named := by
    obtain ⟨old, named⟩ := origin name number named
    exact same ▸ held old number named

theorem of_entries (names : after.entries = before.entries) (same : after.contents = before.contents) :
    before.Keeps after := of_named same fun name _ named => ⟨name, names ▸ named⟩

theorem put_directory (disk : Disk) (path : DiskPath) : disk.Keeps (put path .directory disk) :=
  of_named rfl fun name number named => by
    rcases List.mem_cons.mp named with new | named
    · cases new
    · exact ⟨name, (List.mem_filter.mp named).1⟩

theorem erase (disk : Disk) (path : DiskPath) : disk.Keeps (erase path disk) :=
  of_named rfl fun name _ named => ⟨name, (List.mem_filter.mp named).1⟩

theorem move (disk : Disk) (source target : DiskPath) : disk.Keeps (move source target disk) :=
  of_named rfl fun name number named => by
    obtain ⟨⟨old, entry⟩, there, moved⟩ := List.mem_map.mp named
    have same : entry = .file number := by
      dsimp only at moved
      split at moved <;> injection moved
    exact ⟨old, same ▸ (List.mem_filter.mp there).1⟩

theorem makeFile (disk : Disk) (path : DiskPath) :
    disk.Keeps { put path (.file disk.contents.length) disk with contents := disk.contents ++ [[]] } where
  written file := by
    cases file with
    | file number =>
      simp only [Disk.written, content, List.getD_eq_getElem?_getD]
      rcases Nat.lt_trichotomy number disk.contents.length with less | same | more
      · rw [List.getElem?_append_left less]
      · simp [same]
      · rw [List.getElem?_eq_none (by simp; omega), List.getElem?_eq_none (by omega)]
    | device => rfl
  length := by simp
  held held name number named := by
    rcases List.mem_cons.mp named with new | named
    · cases new
      simp
    · have there := held name number (List.mem_filter.mp named).1
      simp only [List.length_append]
      omega

end Keeps

namespace Call

variable {α β : Type}

/-- Whether a call changes no file, also when it fails. -/
def KeepsFiles (call : Call α) : Prop :=
  ∀ disk, Ends (fun _ after => disk.Keeps after) (fun _ after => disk.Keeps after) (call disk)

namespace KeepsFiles

/-- Calls that keep files can be joined. -/
theorem bind {call : Call α} {next : α → Call β} (one : call.KeepsFiles) (two : ∀ a, (next a).KeepsFiles) :
    (call >>= next).KeepsFiles := fun disk =>
  Ends.bind.mpr ((one disk).imp
    (fun a between kept => (two a between).imp (fun _ _ => kept.trans) (fun _ _ => kept.trans)) (fun _ _ => id))

theorem pure (a : α) : (Pure.pure a : Call α).KeepsFiles := fun disk => .refl disk

theorem throw (fault : DiskFault) : (MonadExcept.throw fault : Call α).KeepsFiles := fun disk => .refl disk

theorem get : (MonadState.get : Call Disk).KeepsFiles := fun disk => .refl disk

theorem change {next : Disk → Disk} (keeps : ∀ disk : Disk, disk.Keeps (next disk)) :
    (modify next : Call PUnit).KeepsFiles := keeps

theorem ask (question : Disk → Except DiskFault α) : (Call.ask question).KeepsFiles := by
  intro disk
  unfold Call.ask
  cases question disk <;> exact .refl disk

end KeepsFiles

/-- To ask whether a call is refused changes no name and no file. -/
theorem admitted_ends (disk : Disk) :
    Ends (fun _ after => after.entries = disk.entries ∧ after.contents = disk.contents)
      (fun _ after => after.entries = disk.entries ∧ after.contents = disk.contents) (admitted disk) := by
  rw [admitted, bind_eq, get_eq]
  dsimp only
  cases disk.refusals with
  | nil => exact ⟨rfl, rfl⟩
  | cons refused later => cases refused <;> exact ⟨rfl, rfl⟩

theorem admitted_keepsFiles : admitted.KeepsFiles := fun disk =>
  (admitted_ends disk).imp (fun _ _ same => .of_entries same.1 same.2) (fun _ _ same => .of_entries same.1 same.2)

theorem makeDirsWithin_keepsFiles (dir : DiskPath) (names : List String) : (makeDirsWithin dir names).KeepsFiles := by
  induction names generalizing dir with
  | nil => exact .pure _
  | cons name names ih =>
    rw [makeDirsWithin]
    split
    · exact ih _
    · refine .bind (.ask _) fun found => ?_
      split
      · exact ih _
      · exact .throw _
      · exact .bind (.change (.put_directory · _)) fun _ => ih _

theorem makeDirs_keepsFiles (path : String) : (makeDirs path).KeepsFiles :=
  .bind (.ask _) fun _ => makeDirsWithin_keepsFiles _ _

theorem openFile_keepsFiles (path : String) : (openFile path).KeepsFiles := by
  refine .bind (.ask _) fun place => ?_
  split
  · refine .bind (.ask _) fun found => ?_
    split
    · exact .throw _
    · exact .pure _
    · exact .pure _
    · exact fun disk => .makeFile disk _
  · exact .throw _

/-- To open a file for more changes no file. -/
theorem openAppend_keepsFiles (path : String) : (openAppend path).KeepsFiles :=
  .bind (makeDirs_keepsFiles _) fun _ => .bind admitted_keepsFiles fun _ =>
    .bind (openFile_keepsFiles path) fun _ => .bind .get fun _ => .pure _

theorem remove_keepsFiles (path : String) : (remove path).KeepsFiles := by
  refine .bind admitted_keepsFiles fun _ => .bind (.ask _) fun place => .bind (.ask _) fun entry => ?_
  split
  · exact .throw _
  · exact .throw _
  · exact .change (.erase · _)

/-- To rename a file changes what no file holds. -/
theorem rename_keepsFiles (source target : String) : (rename source target).KeepsFiles := by
  refine .bind admitted_keepsFiles fun _ => .bind (.ask _) fun from' => .bind (.ask _) fun to' => ?_
  split
  · refine .bind (.ask _) fun entry => .bind (.ask _) fun old => ?_
    split
    · refine .bind .get fun disk => ?_
      split
      · exact .bind (.throw _) fun _ => .change (.move · _ _)
      · exact .change (.move · _ _)
    · exact .bind (.throw _) fun _ => .change (.move · _ _)
    · exact .bind (.throw _) fun _ => .change (.move · _ _)
    · exact .change (.move · _ _)
    · split
      · exact .bind (.throw _) fun _ => .change (.move · _ _)
      · exact .change (.move · _ _)
  · exact .throw _

theorem ask_ends (question : Disk → Except DiskFault α) (disk : Disk) :
    Ends (fun a after => question disk = .ok a ∧ disk = after) (fun _ after => disk = after) (ask question disk) := by
  unfold ask
  cases question disk <;> simp only [Ends, and_self]

theorem ask_of_ok {question : Disk → Except DiskFault α} {disk : Disk} {a : α} (asked : question disk = .ok a) :
    ask question disk = .ok a disk := by rw [ask, asked]

/-- Directories that have been made can be gone through, and nothing is lost on the way. -/
theorem makeDirsWithin_ends (dir : DiskPath) (names : List String) (disk : Disk) :
    Ends (fun _ after => disk.Extends after ∧ after.Passes dir names) (fun _ after => disk.Extends after)
      (makeDirsWithin dir names disk) := by
  induction names generalizing dir disk with
  | nil => exact ⟨.refl disk, .done dir⟩
  | cons name names ih =>
    rw [makeDirsWithin]
    by_cases up : name = ".."
    · rw [if_pos up]
      exact (ih _ disk).imp (fun _ _ made => ⟨made.1, up ▸ .up made.2⟩) fun _ _ => id
    rw [if_neg up]
    refine Ends.bind.mpr ((ask_ends _ disk).imp ?_ fun _ _ same => same ▸ .refl disk)
    rintro found _ ⟨named, rfl⟩
    obtain ⟨short, atName⟩ := named?_ok named
    have made {between : Disk} (extended : disk.Extends between)
        (there : between.find? (dir ++ [name]) = some .directory) :
        Ends (fun _ after => disk.Extends after ∧ after.Passes dir (name :: names)) (fun _ after => disk.Extends after)
          (makeDirsWithin (dir ++ [name]) names between) :=
      (ih _ between).imp (fun _ _ made => ⟨extended.trans made.1,
        .down up (by rw [named?_of_short short, made.1 _ _ there]) made.2⟩) fun _ _ made => extended.trans made
    match found, atName with
    | some .directory, atName => exact made (.refl _) atName
    | none, atName =>
      exact made (extends_put atName) (find?_put_self (List.append_ne_nil_of_right_ne_nil dir (List.cons_ne_nil _ _)))
    | some (.file _), _ => exact .refl _
    | some .device, _ => exact .refl _

/-- Directories that are made take nothing away, and then the path passes through them. -/
theorem makeDirs_ends (path : String) (disk : Disk) :
    Ends (fun _ after => disk.Extends after ∧ check path = .ok () ∧ after.Passes [] (FilePath.components path))
      (fun _ after => disk.Extends after) (makeDirs path disk) := by
  unfold makeDirs
  generalize FilePath.components path = names
  refine Ends.bind.mpr ((ask_ends _ disk).imp ?_ fun _ _ same => same ▸ .refl disk)
  rintro _ _ ⟨checked, rfl⟩
  exact (makeDirsWithin_ends [] names disk).imp (fun _ _ made => ⟨made.1, checked, made.2⟩) fun _ _ => id

theorem makeDirsWithin_of_passes {dir : DiskPath} {names : List String} {disk : Disk} (passes : disk.Passes dir names) :
    makeDirsWithin dir names disk = .ok () disk := by
  induction passes with
  | done dir => rfl
  | up rest ih => rw [makeDirsWithin, if_pos rfl, ih]
  | down apart here rest ih =>
    rw [makeDirsWithin, if_neg apart, bind_eq, ask_of_ok here]
    exact ih

/-- Nothing has to be made where the path passes already. -/
theorem makeDirs_of_passes {path : String} {disk : Disk} (checked : check path = .ok ())
    (passes : disk.Passes [] (FilePath.components path)) : makeDirs path disk = .ok () disk := by
  unfold makeDirs
  generalize FilePath.components path = names at passes
  have asked : ask (fun _ => check path) disk = .ok () disk := ask_of_ok checked
  rw [bind_eq, asked]
  exact makeDirsWithin_of_passes passes

/-- A file that is opened stands under the name that its path leads to. -/
theorem openFile_ends (path : String) (disk : Disk) :
    Ends (fun file after => disk.Extends after ∧ ∃ dir name, disk.place path = .ok (.within dir name false) ∧
        name.utf8ByteSize ≤ maxNameLength ∧ after.find? (dir ++ [name]) = some file.entry)
      (fun _ after => disk.Extends after) (openFile path disk) := by
  refine Ends.bind.mpr ((ask_ends _ disk).imp ?_ fun _ _ same => same ▸ .refl disk)
  rintro place _ ⟨placed, rfl⟩
  match place, placed with
  | .within dir name false, placed =>
    refine Ends.bind.mpr ((ask_ends _ disk).imp ?_ fun _ _ same => same ▸ .refl disk)
    rintro found _ ⟨named, rfl⟩
    obtain ⟨short, atName⟩ := named?_ok named
    match found, atName with
    | some .directory, _ => exact .refl _
    | some (.file number), atName => exact ⟨.refl _, dir, name, placed, short, atName⟩
    | some .device, atName => exact ⟨.refl _, dir, name, placed, short, atName⟩
    | none, atName =>
      exact ⟨extends_put atName, dir, name, placed, short,
        find?_put_self (List.append_ne_nil_of_right_ne_nil dir (List.cons_ne_nil _ _))⟩
  | .within _ _ true, _ => exact .refl _
  | .reached _, _ => exact .refl _

/-- A file that has been opened is what its path leads to, and its size is told. -/
theorem openAppend_ends (path : String) (disk : Disk) :
    Ends (fun opened after => disk.Extends after ∧ after.Leads path opened.1 ∧ opened.2 = after.size opened.1)
      (fun _ after => disk.Extends after) (openAppend path disk) := by
  unfold openAppend
  refine Ends.bind.mpr ((makeDirs_ends _ disk).imp ?_ fun _ _ => id)
  rintro _ made ⟨extended, checked, passes⟩
  have allows {after : Disk} (same : after.entries = made.entries ∧ after.contents = made.contents) :
      disk.Extends after := extended.trans (.of_entries same.1)
  refine Ends.bind.mpr ((admitted_ends made).imp ?_ fun _ _ => allows)
  intro _ between same
  refine Ends.bind.mpr ((openFile_ends path between).imp ?_ fun _ _ => (allows same).trans)
  rintro file after ⟨opened, dir, name, placed, short, found⟩
  obtain ⟨placed, reached⟩ := place_opens opened.opens placed
  have opens : made.Opens after := (Extends.of_entries same.1).opens.trans opened.opens
  exact ⟨(allows same).trans opened, ⟨dir, name,
    ⟨checked, passes.opens (reaches_top _) opens, placed, opened.opens _ reached, short⟩, found⟩, rfl⟩

/-- A file that is opened for more is the one that its path leads to, and its size is told. -/
theorem openAppend_of_ok {path : String} {disk after : Disk} {file : OpenFile} {size : Nat}
    (ran : openAppend path disk = .ok (file, size) after) :
    disk.Keeps after ∧ disk.Extends after ∧ after.Leads path file ∧ size = after.size file := by
  have keeps := openAppend_keepsFiles path disk
  have ends := openAppend_ends path disk
  rw [ran] at keeps ends
  exact ⟨keeps, ends⟩

end Call

/-- No name changes, and no file but the given one. -/
structure WritesTo (file : OpenFile) (before after : Disk) : Prop where
  names : after.entries = before.entries
  length : after.contents.length = before.contents.length
  others : ∀ other, other ≠ file → after.written other = before.written other

namespace WritesTo

variable {file : OpenFile}

theorem refl (file : OpenFile) (disk : Disk) : disk.WritesTo file disk := ⟨rfl, rfl, fun _ _ => rfl⟩

theorem trans {first second third : Disk} (one : first.WritesTo file second) (two : second.WritesTo file third) :
    first.WritesTo file third where
  names := two.names.trans one.names
  length := two.length.trans one.length
  others other apart := (two.others other apart).trans (one.others other apart)

end WritesTo

/-- What is appended to a file is added to that file only. -/
theorem written_append {number : Nat} (has : disk.Has (.file number)) (data : Bytes) (file : OpenFile) :
    (append number data disk).written file =
      if file = .file number then disk.written file ++ data else disk.written file := by
  cases file with
  | device => simp [written]
  | file other =>
    simp only [written, content, append, List.getD_eq_getElem?_getD, OpenFile.file.injEq]
    by_cases same : other = number
    · subst same
      rw [List.getElem?_set_self has, if_pos rfl]
      rfl
    · rw [List.getElem?_set_ne (Ne.symm same), if_neg same]

theorem writesTo_append {number : Nat} (has : disk.Has (.file number)) (data : Bytes) :
    disk.WritesTo (.file number) (append number data disk) where
  names := rfl
  length := List.length_set
  others other apart := by rw [written_append has, if_neg apart]

/-- A write that goes through adds its data, and one that fails adds nothing. -/
theorem Call.write_ends {file : OpenFile} (has : disk.Has file) (data : Bytes) :
    Ends (fun _ after => disk.WritesTo file after ∧ after.written file = disk.written file ++ data)
      (fun _ after => disk.WritesTo file after ∧ after.written file = disk.written file) (write data file disk) := by
  cases file with
  | device => exact ⟨.refl _ _, rfl⟩
  | file number =>
    have admits {after : Disk} (same : after.entries = disk.entries ∧ after.contents = disk.contents) :
        disk.WritesTo (.file number) after ∧ after.written (.file number) = disk.written (.file number) :=
      ⟨⟨same.1, congrArg List.length same.2, fun other _ => written_of_contents same.2 other⟩,
        written_of_contents same.2 _⟩
    refine Ends.bind.mpr ((admitted_ends disk).imp (fun _ between same => ?_) fun _ after same => admits same)
    have has : between.Has (.file number) := by
      change number < between.contents.length
      rw [same.2]
      exact has
    refine ⟨(admits same).1.trans (writesTo_append has data), ?_⟩
    rw [written_append has, if_pos rfl, (admits same).2]

end Disk
end BackupAtlas
