import BackupAtlas.LineSink
import BackupAtlas.Proofs.Disks
import BackupAtlas.Proofs.HostPaths

namespace BackupAtlas

namespace LineSink

/-- What makes a path that of a file set aside. -/
theorem numbered_eq (path : String) (number : Nat) : numbered path number = path ++ ("." ++ number.repr) := by
  rw [numbered, ← String.append_assoc]
  rfl

theorem numbered_injective {path : String} {number other : Nat} (same : numbered path number = numbered path other) :
    number = other := by
  rw [numbered_eq, numbered_eq, String.append_right_inj, String.append_right_inj] at same
  have digits := congrArg String.toList same
  rw [Nat.toList_repr, Nat.toList_repr] at digits
  rw [← Nat.ofDigitChars_ten_toDigits (n := number), digits, Nat.ofDigitChars_ten_toDigits]

theorem isDigit_of_mem_repr {number : Nat} {c : Char} (member : c ∈ number.repr.toList) : c.isDigit :=
  Nat.isDigit_of_mem_toDigits (by decide) (by decide) (Nat.toList_repr ▸ member)

theorem not_mem_tail (number : Nat) {c : Char} (point : c ≠ '.') (digit : c.isDigit = false) :
    c ∉ ("." ++ number.repr).toList := by
  rw [String.toList_append, List.mem_append, not_or]
  refine ⟨fun member => point (List.mem_singleton.mp member), fun member => ?_⟩
  rw [isDigit_of_mem_repr member] at digit
  cases digit

theorem exists_digit (path : String) (number : Nat) : ∃ c ∈ (numbered path number).toList, c.isDigit := by
  obtain ⟨c, member⟩ := List.exists_mem_of_ne_nil _ (Nat.toList_repr ▸ Nat.toDigits_ne_nil : number.repr.toList ≠ [])
  refine ⟨c, ?_, isDigit_of_mem_repr member⟩
  rw [numbered_eq, String.toList_append, String.toList_append]
  exact List.mem_append_right _ (List.mem_append_right _ member)

/-- A name with a digit in it is none of those that have a meaning of their own. -/
theorem numbered_ne {path other : String} {number : Nat} (digitless : other.toList.all fun c => !c.isDigit) :
    numbered path number ≠ other := by
  rintro rfl
  obtain ⟨c, member, digit⟩ := exists_digit path number
  have none := List.all_eq_true.mp digitless c member
  rw [digit] at none
  cases none

/-- A path with a number leads to the same directory, to the name with that number. -/
theorem place_numbered {disk : Disk} {path name : String} {dir : DiskPath} {number : Nat}
    (place : disk.place path = .ok (.within dir name false)) (checked : Disk.check (numbered path number) = .ok ()) :
    disk.place (numbered path number) = .ok (.within dir (numbered name number) false) := by
  obtain ⟨_, nonempty, last, here, up, walked, unslashed⟩ := Disk.place_within.mp place
  have slashless : '/' ∉ ("." ++ number.repr).toList := not_mem_tail number (by decide) (by decide)
  have names : FilePath.names (numbered path number) = (FilePath.names path).dropLast ++ [numbered name number] := by
    rw [numbered_eq, numbered_eq]
    exact FilePath.names_append last unslashed nonempty slashless
  refine Disk.place_within.mpr ⟨checked, numbered_ne (by decide), ?_, numbered_ne (by decide), numbered_ne (by decide),
    ?_, ?_⟩
  · rw [names, List.getLast?_concat]
  · rw [names, List.dropLast_concat, walked]
  · rw [numbered_eq]
    exact FilePath.isSlashed_append (by rw [String.toList_append]; exact List.cons_ne_nil _ _) slashless

end LineSink

namespace Disk

variable {disk : Disk} {path source target other : DiskPath}

theorem find?_erase (apart : ¬ path <+: other) : (erase path disk).find? other = disk.find? other := by
  unfold find? erase
  split
  · rfl
  · refine (lookup_filter (fun name => !path.isPrefixOf name) _).trans (if_pos ?_)
    rw [Bool.not_eq_true', Bool.eq_false_iff]
    exact fun under => apart (List.isPrefixOf_iff_prefix.mp under)

theorem find?_erase_self (below : path ≠ []) : (erase path disk).find? path = none := by
  rw [find?, if_neg below]
  refine (lookup_filter (fun name => !path.isPrefixOf name) _).trans (if_neg ?_)
  rw [Bool.not_eq_true', List.isPrefixOf_iff_prefix.mpr (List.prefix_refl _)]
  exact Bool.noConfusion

/-- In a list under changed names another name finds what the old one found. -/
theorem lookup_map_key {next : DiskPath → DiskPath} {old new : DiskPath} {entries : List (DiskPath × DiskEntry)}
    (same : ∀ entry ∈ entries, next entry.1 = new ↔ entry.1 = old) :
    (entries.map fun entry => (next entry.1, entry.2)).lookup new = entries.lookup old := by
  induction entries with
  | nil => rfl
  | cons entry entries ih =>
    obtain ⟨first, rest⟩ := List.forall_mem_cons.mp same
    rw [List.map_cons, List.lookup_cons, List.lookup_cons, ih rest]
    have keys : (new == next entry.1) = (old == entry.1) := by
      rw [Bool.eq_iff_iff, beq_iff_eq, beq_iff_eq, eq_comm, first, eq_comm]
    rw [keys]

/-- The name that an entry has once those under one name have been given another. -/
def renamed (source target name : DiskPath) : DiskPath :=
  if source.isPrefixOf name then target ++ name.drop source.length else name

theorem renamed_under (source target rest : DiskPath) : renamed source target (source ++ rest) = target ++ rest := by
  rw [renamed, if_pos (List.isPrefixOf_iff_prefix.mpr (List.prefix_append _ _)), List.drop_left]

theorem renamed_other {name : DiskPath} (apart : ¬ source <+: name) : renamed source target name = name := by
  rw [renamed, if_neg fun under => apart (List.isPrefixOf_iff_prefix.mp under)]

theorem move_entries (source target : DiskPath) (disk : Disk) : (move source target disk).entries =
    (disk.erase target).entries.map fun entry => (renamed source target entry.1, entry.2) := by
  refine List.map_congr_left fun entry _ => ?_
  dsimp only [renamed]
  split <;> rfl

theorem not_under_of_mem_erase {entry : DiskPath × DiskEntry} (member : entry ∈ (disk.erase target).entries) :
    ¬ target <+: entry.1 := by
  intro under
  have kept := (List.mem_filter.mp member).2
  dsimp only at kept
  rw [List.isPrefixOf_iff_prefix.mpr under] at kept
  cases kept

theorem find?_move (notUnder : ¬ source <+: other) (notAbove : ¬ target <+: other) :
    (move source target disk).find? other = disk.find? other := by
  refine .trans ?_ (find?_erase notAbove)
  unfold find?
  split
  · rfl
  · rw [move_entries]
    refine lookup_map_key fun entry _ => ?_
    by_cases under : source <+: entry.1
    · obtain ⟨rest, same⟩ := under
      rw [← same, renamed_under]
      exact iff_of_false (fun this => notAbove ⟨rest, this⟩) fun this => notUnder ⟨rest, this⟩
    · rw [renamed_other under]

theorem find?_move_target (below : target ≠ []) (started : source ≠ []) (apart : ¬ target <+: source) :
    (move source target disk).find? target = disk.find? source := by
  rw [← find?_erase apart, find?, find?, if_neg below, if_neg started, move_entries]
  refine lookup_map_key fun entry member => ?_
  by_cases under : source <+: entry.1
  · obtain ⟨rest, same⟩ := under
    rw [← same, renamed_under, List.append_right_eq_self, List.append_right_eq_self]
  · rw [renamed_other under]
    exact iff_of_false (fun this => not_under_of_mem_erase member (this ▸ List.prefix_refl _))
      fun this => under (this ▸ List.prefix_refl _)

theorem find?_move_source (started : source ≠ []) (apart : ¬ target <+: source) :
    (move source target disk).find? source = none := by
  rw [find?, if_neg started, move_entries]
  refine List.lookup_eq_none_iff.mpr fun entry member => ?_
  obtain ⟨old, _, rfl⟩ := List.mem_map.mp member
  rw [bne_iff_ne]
  by_cases under : source <+: old.1
  · obtain ⟨rest, same⟩ := under
    rw [← same, renamed_under]
    exact fun this => apart ⟨rest, this.symm⟩
  · rw [renamed_other under]
    exact fun this => under (this ▸ List.prefix_refl _)

/-- Directories stay where names are taken away that stand for none. -/
theorem opens_erase (plain : disk.find? path ≠ some .directory) : disk.Opens (erase path disk) := by
  intro dir reached above within
  rw [find?_erase fun under => plain (reached _ (under.trans within))]
  exact reached above within

theorem opens_move (plain : disk.find? source ≠ some .directory) (free : disk.find? target ≠ some .directory) :
    disk.Opens (move source target disk) := by
  intro dir reached above within
  rw [find?_move (fun under => plain (reached _ (under.trans within)))
    fun under => free (reached _ (under.trans within))]
  exact reached above within

namespace Call

variable {disk : Disk} {path target name newName : String} {dir : DiskPath}

theorem admitted_of_nil (admits : disk.refusals = []) : admitted disk = .ok () disk := by
  rw [admitted, bind_eq, get_eq]
  dsimp only
  rw [admits]
  rfl

theorem remove_missing (admits : disk.refusals = []) (place : disk.place path = .ok (.within dir name false))
    (short : name.utf8ByteSize ≤ maxNameLength) (free : disk.find? (dir ++ [name]) = none) :
    remove path disk = .error .missing disk := by
  rw [remove, bind_eq, admitted_of_nil admits]
  dsimp only
  rw [bind_eq, ask_of_ok place]
  dsimp only
  rw [bind_eq, ask, entryAt_within short, free]
  rfl

theorem remove_file {number : Nat} (admits : disk.refusals = [])
    (place : disk.place path = .ok (.within dir name false)) (short : name.utf8ByteSize ≤ maxNameLength)
    (there : disk.find? (dir ++ [name]) = some (.file number)) :
    remove path disk = .ok () (erase (dir ++ [name]) disk) := by
  rw [remove, bind_eq, admitted_of_nil admits]
  dsimp only
  rw [bind_eq, ask_of_ok place]
  dsimp only
  rw [bind_eq, ask, entryAt_within short, there]
  rfl

theorem rename_missing (admits : disk.refusals = []) (place : disk.place path = .ok (.within dir name false))
    (newPlace : disk.place target = .ok (.within dir newName false)) (short : name.utf8ByteSize ≤ maxNameLength)
    (free : disk.find? (dir ++ [name]) = none) : rename path target disk = .error .missing disk := by
  rw [rename, bind_eq, admitted_of_nil admits]
  dsimp only
  rw [bind_eq, ask_of_ok place]
  dsimp only
  rw [bind_eq, ask_of_ok newPlace]
  dsimp only
  rw [bind_eq, ask, entryAt_within short, free]
  rfl

/-- The row moves by renames that succeed as long as names are short and the target is no directory. -/
theorem rename_file {number : Nat} (admits : disk.refusals = [])
    (place : disk.place path = .ok (.within dir name false))
    (newPlace : disk.place target = .ok (.within dir newName false))
    (short : name.utf8ByteSize ≤ maxNameLength) (newShort : newName.utf8ByteSize ≤ maxNameLength)
    (there : disk.find? (dir ++ [name]) = some (.file number)) (free : disk.find? (dir ++ [newName]) = none) :
    rename path target disk = .ok () (move (dir ++ [name]) (dir ++ [newName]) disk) := by
  have entry : disk.entryAt (.within dir name false) = .ok (.file number) := by
    rw [entryAt_within short, there, Option.elim_some]
  have old : disk.named? dir newName = .ok none := by rw [named?_of_short newShort, free]
  rw [rename, bind_eq, admitted_of_nil admits]
  dsimp only
  rw [bind_eq, ask_of_ok place]
  dsimp only
  rw [bind_eq, ask_of_ok newPlace]
  dsimp only
  rw [bind_eq, ask_of_ok entry]
  dsimp only
  rw [bind_eq, ask_of_ok old]
  rfl

end Call

end Disk

namespace LineSink

/-- The names of a row of files: that of the file being written, and those with numbers. -/
def rowName (path : String) : Nat → String
  | 0 => path
  | number + 1 => numbered path (number + 1)

theorem rowName_of_pos {path : String} {number : Nat} (positive : 0 < number) :
    rowName path number = numbered path number := by
  cases number with
  | zero => cases positive
  | succ number => rfl

theorem numbered_ne_self (path : String) (number : Nat) : numbered path number ≠ path := by
  intro same
  have lengths := congrArg (List.length ∘ String.toList) same
  rw [numbered_eq] at lengths
  simp [String.toList_append] at lengths

/-- No two places of a row have the same name. -/
theorem rowName_injective {path : String} {number other : Nat} (same : rowName path number = rowName path other) :
    number = other := by
  match number, other with
  | 0, 0 => rfl
  | 0, _ + 1 => exact absurd same.symm (numbered_ne_self _ _)
  | _ + 1, 0 => exact absurd same (numbered_ne_self _ _)
  | _ + 1, _ + 1 => exact numbered_injective same

variable {disk : Disk} {path name : String} {dir : DiskPath} {keep : Nat} {entries : Nat → Option DiskEntry}

theorem place_rowName {k : Nat} (place : disk.place path = .ok (.within dir name false))
    (checked : Disk.check (rowName path k) = .ok ()) :
    disk.place (rowName path k) = .ok (.within dir (rowName name k) false) := by
  cases k with
  | zero => exact place
  | succ k => exact place_numbered place checked

/-- A row of files in a directory: what each of its names stands for. The names that files are set aside under can be
used and stand for files, if for anything. -/
structure Row (disk : Disk) (path : String) (keep : Nat) (dir : DiskPath) (name : String)
    (entries : Nat → Option DiskEntry) : Prop where
  sits : disk.Sits path dir name
  admits : disk.refusals = []
  fits : ∀ k ≤ keep, Disk.check (rowName path k) = .ok () ∧ (rowName name k).utf8ByteSize ≤ Disk.maxNameLength
  plain : ∀ k ≤ keep, entries k = none ∨ ∃ number, entries k = some (.file number)
  found : ∀ k, disk.find? (dir ++ [rowName name k]) = entries k

namespace Row

theorem place (row : Row disk path keep dir name entries) {k : Nat} (within : k ≤ keep) :
    disk.place (rowName path k) = .ok (.within dir (rowName name k) false) :=
  place_rowName row.sits.place (row.fits k within).1

theorem lead (row : Row disk path keep dir name entries) {k : Nat} (within : k ≤ keep) :
    disk.lead (rowName path k) = (entries k).elim (.error .missing) .ok := by
  rw [Disk.lead_within (row.place within) (row.fits k within).2, row.found]

theorem toOption_lead (row : Row disk path keep dir name entries) {k : Nat} (within : k ≤ keep) :
    (disk.lead (rowName path k)).toOption = entries k := by
  rw [row.lead within]
  cases entries k <;> rfl

theorem notDirectory (row : Row disk path keep dir name entries) {k : Nat} (within : k ≤ keep) :
    disk.find? (dir ++ [rowName name k]) ≠ some .directory := by
  rw [row.found]
  rcases row.plain k within with free | ⟨number, file⟩
  · rw [free]
    exact nofun
  · rw [file]
    exact nofun

theorem apart (dir : DiskPath) (name : String) {k other : Nat} (different : k ≠ other) :
    ¬ dir ++ [rowName name k] <+: dir ++ [rowName name other] := by
  intro under
  have same := (List.prefix_append_right_inj dir).mp under
  exact different (rowName_injective (List.cons.inj (same.eq_of_length rfl)).1)

/-- A name of the row is taken away. -/
theorem removed (row : Row disk path keep dir name entries) {k : Nat} (within : k ≤ keep) :
    Row (attempt (.remove (rowName path k)) disk) path keep dir name
        (fun other => if other = k then none else entries other) ∧
      (attempt (.remove (rowName path k)) disk).contents = disk.contents := by
  have place := row.place within
  have short := (row.fits k within).2
  rcases row.plain k within with free | ⟨number, file⟩
  · have missing := Disk.Call.remove_missing row.admits place short ((row.found k).trans free)
    have same : attempt (.remove (rowName path k)) disk = disk := by rw [attempt, Disk.Call.answer?, missing]
    rw [same]
    refine ⟨⟨row.sits, row.admits, row.fits, fun other below => ?_, fun other => ?_⟩, rfl⟩
    · split
      · exact .inl rfl
      · exact row.plain other below
    · split
      · rename_i this
        rw [this, row.found, free]
      · exact row.found other
  · have removes := Disk.Call.remove_file row.admits place short ((row.found k).trans file)
    have same : attempt (.remove (rowName path k)) disk = Disk.erase (dir ++ [rowName name k]) disk := by
      rw [attempt, Disk.Call.answer?, removes]
    rw [same]
    refine ⟨⟨row.sits.opens (Disk.opens_erase (row.notDirectory within)), row.admits, row.fits, fun other below => ?_,
      fun other => ?_⟩, rfl⟩
    · split
      · exact .inl rfl
      · exact row.plain other below
    · split
      · rename_i this
        rw [this, Disk.find?_erase_self (List.append_ne_nil_of_right_ne_nil dir (List.cons_ne_nil _ _))]
      · rename_i this
        rw [Disk.find?_erase (apart dir name (Ne.symm this)), row.found]

/-- A file of the row is given the name of a gap. -/
theorem moved (row : Row disk path keep dir name entries) {k gap : Nat} (within : k ≤ keep) (gapWithin : gap ≤ keep)
    (different : k ≠ gap) (free : entries gap = none) :
    Row (attempt (.rename (rowName path k) (rowName path gap)) disk) path keep dir name
        (fun other => if other = gap then entries k else if other = k then none else entries other) ∧
      (attempt (.rename (rowName path k) (rowName path gap)) disk).contents = disk.contents := by
  have place := row.place within
  have gapPlace := row.place gapWithin
  have short := (row.fits k within).2
  have gapShort := (row.fits gap gapWithin).2
  have plain : ∀ other ≤ keep,
      (if other = gap then entries k else if other = k then none else entries other) = none ∨ ∃ number,
        (if other = gap then entries k else if other = k then none else entries other) = some (.file number) := by
    intro other below
    split
    · exact row.plain k within
    · split
      · exact .inl rfl
      · exact row.plain other below
  rcases row.plain k within with none | ⟨number, file⟩
  · have missing := Disk.Call.rename_missing row.admits place gapPlace short ((row.found k).trans none)
    have same : attempt (.rename (rowName path k) (rowName path gap)) disk = disk := by
      rw [attempt, Disk.Call.answer?, missing]
    rw [same]
    refine ⟨⟨row.sits, row.admits, row.fits, plain, fun other => ?_⟩, rfl⟩
    split
    · rename_i this
      rw [this, row.found, free, none]
    · split
      · rename_i this
        rw [this, row.found, none]
      · exact row.found other
  · have renames := Disk.Call.rename_file row.admits place gapPlace short gapShort ((row.found k).trans file)
      ((row.found gap).trans free)
    have same : attempt (.rename (rowName path k) (rowName path gap)) disk =
        Disk.move (dir ++ [rowName name k]) (dir ++ [rowName name gap]) disk := by
      rw [attempt, Disk.Call.answer?, renames]
    rw [same]
    have below (k : Nat) : dir ++ [rowName name k] ≠ [] := List.append_ne_nil_of_right_ne_nil dir (List.cons_ne_nil _ _)
    refine ⟨⟨row.sits.opens (Disk.opens_move (row.notDirectory within) (row.notDirectory gapWithin)), row.admits,
      row.fits, plain, fun other => ?_⟩, rfl⟩
    split
    · rename_i this
      rw [this, Disk.find?_move_target (below gap) (below k) (apart dir name different.symm), row.found]
    · rename_i notGap
      split
      · rename_i this
        rw [this, Disk.find?_move_source (below k) (apart dir name different.symm)]
      · rename_i notThis
        rw [Disk.find?_move (apart dir name (Ne.symm notThis)) (apart dir name (Ne.symm notGap)), row.found]

variable {after : Disk}

theorem of_entries (row : Row disk path keep dir name entries) (names : after.entries = disk.entries)
    (admits : after.refusals = []) : Row after path keep dir name entries where
  sits := row.sits.opens (Disk.Extends.of_entries names).opens
  admits := admits
  fits := row.fits
  plain := row.plain
  found k := by rw [← row.found k, Disk.find?, Disk.find?, names]

/-- A name with a number leads to what there is of that name in the row, if it can be used at all. -/
theorem lead_numbered {others : Nat → Option DiskEntry} (row : Row disk path keep dir name entries)
    (next : Row after path keep dir name others) {k : Nat} (positive : 0 < k) (same : others k = entries k) :
    after.lead (numbered path k) = disk.lead (numbered path k) := by
  cases checked : Disk.check (numbered path k) with
  | error fault => rw [Disk.lead_of_error checked, Disk.lead_of_error checked]
  | ok u =>
    have found : after.find? (dir ++ [numbered name k]) = disk.find? (dir ++ [numbered name k]) := by
      rw [← rowName_of_pos positive, next.found, row.found, same]
    have named : after.named? dir (numbered name k) = disk.named? dir (numbered name k) := by
      rw [Disk.named?, Disk.named?, found]
    rw [Disk.lead, Disk.lead, place_numbered next.sits.place checked, place_numbered row.sits.place checked]
    simp only [bind, Except.bind, Disk.entryAt, named]

theorem held (row : Row disk path keep dir name entries) (held : disk.Held) {k number : Nat}
    (file : entries k = some (.file number)) : number < disk.contents.length :=
  held _ number (Disk.mem_of_find?_file ((row.found k).trans file))

end Row

/-- A path with a number that leads to a file, or to nothing, can be used. -/
theorem fits_of_lead {number : Nat} (place : disk.place path = .ok (.within dir name false))
    (plain : disk.lead (numbered path number) = .error .missing ∨
      ∃ content, disk.lead (numbered path number) = .ok (.file content)) :
    Disk.check (numbered path number) = .ok () ∧ (numbered name number).utf8ByteSize ≤ Disk.maxNameLength := by
  cases checked : Disk.check (numbered path number) with
  | error fault =>
    have failed : disk.lead (numbered path number) = .error fault := Disk.lead_of_error checked
    have noted : fault ≠ .missing := by
      unfold Disk.check at checked
      grind
    rw [failed] at plain
    rcases plain with missing | ⟨_, file⟩
    · exact absurd (Except.error.inj missing) noted
    · cases file
  | ok u =>
    refine ⟨rfl, Nat.le_of_not_lt fun long => ?_⟩
    have named : disk.named? dir (numbered name number) = .error .nameTooLong := if_pos long
    have failed : disk.lead (numbered path number) = .error .nameTooLong := by
      rw [Disk.lead, place_numbered place checked]
      simp only [bind, Except.bind, Disk.entryAt, named]
    rw [failed] at plain
    rcases plain with missing | ⟨_, file⟩
    · cases missing
    · cases file

/-- A row can be told by what the names lead to. -/
theorem Row.of_leads (sits : disk.Sits path dir name) (admits : disk.refusals = [])
    (plain : ∀ k ≤ keep, disk.lead (rowName path k) = .error .missing ∨
      ∃ number, disk.lead (rowName path k) = .ok (.file number)) :
    Row disk path keep dir name fun k => disk.find? (dir ++ [rowName name k]) := by
  have fits : ∀ k ≤ keep,
      Disk.check (rowName path k) = .ok () ∧ (rowName name k).utf8ByteSize ≤ Disk.maxNameLength := by
    intro k within
    have lead := plain k within
    rcases Nat.eq_zero_or_pos k with rfl | positive
    · exact ⟨(Disk.place_within.mp sits.place).1, sits.short⟩
    · rw [rowName_of_pos positive] at lead ⊢
      rw [rowName_of_pos positive]
      exact fits_of_lead sits.place lead
  refine ⟨sits, admits, fits, fun k within => ?_, fun _ => rfl⟩
  have lead := plain k within
  rw [Disk.lead_within (place_rowName sits.place (fits k within).1) (fits k within).2] at lead
  cases there : disk.find? (dir ++ [rowName name k]) with
  | none => exact .inl rfl
  | some entry =>
    rw [there] at lead
    rcases lead with missing | ⟨number, file⟩
    · cases missing
    · exact .inr ⟨number, congrArg some (Except.ok.inj file)⟩

/-- A row with a gap in it: what was there before is now beyond the gap. -/
def withGap (keep gap : Nat) (entries : Nat → Option DiskEntry) (k : Nat) : Option DiskEntry :=
  if k < gap then entries k else if k = gap then none else if k ≤ keep then entries (k - 1) else entries k

theorem withGap_of_lt {gap k : Nat} (within : gap ≤ keep) (beyond : keep < k) : withGap keep gap entries k = entries k := by
  rw [withGap, if_neg (by omega), if_neg (by omega), if_neg (Nat.not_le_of_lt beyond)]

theorem withGap_zero_succ {k : Nat} (within : k + 1 ≤ keep) : withGap keep 0 entries (k + 1) = entries k := by
  rw [withGap, if_neg (Nat.not_lt_zero _), if_neg (Nat.succ_ne_zero k), if_pos within, Nat.add_sub_cancel]

/-- A row with a new file in the gap at its front. -/
def behind (keep number : Nat) (entries : Nat → Option DiskEntry) (k : Nat) : Option DiskEntry :=
  if k = 0 then some (.file number) else withGap keep 0 entries k

theorem behind_succ {number k : Nat} (within : k + 1 ≤ keep) : behind keep number entries (k + 1) = entries k := by
  rw [behind, if_neg (Nat.succ_ne_zero k), withGap_zero_succ within]

theorem behind_of_lt {number k : Nat} (beyond : keep < k) : behind keep number entries k = entries k := by
  rw [behind, if_neg (Nat.ne_zero_of_lt beyond), withGap_of_lt (Nat.zero_le _) beyond]

/-- Whether names of a row that stand for files stand for files of their own. -/
def Apart (keep : Nat) (entries : Nat → Option DiskEntry) : Prop :=
  ∀ k ≤ keep, ∀ other ≤ keep, ∀ number,
    entries k = some (.file number) → entries other = some (.file number) → k = other

/-- With a new file in front of them files of their own remain so. -/
theorem Apart.pushed {fresh : Nat} (apart : Apart keep entries)
    (old : ∀ k number, k + 1 ≤ keep → entries k = some (.file number) → number ≠ fresh) :
    Apart keep (behind keep fresh entries) := by
  have front {number : Nat} (new : behind keep fresh entries 0 = some (.file number)) : number = fresh := by
    injection new with new
    injection new with new
    exact new.symm
  intro k within other otherWithin number file otherFile
  cases k with
  | zero =>
    cases other with
    | zero => rfl
    | succ other =>
      rw [behind_succ otherWithin] at otherFile
      exact absurd (front file) (old other number otherWithin otherFile)
  | succ k =>
    rw [behind_succ within] at file
    cases other with
    | zero => exact absurd (front otherFile) (old k number within file)
    | succ other =>
      rw [behind_succ otherWithin] at otherFile
      exact congrArg Nat.succ
        (apart k (Nat.le_of_succ_le within) other (Nat.le_of_succ_le otherWithin) number file otherFile)

/-- The calls that move a gap from the given place to the front. -/
def climb (path : String) : Nat → List (Disk.Call Unit)
  | 0 => []
  | gap + 1 => .rename (rowName path gap) (rowName path (gap + 1)) :: climb path gap

theorem asideCalls_eq (path : String) {keep : Nat} (positive : 0 < keep) :
    asideCalls path keep = .remove (rowName path keep) :: climb path keep := by
  obtain ⟨last, rfl⟩ : ∃ last, keep = last + 1 := ⟨keep - 1, by omega⟩
  have renames (last : Nat) : (List.range last).reverse.map
      (fun i => Disk.Call.rename (numbered path (i + 1)) (numbered path (i + 2))) ++
        [Disk.Call.rename path (numbered path 1)] = climb path (last + 1) := by
    induction last with
    | zero => rfl
    | succ last ih =>
      rw [List.range_succ, List.reverse_append, climb, ← ih]
      rfl
  rw [asideCalls, if_neg (Nat.succ_ne_zero last), List.cons_append, Nat.add_sub_cancel, renames last]
  rfl

theorem Row.congr {other : Nat → Option DiskEntry} (row : Row disk path keep dir name entries)
    (same : ∀ k, entries k = other k) : Row disk path keep dir name other := (funext same : entries = other) ▸ row

/-- The last of the files goes, which leaves a gap in its place. -/
theorem Row.opened (row : Row disk path keep dir name entries) :
    Row (attempt (.remove (rowName path keep)) disk) path keep dir name (withGap keep keep entries) ∧
      (attempt (.remove (rowName path keep)) disk).contents = disk.contents := by
  obtain ⟨removed, same⟩ := row.removed (Nat.le_refl keep)
  refine ⟨removed.congr fun k => ?_, same⟩
  rcases Nat.lt_trichotomy k keep with less | rfl | more
  · rw [withGap, if_pos less, if_neg (Nat.ne_of_lt less)]
  · rw [withGap, if_neg (Nat.lt_irrefl k), if_pos rfl, if_pos rfl]
  · rw [withGap, if_neg (Nat.lt_asymm more), if_neg (Nat.ne_of_gt more), if_neg (Nat.ne_of_gt more),
      if_neg (Nat.not_le_of_lt more)]

/-- The next file takes the place of the gap, and leaves one in its own. -/
theorem Row.stepped {gap : Nat} (row : Row disk path keep dir name (withGap keep (gap + 1) entries))
    (within : gap + 1 ≤ keep) :
    Row (attempt (.rename (rowName path gap) (rowName path (gap + 1))) disk) path keep dir name
        (withGap keep gap entries) ∧
      (attempt (.rename (rowName path gap) (rowName path (gap + 1))) disk).contents = disk.contents := by
  have free : withGap keep (gap + 1) entries (gap + 1) = none := by
    rw [withGap, if_neg (Nat.lt_irrefl _), if_pos rfl]
  obtain ⟨moved, same⟩ := row.moved (Nat.le_of_succ_le within) within (Nat.ne_of_lt (Nat.lt_succ_self gap)) free
  refine ⟨moved.congr fun k => ?_, same⟩
  simp only [withGap]
  grind

/-- After any of the calls the gap is at one place of the row, and after all of them at the front. -/
theorem Row.climbed {gap : Nat} (row : Row disk path keep dir name (withGap keep gap entries)) (within : gap ≤ keep)
    {calls : List (Disk.Call Unit)} (first : calls <+: climb path gap) :
    ∃ later ≤ gap, Row (calls.foldl (fun disk call => attempt call disk) disk) path keep dir name
        (withGap keep later entries) ∧
      (calls.foldl (fun disk call => attempt call disk) disk).contents = disk.contents ∧
      (calls = climb path gap → later = 0) := by
  induction gap generalizing disk calls with
  | zero =>
    rw [List.prefix_nil.mp first]
    exact ⟨0, Nat.le_refl 0, row, rfl, fun _ => rfl⟩
  | succ gap ih =>
    cases calls with
    | nil => exact ⟨gap + 1, Nat.le_refl _, row, rfl, nofun⟩
    | cons call calls =>
      obtain ⟨rfl, rest⟩ := List.cons_prefix_cons.mp first
      obtain ⟨stepped, same⟩ := row.stepped within
      obtain ⟨later, below, climbed, kept, last⟩ := ih stepped (Nat.le_of_succ_le within) rest
      exact ⟨later, Nat.le_succ_of_le below, climbed, kept.trans same, fun all => last (List.cons.inj all).2⟩

/-- After any of the calls that set a file aside, one of the names is free. -/
theorem Row.cleared (row : Row disk path keep dir name entries)
    (positive : 0 < keep) {calls : List (Disk.Call Unit)} (first : calls <+: asideCalls path keep)
    (begun : calls ≠ []) :
    ∃ gap ≤ keep, Row (calls.foldl (fun disk call => attempt call disk) disk) path keep dir name
        (withGap keep gap entries) ∧
      (calls.foldl (fun disk call => attempt call disk) disk).contents = disk.contents ∧
      (calls = asideCalls path keep → gap = 0) := by
  rw [asideCalls_eq path positive] at first ⊢
  cases calls with
  | nil => exact absurd rfl begun
  | cons call calls =>
    obtain ⟨rfl, rest⟩ := List.cons_prefix_cons.mp first
    obtain ⟨opened, same⟩ := row.opened
    obtain ⟨gap, within, climbed, kept, last⟩ := opened.climbed (Nat.le_refl keep) rest
    exact ⟨gap, within, climbed, kept.trans same, fun all => last (List.cons.inj all).2⟩

/-- The disk once a file has been made. -/
def withFile (disk : Disk) (place : DiskPath) : Disk :=
  { Disk.put place (.file disk.contents.length) disk with contents := disk.contents ++ [[]] }

theorem withFile_extends {place : DiskPath} (free : disk.find? place = none) : disk.Extends (withFile disk place) :=
  fun other entry there => Disk.extends_put free other entry there

/-- With the gap at the front, opening makes an empty file there. -/
theorem Row.openAppend (row : Row disk path keep dir name (withGap keep 0 entries)) :
    Disk.Call.openAppend path disk =
        .ok (.file disk.contents.length, 0) (withFile disk (dir ++ [name])) ∧
      Row (withFile disk (dir ++ [name])) path keep dir name (behind keep disk.contents.length entries) := by
  have below : dir ++ [name] ≠ [] := List.append_ne_nil_of_right_ne_nil dir (List.cons_ne_nil _ _)
  have gap : disk.find? (dir ++ [name]) = none := row.found 0
  constructor
  · have made := Disk.Call.makeDirs_of_passes row.sits.checked row.sits.parents
    have named : disk.named? dir name = .ok none := by rw [Disk.named?_of_short row.sits.short, gap]
    have opens : Disk.Call.openFile path disk =
        .ok (.file disk.contents.length) (withFile disk (dir ++ [name])) := by
      rw [Disk.Call.openFile, bind_eq, Disk.Call.ask_of_ok row.sits.place]
      dsimp only
      rw [bind_eq, Disk.Call.ask_of_ok named]
      rfl
    have empty : (withFile disk (dir ++ [name])).size (.file disk.contents.length) = 0 := by
      simp [Disk.size, Disk.content, withFile]
    rw [Disk.Call.openAppend, bind_eq, made]
    dsimp only
    rw [bind_eq, Disk.Call.admitted_of_nil row.admits]
    dsimp only
    rw [bind_eq, opens]
    dsimp only
    rw [bind_eq, get_eq, ← empty]
    rfl
  · unfold behind
    refine ⟨row.sits.opens (withFile_extends gap).opens, row.admits, row.fits, fun k within => ?_, fun k => ?_⟩
    · split
      · exact .inr ⟨_, rfl⟩
      · exact row.plain k within
    · split
      · rename_i this
        rw [this]
        exact Disk.find?_put_self below
      · rename_i this
        rw [← row.found k]
        exact Disk.find?_put_ne fun same => this (rowName_injective (List.cons.inj (List.append_cancel_left same)).1)

end LineSink

end BackupAtlas
