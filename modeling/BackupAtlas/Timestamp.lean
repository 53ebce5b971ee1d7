namespace BackupAtlas.Timestamp

/-- A number with at least `width` digits. -/
def padded (width n : Nat) : String :=
  let digits := Nat.toDigits 10 n
  String.ofList (List.replicate (width - digits.length) '0' ++ digits)

/-- Year, month and day, given the number of days since the start of 1970. Years are counted from
March, so that the leap day is the last of its year, and in eras of 400 years, which all have the
same number of days. -/
def date (days : Nat) : Nat × Nat × Nat :=
  let shifted := days + 719468
  let era := shifted / 146097
  let day := shifted % 146097
  let yearOfEra := (day - day / 1460 + day / 36524 - day / 146096) / 365
  let dayOfYear := day - (365 * yearOfEra + yearOfEra / 4 - yearOfEra / 100)
  let month := (5 * dayOfYear + 2) / 153
  let dayOfMonth := dayOfYear - (153 * month + 2) / 5 + 1
  let year := yearOfEra + 400 * era
  if month < 10 then (year, month + 3, dayOfMonth) else (year + 1, month - 9, dayOfMonth)

/-- The moment a number of milliseconds after the start of 1970, as journals show it in universal
time: `2024-01-01T00:00:00.000Z`. -/
def format (ms : Nat) : String :=
  let (year, month, day) := date (ms / 86400000)
  let seconds := ms / 1000 % 86400
  s!"{padded 4 year}-{padded 2 month}-{padded 2 day}T{padded 2 (seconds / 3600)}:{
    padded 2 (seconds / 60 % 60)}:{padded 2 (seconds % 60)}.{padded 3 (ms % 1000)}Z"

end BackupAtlas.Timestamp
