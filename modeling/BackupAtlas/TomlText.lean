import BackupAtlas.Datum
import BackupAtlas.Scan

namespace BackupAtlas

/-- How a table came about. -/
inductive TableOrigin where
  /-- It has a header of its own. -/
  | header
  /-- A header names a table inside it. -/
  | implied
  /-- A dotted key leads through it. -/
  | dotted
  deriving DecidableEq, Repr

/-- What stands under a key. -/
inductive TomlItem where
  | value (datum : Datum)
  | table (origin : TableOrigin) (fields : List (String × TomlItem))
  /-- Tables under the same header in double brackets. -/
  | tables (items : List (List (String × TomlItem)))
  deriving Inhabited

abbrev TomlFields := List (String × TomlItem)

namespace TomlFields

def put (key : String) (item : TomlItem) (fields : TomlFields) : TomlFields :=
  if fields.any (·.1 == key) then
    fields.map fun (name, old) => if name = key then (name, item) else (name, old)
  else fields ++ [(key, item)]

/-- Changes the last of several things. -/
def changeLast {α : Type} (change : α → Option α) : List α → Option (List α)
  | [] => none
  | [last] => do return [← change last]
  | first :: rest => do return first :: (← changeLast change rest)

/-- Defines the key at the end of a dotted key. The tables on the way may not have headers, and
the innermost must have come about by a dotted key. -/
def define (key : String) (item : TomlItem) :
    (path : List String) → TomlFields → Option TomlFields
  | [], fields => if fields.any (·.1 == key) then none else some (put key item fields)
  | name :: path, fields =>
    match fields.lookup name with
    | none => do return put name (.table .dotted (← define key item path [])) fields
    | some (.value _) => none
    | some (.table origin inner) =>
      if origin = .header ∨ (path = [] ∧ origin ≠ .dotted) then none
      else do return put name (.table origin (← define key item path inner)) fields
    | some (.tables items) =>
      if path = [] then none
      else do return put name (.tables (← changeLast (define key item path) items)) fields

/-- Changes the table at the end of the path of a header. Missing tables on the way are made. -/
def inside (change : TomlFields → Option TomlFields) :
    (path : List String) → TomlFields → Option TomlFields
  | [], fields => change fields
  | name :: path, fields =>
    match fields.lookup name with
    | none => do return put name (.table .implied (← inside change path [])) fields
    | some (.value _) => none
    | some (.table origin inner) => do
      return put name (.table origin (← inside change path inner)) fields
    | some (.tables items) => do
      return put name (.tables (← changeLast (inside change path) items)) fields

/-- Starts the table with the header `key`, which may have been implied but no more. -/
def startTable (key : String) (fields : TomlFields) : Option TomlFields :=
  match fields.lookup key with
  | none => some (put key (.table .header []) fields)
  | some (.table .implied inner) => some (put key (.table .header inner) fields)
  | some _ => none

/-- Starts a further table with the header `key` in double brackets. -/
def startItem (key : String) (fields : TomlFields) : Option TomlFields :=
  match fields.lookup key with
  | none => some (put key (.tables [[]]) fields)
  | some (.tables items) => some (put key (.tables (items ++ [[]])) fields)
  | some _ => none

end TomlFields

namespace TomlItem

mutual

def datum : TomlItem → Datum
  | value datum => datum
  | table _ fields => .record (fieldData fields)
  | tables items => .list (itemData items)

def fieldData : List (String × TomlItem) → List (String × Datum)
  | [] => []
  | (name, item) :: rest => (name, item.datum) :: fieldData rest

def itemData : List (List (String × TomlItem)) → List Datum
  | [] => []
  | fields :: rest => .record (fieldData fields) :: itemData rest

end

end TomlItem

namespace TomlText

def isBlank (c : Char) : Bool := c = ' ' || c = '\t'

/-- A character that may stand in a comment, and in a text, quotes and backslashes apart. -/
def isPlain (c : Char) : Bool := c = '\t' || (0x20 ≤ c.toNat && c.toNat ≠ 0x7F)

def skipBlanks : Scan Unit := Scan.skipWhile isBlank

def newline : Scan Bool := do return (← Scan.accept "\n") || (← Scan.accept "\r\n")

def comment : Scan Unit := do
  if ← Scan.accept "#" then Scan.skipWhile isPlain

/-- What may stand behind everything else on a line, and the end of the line. -/
def lineEnd : Scan Unit := do
  skipBlanks
  comment
  let ended ← newline
  Scan.ensure (ended || (← Scan.atEnd))

/-- Repeats `item` as long as `more` says so. -/
def repeated {α : Type} (more : Scan Bool) (item : Scan α) : (limit : Nat) → Scan (List α)
  | 0 => Scan.fail
  | limit + 1 => do
    if ← more then
      let first ← item
      return first :: (← repeated more item limit)
    else return []

/-- Repeats `item` as long as `more` says so, which takes a character each time. -/
def many {α : Type} (more : Scan Bool) (item : Scan α) : Scan (List α) := do
  repeated more item ((← get).length + 1)

/-- Skips blanks, comments and ends of lines. -/
def skipLines : Scan Unit := do
  skipBlanks
  let _ ← many
    (do
      comment
      newline)
    skipBlanks
  return ()

/-- A character with a short escape. -/
def shortEscape? : Char → Option Char
  | 'b' => some '\x08'
  | 't' => some '\t'
  | 'n' => some '\n'
  | 'f' => some '\x0c'
  | 'r' => some '\r'
  | '"' => some '"'
  | '\\' => some '\\'
  | _ => none

/-- The character with the code point given in hexadecimal. -/
def escaped? (digits : List Char) : Option Char := do
  let point ← ofDigits? 16 digits
  if point.isValidChar then some (Char.ofNat point) else none

/-- Reads a text on one line up to the quote that ends it. -/
def basicFrom (read : List Char) : List Char → Option (String × List Char)
  | [] => none
  | '"' :: rest => some (String.ofList read.reverse, rest)
  | '\\' :: 'u' :: a :: b :: c :: d :: rest => do
    basicFrom ((← escaped? [a, b, c, d]) :: read) rest
  | '\\' :: 'U' :: a :: b :: c :: d :: e :: f :: g :: h :: rest => do
    basicFrom ((← escaped? [a, b, c, d, e, f, g, h]) :: read) rest
  | '\\' :: c :: rest => do basicFrom ((← shortEscape? c) :: read) rest
  | c :: rest => if isPlain c then basicFrom (c :: read) rest else none

/-- Whether a line ends here but for blanks. -/
def endsLine (rest : List Char) : Bool :=
  match rest.dropWhile isBlank with
  | '\n' :: _ | '\r' :: '\n' :: _ => true
  | _ => false

/-- Reads a text over several lines up to the three quotes that end it. Up to two quotes may
stand before those. Behind a backslash at the end of a line, blanks and line ends are skipped. -/
def longBasicFrom (skipping : Bool) (read : List Char) : List Char → Option (String × List Char)
  | '"' :: '"' :: '"' :: '"' :: '"' :: rest =>
    some (String.ofList ('"' :: '"' :: read).reverse, rest)
  | '"' :: '"' :: '"' :: '"' :: rest => some (String.ofList ('"' :: read).reverse, rest)
  | '"' :: '"' :: '"' :: rest => some (String.ofList read.reverse, rest)
  | '\\' :: 'u' :: a :: b :: c :: d :: rest => do
    longBasicFrom false ((← escaped? [a, b, c, d]) :: read) rest
  | '\\' :: 'U' :: a :: b :: c :: d :: e :: f :: g :: h :: rest => do
    longBasicFrom false ((← escaped? [a, b, c, d, e, f, g, h]) :: read) rest
  | '\\' :: c :: rest =>
    if endsLine (c :: rest) then longBasicFrom true read (c :: rest)
    else do longBasicFrom false ((← shortEscape? c) :: read) rest
  | '\r' :: '\n' :: rest =>
    if skipping then longBasicFrom true read rest else longBasicFrom false ('\n' :: read) rest
  | '\n' :: rest =>
    if skipping then longBasicFrom true read rest else longBasicFrom false ('\n' :: read) rest
  | c :: rest =>
    if skipping && isBlank c then longBasicFrom true read rest
    else if isPlain c then longBasicFrom false (c :: read) rest
    else none
  | [] => none

/-- Reads a text on one line up to the apostrophe that ends it. Nothing is escaped. -/
def literalFrom (read : List Char) : List Char → Option (String × List Char)
  | [] => none
  | '\'' :: rest => some (String.ofList read.reverse, rest)
  | c :: rest => if isPlain c then literalFrom (c :: read) rest else none

/-- Reads a text over several lines up to the three apostrophes that end it. -/
def longLiteralFrom (read : List Char) : List Char → Option (String × List Char)
  | '\'' :: '\'' :: '\'' :: '\'' :: '\'' :: rest =>
    some (String.ofList ('\'' :: '\'' :: read).reverse, rest)
  | '\'' :: '\'' :: '\'' :: '\'' :: rest => some (String.ofList ('\'' :: read).reverse, rest)
  | '\'' :: '\'' :: '\'' :: rest => some (String.ofList read.reverse, rest)
  | '\r' :: '\n' :: rest | '\n' :: rest => longLiteralFrom ('\n' :: read) rest
  | c :: rest => if isPlain c then longLiteralFrom (c :: read) rest else none
  | [] => none

def text : Scan String := do
  if ← Scan.accept "\"\"\"" then
    let _ ← newline
    longBasicFrom false []
  else if ← Scan.accept "'''" then
    let _ ← newline
    longLiteralFrom []
  else if ← Scan.accept "\"" then basicFrom []
  else
    Scan.expect "'"
    literalFrom []

def isBare (c : Char) : Bool := c.isAlphanum || c = '_' || c = '-'

def simpleKey : Scan String := do
  skipBlanks
  let key ←
    if ← Scan.accept "\"" then basicFrom []
    else if ← Scan.accept "'" then literalFrom []
    else
      let key ← Scan.takeWhile isBare
      Scan.ensure (key ≠ [])
      pure (String.ofList key)
  skipBlanks
  return key

/-- How many parts a key may have, and how deep values may be nested. -/
def maxDepth : Nat := 80

/-- A key, as the parts before its last dot and the last part. -/
def key : Scan (List String × String) := do
  let first ← simpleKey
  let others ← many (Scan.accept ".") simpleKey
  Scan.ensure (others.length + 1 < maxDepth)
  let parts := first :: others
  return (parts.dropLast, parts.getLast?.getD first)

/-- Digits without the underscores between them, of which none may stand first, last or behind
another. -/
def ungrouped? : List Char → Option (List Char)
  | [] => none
  | '_' :: _ => none
  | c :: '_' :: rest => (ungrouped? rest).map (c :: ·)
  | [c] => some [c]
  | c :: rest => (ungrouped? rest).map (c :: ·)

/-- The number with these digits, between which underscores may stand. -/
def grouped? (base : Nat) (digits : List Char) : Option Nat := do
  ofDigits? base (← ungrouped? digits)

/-- A whole number without superfluous zeros at its front. -/
def whole? (digits : List Char) : Option Nat := do
  let value ← grouped? 10 digits
  if digits.head? = some '0' ∧ digits ≠ ['0'] then none else return value

/-- Whether a minus stands before a word, and the word without its sign. -/
def unsigned : List Char → Bool × List Char
  | '-' :: rest => (true, rest)
  | '+' :: rest => (false, rest)
  | rest => (false, rest)

/-- A number that `read` makes of a word without the sign before it. -/
def signed? (read : List Char → Option Nat) (word : List Char) : Option Int := do
  let (negative, digits) := unsigned word
  let value ← read digits
  return if negative then -(value : Int) else value

def isMark (c : Char) : Bool := c = 'e' || c = 'E'

/-- A number `digits · 10 ^ exponent`. -/
structure Scientific where
  digits : Nat
  exponent : Int
  deriving DecidableEq, Repr

namespace Scientific

/-- The least number that is nearer to a power of two out of reach than to any float of 64 bits. -/
def bound : Nat := Nat.pow 2 1024 - Nat.pow 2 970

/-- How many decimal digits the bound has. -/
def boundLength : Nat := 309

/-- Whether the number is at least as large as the bound. Only numbers with as many digits before
the point as the bound are compared with it. -/
def isHuge (number : Scientific) : Bool :=
  let length := ((Nat.toDigits 10 number.digits).length : Int) + number.exponent
  if number.digits = 0 ∨ length < boundLength then false
  else if (boundLength : Int) < length then true
  else bound * Nat.pow 10 (-number.exponent).toNat ≤ number.digits * Nat.pow 10 number.exponent.toNat

end Scientific

/-- A number with a fraction or an exponent, without its sign. -/
def scientific? (word : List Char) : Option Scientific := do
  let (whole, rest) := word.span fun c => !(isMark c || c = '.')
  let _ ← whole? whole
  let (fraction, rest) ← match rest with
    | [] => none
    | '.' :: rest =>
      let (fraction, rest) := rest.span fun c => !isMark c
      pure (← ungrouped? fraction, rest)
    | rest => pure ([], rest)
  let exponent ← match rest with
    | [] => pure 0
    | _ :: exponent => signed? (grouped? 10) exponent
  let digits ← ofDigits? 10 ((← ungrouped? whole) ++ fraction)
  return { digits, exponent := exponent - fraction.length }

/-- Whether a word is a number with a fraction or an exponent, or stands for such a number. None
is too small, but there are some that are too large. -/
def isFloat (word : List Char) : Bool :=
  let (negative, word) := unsigned word
  if word = "inf".toList ∨ word = "nan".toList then true
  else
    match scientific? word with
    | some number => negative || !number.isHuge
    | none => false

def word? (word : List Char) : Option Datum :=
  let integer := fun (value : Option Int) =>
    value.bind fun value =>
      if -0x8000000000000000 ≤ value ∧ value < 0x8000000000000000 then some (.integer value) else none
  match word with
  | 't' :: 'r' :: 'u' :: 'e' :: [] => some (.bool true)
  | 'f' :: 'a' :: 'l' :: 's' :: 'e' :: [] => some (.bool false)
  | '0' :: 'x' :: digits => integer ((grouped? 16 digits).map Int.ofNat)
  | '0' :: 'o' :: digits => integer ((grouped? 8 digits).map Int.ofNat)
  | '0' :: 'b' :: digits => integer ((grouped? 2 digits).map Int.ofNat)
  | word => if isFloat word then some .foreign else integer (signed? whole? word)

/-- The number with these digits, if it is at least `least` and at most `most`. -/
def within? (least most : Nat) (digits : List Char) : Option Nat :=
  (ofDigits? 10 digits).filter fun n => least ≤ n ∧ n ≤ most

def daysInMonth (year month : Nat) : Nat :=
  if month = 2 then
    if year % 4 = 0 ∧ (year % 100 ≠ 0 ∨ year % 400 = 0) then 29 else 28
  else if month = 4 ∨ month = 6 ∨ month = 9 ∨ month = 11 then 30
  else 31

/-- What follows a date, if there is one. -/
def behindDate? : List Char → Option (List Char)
  | y₁ :: y₂ :: y₃ :: y₄ :: '-' :: m₁ :: m₂ :: '-' :: d₁ :: d₂ :: rest => do
    let year ← within? 0 9999 [y₁, y₂, y₃, y₄]
    let month ← within? 1 12 [m₁, m₂]
    let _ ← within? 1 (daysInMonth year month) [d₁, d₂]
    return rest
  | _ => none

/-- What follows a time of day, if there is one. -/
def behindTime? : List Char → Option (List Char)
  | h₁ :: h₂ :: ':' :: m₁ :: m₂ :: ':' :: s₁ :: s₂ :: rest => do
    let _ ← within? 0 23 [h₁, h₂]
    let _ ← within? 0 59 [m₁, m₂]
    let _ ← within? 0 60 [s₁, s₂]
    match rest with
    | '.' :: rest => if (rest.head?.map Char.isDigit).getD false then rest.dropWhile Char.isDigit else none
    | rest => rest
  | _ => none

/-- What follows the distance to universal time, which may be missing. -/
def behindOffset : List Char → List Char
  | 'Z' :: rest | 'z' :: rest => rest
  | sign :: h₁ :: h₂ :: ':' :: m₁ :: m₂ :: rest =>
    if (sign = '+' ∨ sign = '-') ∧ (within? 0 23 [h₁, h₂]).isSome ∧
        (within? 0 59 [m₁, m₂]).isSome then rest
    else sign :: h₁ :: h₂ :: ':' :: m₁ :: m₂ :: rest
  | rest => rest

/-- What follows a date, a time or both, if there is one. -/
def behindMoment? (text : List Char) : Option (List Char) :=
  match behindDate? text with
  | none => behindTime? text
  | some rest =>
    match rest with
    | c :: time =>
      if c = 'T' ∨ c = 't' ∨ c = ' ' then
        match behindTime? time with
        | some rest => some (behindOffset rest)
        | none => some rest
      else some rest
    | [] => some rest

/-- A datum without quotes or brackets. -/
def word : Scan Datum := do
  match behindMoment? (← get) with
  | some rest =>
    set rest
    return .record []
  | none =>
    let word ← Scan.takeWhile fun c => c.isAlphanum || c = '_' || c = '+' || c = '-' || c = '.'
    match word? word with
    | some datum => return datum
    | none => Scan.fail

/-- Whether more items or fields follow, of a list or an inline table that `close` ends. -/
def separated (close : String) (skip : Scan Unit) : Scan Bool := do
  skip
  if ← Scan.accept "," then return true
  Scan.expect close
  return false

mutual

/-- A datum, in which lists and inline tables are nested at most `depth` deep. Every item and
field takes one of `steps`. -/
def value (depth : Nat) : (steps : Nat) → Scan Datum
  | 0 => Scan.fail
  | steps + 1 => do
    match ← Scan.peek, depth with
    | some '"', _ | some '\'', _ => return .text (← text)
    | some '[', 0 | some '\x7b', 0 => Scan.fail
    | some '[', depth + 1 =>
      let _ ← Scan.next
      return .list (← items depth steps)
    | some '\x7b', depth + 1 =>
      let _ ← Scan.next
      skipBlanks
      if ← Scan.accept "\x7d" then return .record []
      let pairs ← pairs depth steps
      let fields := pairs.foldlM (fun fields ((path, key), datum) =>
        TomlFields.define key (.value datum) path fields) []
      match fields with
      | some fields => return (TomlItem.table .header fields).datum
      | none => Scan.fail
    | _, _ => word

/-- The items of a list, behind its bracket, and the bracket that ends it. A comma may stand
behind the last. -/
def items (depth : Nat) : (steps : Nat) → Scan (List Datum)
  | 0 => Scan.fail
  | steps + 1 => do
    skipLines
    if ← Scan.accept "]" then return []
    let first ← value depth steps
    if ← separated "]" skipLines then return first :: (← items depth steps)
    else return [first]

/-- The fields of an inline table, behind its brace, and the brace that ends it. -/
def pairs (depth : Nat) : (steps : Nat) → Scan (List ((List String × String) × Datum))
  | 0 => Scan.fail
  | steps + 1 => do
    let key ← key
    Scan.expect "="
    skipBlanks
    let datum ← value depth steps
    if ← separated "\x7d" skipBlanks then return (key, datum) :: (← pairs depth steps)
    else return [(key, datum)]

end

/-- Makes a change that may be against the rules. -/
def change (fields : Option TomlFields) : Scan TomlFields :=
  match fields with
  | some fields => pure fields
  | none => Scan.fail

/-- Reads a line into the tables, given the path of the last header, and returns the path of the
header that counts then. -/
def line (header : List String) (fields : TomlFields) : Scan (List String × TomlFields) := do
  skipBlanks
  match ← Scan.peek with
  | none | some '#' | some '\n' | some '\r' =>
    lineEnd
    return (header, fields)
  | some '[' =>
    let several ← Scan.accept "[["
    Scan.ensure (several || (← Scan.accept "["))
    let (path, key) ← key
    Scan.expect (if several then "]]" else "]")
    lineEnd
    let start := if several then TomlFields.startItem key else TomlFields.startTable key
    return (path ++ [key], ← change (TomlFields.inside start path fields))
  | _ =>
    let (path, key) ← key
    Scan.expect "="
    skipBlanks
    let datum ← value (maxDepth - 1) (2 * (← get).length + 2)
    lineEnd
    let define := TomlFields.define key (.value datum) path
    return (header, ← change (TomlFields.inside define header fields))

def lines (header : List String) (fields : TomlFields) : (limit : Nat) → Scan TomlFields
  | 0 => Scan.fail
  | limit + 1 => do
    if ← Scan.atEnd then return fields
    let (header, fields) ← line header fields
    lines header fields limit

/-- The record that a document spells. A document is read line by line into a tree of tables, which
remembers how each table came about, since that decides whether it may be added to later; the tree
is then a record. Fractions are foreign data. A date or a time of day is a record as well, of which
no field has a name that could be asked for, so it counts as an empty one. A mark of the byte order
may stand before the document. -/
def parse (source : String) : Option Datum := do
  let read : Scan TomlFields := do
    let _ ← Scan.accept "\uFEFF"
    lines [] [] (source.length + 1)
  return (TomlItem.table .header (← read.all source.toList)).datum

end TomlText
end BackupAtlas
