import BackupAtlas.Datum
import BackupAtlas.Scan

namespace BackupAtlas.JsonText

def isBlank (c : Char) : Bool := c = ' ' || c = '\n' || c = '\t' || c = '\r'

def skipBlanks : Scan Unit := Scan.skipWhile isBlank

/-- A character with a short escape. -/
def shortEscape? : Char → Option Char
  | '"' => some '"'
  | '\\' => some '\\'
  | '/' => some '/'
  | 'b' => some '\x08'
  | 'f' => some '\x0c'
  | 'n' => some '\n'
  | 'r' => some '\r'
  | 't' => some '\t'
  | _ => none

def isHigh (unit : Nat) : Bool := 0xD800 ≤ unit && unit < 0xDC00

def isLow (unit : Nat) : Bool := 0xDC00 ≤ unit && unit < 0xE000

/-- Reads a text up to the quote that ends it, given what has been read of it, last character
first, or nothing if it is spelled badly. -/
def textFrom (read : Option (List Char)) : List Char → Option (Option String × List Char)
  | [] => none
  | '"' :: rest => some (read.map fun read => String.ofList read.reverse, rest)
  | '\\' :: 'u' :: a :: b :: c :: d :: '\\' :: 'u' :: e :: f :: g :: h :: rest =>
    match ofDigits? 16 [a, b, c, d], ofDigits? 16 [e, f, g, h] with
    | some first, some second =>
      if isHigh first ∧ isLow second then
        let point := 0x10000 + (first - 0xD800) * 0x400 + (second - 0xDC00)
        textFrom (read.map (Char.ofNat point :: ·)) rest
      else if isHigh first ∨ isLow first then
        textFrom none ('\\' :: 'u' :: e :: f :: g :: h :: rest)
      else textFrom (read.map (Char.ofNat first :: ·)) ('\\' :: 'u' :: e :: f :: g :: h :: rest)
    | _, _ => none
  | '\\' :: 'u' :: a :: b :: c :: d :: rest =>
    match ofDigits? 16 [a, b, c, d] with
    | some unit =>
      if isHigh unit ∨ isLow unit then textFrom none rest
      else textFrom (read.map (Char.ofNat unit :: ·)) rest
    | none => none
  | '\\' :: c :: rest =>
    match shortEscape? c with
    | some c => textFrom (read.map (c :: ·)) rest
    | none => none
  | c :: rest => if c.toNat < 0x20 then none else textFrom (read.map (c :: ·)) rest

/-- A text, behind the quote that starts it. -/
def text : Scan (Option String) := textFrom (some [])

/-- Takes digits, of which there must be one. -/
def digits : Scan (List Char) := do
  let digits ← Scan.takeWhile Char.isDigit
  Scan.ensure (digits ≠ [])
  return digits

/-- A number. It does not start with a superfluous zero. -/
def number : Scan Datum := do
  let negative ← Scan.accept "-"
  let whole ← digits
  Scan.ensure (whole.head? ≠ some '0' ∨ whole = ['0'])
  let fraction ← Scan.accept "."
  if fraction then
    let _ ← digits
  let exponent ← (do return (← Scan.accept "e") || (← Scan.accept "E"))
  if exponent then
    let sign ← Scan.accept "+"
    if !sign then
      let _ ← Scan.accept "-"
    let _ ← digits
  match ofDigits? 10 whole with
  | none => Scan.fail
  | some value =>
    if fraction || exponent || (negative && value = 0) then return .foreign
    else if negative then return .integer (-value)
    else return .integer value

mutual

/-- A datum nested at most `depth` deep, counting every item and field as a level. -/
def value : (depth : Nat) → Scan Datum
  | 0 => Scan.fail
  | depth + 1 => do
    skipBlanks
    match ← Scan.peek with
    | some '"' =>
      let _ ← Scan.next
      return ((← text).map Datum.text).getD .foreign
    | some '[' =>
      let _ ← Scan.next
      skipBlanks
      if ← Scan.accept "]" then return .list []
      return .list (← items depth)
    | some '\x7b' =>
      let _ ← Scan.next
      skipBlanks
      if ← Scan.accept "\x7d" then return .record []
      match ← fields depth with
      | some fields => return .record fields
      | none => return .foreign
    | some 't' =>
      Scan.expect "true"
      return .bool true
    | some 'f' =>
      Scan.expect "false"
      return .bool false
    | some 'n' =>
      Scan.expect "null"
      return .null
    | _ => number

/-- The items of a list and the bracket that ends it. -/
def items : (depth : Nat) → Scan (List Datum)
  | 0 => Scan.fail
  | depth + 1 => do
    let first ← value depth
    skipBlanks
    match ← Scan.next with
    | ',' => return first :: (← items depth)
    | ']' => return [first]
    | _ => Scan.fail

/-- The fields of a record and the brace that ends it. There are none if a name is spelled
badly. -/
def fields : (depth : Nat) → Scan (Option (List (String × Datum)))
  | 0 => Scan.fail
  | depth + 1 => do
    skipBlanks
    Scan.expect "\""
    let name ← text
    skipBlanks
    Scan.expect ":"
    let first ← value depth
    skipBlanks
    let others ← match ← Scan.next with
      | ',' => fields depth
      | '\x7d' => pure (some [])
      | _ => Scan.fail
    return do return (← name, first) :: (← others)

end

/-- The datum that a whole text spells. A text with half of a surrogate pair is spelled badly, but
does no harm where nothing is expected of it, so it is read as a foreign datum; likewise a record
with such a name, and numbers with a fraction or an exponent. No level takes less than a character,
so none is too deep. -/
def parse (source : String) : Option Datum :=
  let read : Scan Datum := do
    let datum ← value (2 * source.length + 2)
    skipBlanks
    return datum
  read.all source.toList

end BackupAtlas.JsonText
