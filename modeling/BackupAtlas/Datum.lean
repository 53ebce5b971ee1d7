namespace BackupAtlas

/-- Structured data, as text formats hold it: configuration files, records and journal lines. A
datum is taken apart field by field; `Datum.json` writes it on one line. -/
inductive Datum where
  | null
  | bool (value : Bool)
  | integer (value : Int)
  | text (value : String)
  | list (items : List Datum)
  | record (fields : List (String × Datum))
  /-- What no record here has a place for: fractions, badly spelled text. -/
  | foreign
  deriving Inhabited

namespace Datum

def bool? : Datum → Option Bool
  | bool value => some value
  | _ => none

/-- An integer from `least` up to, but not including, `limit`. -/
def integer? (least limit : Int) : Datum → Option Int
  | integer value => if least ≤ value ∧ value < limit then some value else none
  | _ => none

def int? (datum : Datum) : Option Int := datum.integer? (-0x8000000000000000) 0x8000000000000000

/-- An integer below `limit`, without a sign. -/
def nat? (limit : Nat) (datum : Datum) : Option Nat := (datum.integer? 0 limit).map Int.toNat

def text? : Datum → Option String
  | text value => some value
  | _ => none

def list? : Datum → Option (List Datum)
  | list items => some items
  | _ => none

def texts? (datum : Datum) : Option (List String) := do (← datum.list?).mapM text?

/-- Nothing for `null`. -/
def optional? {α : Type} (read : Datum → Option α) : Datum → Option (Option α)
  | null => some none
  | datum => (read datum).map some

/-- One of the given words: as a text, or as a record with the word as only name and no value. -/
def word? {α : Type} (words : List (String × α)) : Datum → Option α
  | text word => words.lookup word
  | record [(word, null)] => words.lookup word
  | _ => none

/-- The fields of a record with one of the given names, in which none of these may occur twice. -/
def known? (names : List String) (fields : List (String × Datum)) :
    Option (List (String × Datum)) :=
  let known := fields.filter fun (name, _) => names.contains name
  if (known.map (·.1)).Nodup then some known else none

/-- The fields of a record that must have the given names. A list stands for a record with its
items under these names in turn. -/
def fields? (names : List String) : Datum → Option (List (String × Datum))
  | record fields => known? names fields
  | list items => if items.length = names.length then some (names.zip items) else none
  | _ => none

/-- The fields of a record that may have the given names. A list stands for a record with its
items under the first of these names; items behind the last name are an error unless `surplus`
allows them. -/
def someFields? (surplus : Bool) (names : List String) : Datum → Option (List (String × Datum))
  | record fields => known? names fields
  | list items =>
    if surplus || items.length ≤ names.length then some (names.zip items) else none
  | _ => none

def field? {α : Type} (fields : List (String × Datum)) (name : String) (read : Datum → Option α) :
    Option α := (fields.lookup name).bind read

/-- The field `name`, or `fallback` if it is not there. -/
def fieldOr {α : Type} (fallback : α) (fields : List (String × Datum)) (name : String)
    (read : Datum → Option α) : Option α :=
  match fields.lookup name with
  | some datum => read datum
  | none => some fallback

/-- The digits of a code unit in hexadecimal, four in all. -/
def hexUnit (n : Nat) : List Char :=
  [Nat.digitChar (n / 4096 % 16), Nat.digitChar (n / 256 % 16), Nat.digitChar (n / 16 % 16),
    Nat.digitChar (n % 16)]

/-- One character of a text in JSON. Quotes, backslashes and control characters are escaped. -/
def jsonChar (c : Char) : List Char :=
  if c = '"' then ['\\', '"']
  else if c = '\\' then ['\\', '\\']
  else if c = '\n' then ['\\', 'n']
  else if c = '\r' then ['\\', 'r']
  else if c = '\t' then ['\\', 't']
  else if c = '\x08' then ['\\', 'b']
  else if c = '\x0c' then ['\\', 'f']
  else if c.toNat < 0x20 then '\\' :: 'u' :: hexUnit c.toNat
  else [c]

def jsonText (value : String) : String :=
  String.ofList ('"' :: (value.toList.flatMap jsonChar ++ ['"']))

mutual

/-- The datum in JSON, on one line and without blanks. -/
def json : Datum → String
  | null | foreign => "null"
  | bool value => if value then "true" else "false"
  | integer value => toString value
  | text value => jsonText value
  | list items => "[" ++ String.intercalate "," (jsonItems items) ++ "]"
  | record fields => "\x7b" ++ String.intercalate "," (jsonFields fields) ++ "\x7d"

def jsonItems : List Datum → List String
  | [] => []
  | item :: items => item.json :: jsonItems items

def jsonFields : List (String × Datum) → List String
  | [] => []
  | (name, value) :: fields => (jsonText name ++ ":" ++ value.json) :: jsonFields fields

end

end Datum
end BackupAtlas
