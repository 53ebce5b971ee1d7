import BackupAtlas.UnicodeRanges

namespace BackupAtlas.Quoted

/-- One character of a quoted text. Quote, backslash, tab, line ends and NUL have short escapes;
other characters without a form of their own, and those that would combine with the character
before them, are written by code point in hexadecimal. -/
def escape (c : Char) : List Char :=
  match c with
  | '\x00' => ['\\', '0']
  | '\t' => ['\\', 't']
  | '\r' => ['\\', 'r']
  | '\n' => ['\\', 'n']
  | '\\' => ['\\', '\\']
  | '"' => ['\\', '"']
  | c =>
    if extendsGrapheme c || !isVisible c then
      ['\\', 'u', '\x7b'] ++ Nat.toDigits 16 c.toNat ++ ['\x7d']
    else [c]

/-- The text between double quotes. -/
def encode (s : List Char) : List Char := '"' :: (s.flatMap escape ++ ['"'])

end BackupAtlas.Quoted

namespace BackupAtlas

/-- The quoted form of `s` in a message: between double quotes, on one line, with every character
that cannot be seen written as an escape. -/
def quoted (s : String) : String := String.ofList (Quoted.encode s.toList)

end BackupAtlas
