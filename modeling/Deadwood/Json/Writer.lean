import Deadwood.Json.Token

/-!
# Writing JSON

Documents are written in ASCII with one item or member to a line, two spaces for each level of
nesting, and empty lists and tables in two characters.
-/

set_option autoImplicit false

namespace Deadwood.Json

/-- The letter that stands for a character after a backslash. -/
def shortEscapes : List (Char × Char) :=
  [('"', '"'), ('\\', '\\'), ('\n', 'n'), ('\r', 'r'), ('\t', 't'), ('\x0c', 'f'), ('\x08', 'b')]

/-- The code units of a character: a pair beyond the first plane. -/
def unitsOf (c : Char) : List Nat :=
  let n := c.toNat
  if n < 0x10000 then [n]
  else [0xd800 + (n - 0x10000) / 0x400, 0xdc00 + (n - 0x10000) % 0x400]

/-- How one character of a text is written. -/
def writeChar (c : Char) : List Char :=
  match shortEscapes.lookup c with
  | some letter => ['\\', letter]
  | none =>
    if 0x20 ≤ c.toNat ∧ c.toNat < 0x7f then [c]
    else (unitsOf c).flatMap fun unit => '\\' :: 'u' :: Text.hexDigits 4 unit

/-- A text in quotes. -/
def writeText (s : String) : List Char := '"' :: s.toList.flatMap writeChar ++ ['"']

/-- A number that need not be whole. -/
def writeReal : Double → List Char
  | .nan => "NaN".toList
  | .infinite negative => (if negative then "-Infinity" else "Infinity").toList
  | x => x.text

/-- A line end and the indentation of a level. -/
def newLine (level : Nat) : List Char := '\n' :: List.replicate (2 * level) ' '

mutual

/-- A value at a level of nesting. -/
def writeAt (level : Nat) : Value → List Char
  | .null => "null".toList
  | .bool true => "true".toList
  | .bool false => "false".toList
  | .int n => Number.signedDigits n
  | .real x => writeReal x
  | .text s => writeText s
  | .list [] => ['[', ']']
  | .list (v :: vs) =>
    '[' :: newLine (level + 1) ++ writeAt (level + 1) v ++ writeItems (level + 1) vs ++
      newLine level ++ [']']
  | .table [] => ['\x7b', '\x7d']
  | .table ((key, v) :: rest) =>
    '\x7b' :: newLine (level + 1) ++ writeText key ++ [':', ' '] ++ writeAt (level + 1) v ++
      writeMembers (level + 1) rest ++ newLine level ++ ['\x7d']

/-- The further items of a list. -/
def writeItems (level : Nat) : List Value → List Char
  | [] => []
  | v :: vs => ',' :: newLine level ++ writeAt level v ++ writeItems level vs

/-- The further members of a table. -/
def writeMembers (level : Nat) : List (String × Value) → List Char
  | [] => []
  | (key, v) :: rest =>
    ',' :: newLine level ++ writeText key ++ [':', ' '] ++ writeAt level v ++
      writeMembers level rest

end

/-- The document of a value. -/
def write (v : Value) : List Char := writeAt 0 v

end Deadwood.Json
