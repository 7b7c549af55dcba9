import Deadwood.Value.Basic
import Deadwood.Value.Excess

/-!
# JSON tokens

A JSON text is cut into tokens before it is given a structure. Blanks separate tokens and are
dropped; a text in quotes is one token with its escapes resolved; any other run of characters up to
a blank, a mark or a quote must be a number or one of the known words. Where the text cannot be cut
into tokens, the last token says why.
-/

set_option autoImplicit false

namespace Deadwood.Json

/-- Why a text is no JSON document. -/
inductive Error where
  /-- A text in quotes is not closed, holds a control character or an unknown escape. -/
  | badText
  /-- A word is neither a number nor a known word. -/
  | badWord (word : String)
  /-- A token stands where it cannot. -/
  | misplaced
  /-- The document ends too early. -/
  | unfinished
  /-- The document goes beyond what can be read. -/
  | excess (e : Excess)
  deriving DecidableEq, Repr

/-- The wording of an error. -/
def Error.message : Error → String
  | .badText => "Malformed text in quotes"
  | .badWord word => "Unknown word " ++ Text.quoted word
  | .misplaced => "Unexpected token"
  | .unfinished => "Unexpected end of document"
  | .excess e => e.message

/-- The smallest parts of a document. -/
inductive Token where
  | openTable | closeTable | openList | closeList | colon | comma
  | text (s : String)
  /-- A number or a known word. -/
  | atom (v : Value)
  /-- A whole number that cannot be read. -/
  | excess (e : Excess)
  /-- Something that is no token. -/
  | broken (e : Error)
  deriving Repr

/-! ## Numbers and words -/

/-- The exponent of a number, after its mark. -/
def exponent? : List Char → Option Int
  | '-' :: cs => if Number.isDigits cs then some (-(Number.ofDigits cs : Int)) else none
  | '+' :: cs => if Number.isDigits cs then some (Number.ofDigits cs) else none
  | cs => if Number.isDigits cs then some (Number.ofDigits cs) else none

/-- A number after its whole digits: nothing more, a fraction, an exponent, or both. -/
def numberTail? (negative : Bool) (whole : List Char) : List Char → Option Value
  | [] =>
    let n : Int := Number.ofDigits whole
    some (.int (if negative then -n else n))
  | '.' :: cs =>
    let fraction := cs.takeWhile Char.isDigit
    let digits := Number.ofDigits (whole ++ fraction)
    if fraction.isEmpty then none
    else
      match cs.dropWhile Char.isDigit with
      | [] => some (.real (.ofDecimal negative digits (-(fraction.length : Int))))
      | mark :: cs =>
        if mark = 'e' ∨ mark = 'E' then
          (exponent? cs).map fun e => .real (.ofDecimal negative digits (e - fraction.length))
        else none
  | mark :: cs =>
    if mark = 'e' ∨ mark = 'E' then
      (exponent? cs).map fun e => .real (.ofDecimal negative (Number.ofDigits whole) e)
    else none

/-- A number without its sign. Its whole part is a zero or starts with another digit. -/
def unsigned? (negative : Bool) (cs : List Char) : Option Value :=
  match cs.takeWhile Char.isDigit with
  | [] => none
  | '0' :: _ :: _ => none
  | whole => numberTail? negative whole (cs.dropWhile Char.isDigit)

/-- A number. -/
def number? : List Char → Option Value
  | '-' :: cs => unsigned? true cs
  | cs => unsigned? false cs

/-- The words with a meaning of their own. -/
def knownWords : List (String × Value) :=
  [("null", .null), ("true", .bool true), ("false", .bool false), ("NaN", .real .nan),
    ("Infinity", .real (.infinite false)), ("-Infinity", .real (.infinite true))]

/-- What a word stands for. -/
def atom? (word : List Char) : Option Value :=
  match knownWords.lookup (String.ofList word) with
  | some v => some v
  | none => number? word

/-- What follows the whole digits of a number makes it a real number. -/
def isRealTail : List Char → Bool
  | '.' :: c :: _ => c.isDigit
  | mark :: sign :: c :: _ =>
    (mark == 'e' || mark == 'E') &&
      (sign.isDigit || ((sign == '-' || sign == '+') && c.isDigit))
  | [mark, c] => (mark == 'e' || mark == 'E') && c.isDigit
  | _ => false

/-- The excess of the whole number that a word begins with. -/
def excess? (word : List Char) : Option Excess :=
  let cs := if word.head? = some '-' then word.drop 1 else word
  if cs.head? = some '0' || isRealTail (cs.dropWhile Char.isDigit) then none
  else Excess.ofDigits? (cs.takeWhile Char.isDigit)

/-- The token that a word is. -/
def wordToken (word : List Char) : Token :=
  match excess? word, atom? word with
  | some e, _ => .excess e
  | none, some v => .atom v
  | none, none => .broken (.badWord (String.ofList word))

/-! ## Texts in quotes -/

/-- The character that a letter stands for after a backslash. -/
def escapes : List (Char × Char) :=
  [('"', '"'), ('\\', '\\'), ('/', '/'), ('b', '\x08'), ('f', '\x0c'), ('n', '\n'), ('r', '\r'),
    ('t', '\t')]

/-- The value of a hexadecimal digit. -/
def hexValue? (c : Char) : Option Nat :=
  if '0' ≤ c ∧ c ≤ '9' then some (c.toNat - 48)
  else if 'a' ≤ c ∧ c ≤ 'f' then some (c.toNat - 87)
  else if 'A' ≤ c ∧ c ≤ 'F' then some (c.toNat - 55)
  else none

/-- The number that hexadecimal digits stand for. -/
def hexNumber? (cs : List Char) : Option Nat :=
  cs.foldlM (fun n c => (hexValue? c).map (n * 16 + ·)) 0

/-- The code units of a text up to its closing quote, with the number of characters they take. A
character that is written as itself is one unit, and an escape of four hexadecimal digits may be
one half of a pair. -/
def readUnits : List Char → Option (List Nat × Nat)
  | [] => none
  | '"' :: _ => some ([], 1)
  | '\\' :: 'u' :: a :: b :: c :: d :: cs => do
    let unit ← hexNumber? [a, b, c, d]
    let (units, taken) ← readUnits cs
    return (unit :: units, taken + 6)
  | '\\' :: c :: cs => do
    let meant ← escapes.lookup c
    let (units, taken) ← readUnits cs
    return (meant.toNat :: units, taken + 2)
  | c :: cs =>
    if c.toNat < 0x20 ∨ c = '\\' then none
    else (readUnits cs).map fun (units, taken) => (c.toNat :: units, taken + 1)

/-- The characters of code units: two halves of a pair that follow each other are one character, and
a half that stands alone is replaced. -/
def joinUnits : List Nat → List Char
  | [] => []
  | [unit] => [if 0xd800 ≤ unit ∧ unit < 0xe000 then '�' else Char.ofNat unit]
  | high :: low :: units =>
    if 0xd800 ≤ high ∧ high < 0xdc00 ∧ 0xdc00 ≤ low ∧ low < 0xe000 then
      Char.ofNat (0x10000 + (high - 0xd800) * 0x400 + (low - 0xdc00)) :: joinUnits units
    else
      (if 0xd800 ≤ high ∧ high < 0xe000 then '�' else Char.ofNat high) :: joinUnits (low :: units)

/-! ## Tokens -/

/-- Blanks between tokens. -/
def isGap (c : Char) : Bool := c == ' ' || c == '\t' || c == '\n' || c == '\r'

/-- Tokens of a single character. -/
def mark? : Char → Option Token
  | '\x7b' => some .openTable
  | '\x7d' => some .closeTable
  | '[' => some .openList
  | ']' => some .closeList
  | ':' => some .colon
  | ',' => some .comma
  | _ => none

/-- The character may stand inside a word. -/
def isWordPart (c : Char) : Bool := !isGap c && (mark? c).isNone && c != '"'

/-- The tokens of a text. -/
def tokens : List Char → List Token
  | [] => []
  | c :: cs =>
    if isGap c then tokens cs
    else
      match mark? c with
      | some mark => mark :: tokens cs
      | none =>
        if c = '"' then
          match readUnits cs with
          | none => [.broken .badText]
          | some (units, taken) =>
            .text (String.ofList (joinUnits units)) :: tokens (cs.drop taken)
        else
          wordToken (c :: cs.takeWhile isWordPart) :: tokens (cs.dropWhile isWordPart)
termination_by cs => cs.length
decreasing_by
  all_goals simp only [List.length_cons, List.length_drop]
  · omega
  · omega
  · omega
  · exact Nat.lt_succ_of_le (List.dropWhile_suffix _).length_le

end Deadwood.Json
