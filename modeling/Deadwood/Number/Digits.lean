import Deadwood.Text.Blank
import Deadwood.Text.Word

/-!
# Digits

Whole numbers as runs of decimal digits, and the lenient reading of a text as a whole number that
counts of references in a stored report go through.
-/

set_option autoImplicit false

namespace Deadwood.Number

open Text

/-- The decimal digits of a number, the highest first. -/
def digits (n : Nat) : List Char := Nat.toDigits 10 n

/-- The digits of a whole number, after a minus sign if it is negative. -/
def signedDigits : Int → List Char
  | .ofNat n => digits n
  | .negSucc n => '-' :: digits (n + 1)

/-- The number that ASCII digits stand for. -/
def ofDigits (cs : List Char) : Nat := cs.foldl (fun n c => n * 10 + (c.toNat - 48)) 0

/-- The ASCII digits of a text that is made of nothing else and is not empty. -/
def isDigits (cs : List Char) : Bool := !cs.isEmpty && cs.all Char.isDigit

/-! ## Lenient reading -/

/-- The most digits that a whole number may be read from. -/
def maxDigits : Nat := 4300

/-- Why a text is no whole number. -/
inductive Flaw where
  /-- The text has another form. -/
  | form
  /-- The text has more digits than a number may have. -/
  | overlong (digits : Nat)
  deriving DecidableEq, Repr

/-- The wording for a number with too many digits. -/
def overlongMessage (digits : Nat) : String :=
  "Exceeds the limit (" ++ toString maxDigits ++
    " digits) for integer string conversion: value has " ++ toString digits ++
    " digits; use sys.set_int_max_str_digits() to increase the limit"

/-- The number that ASCII digits stand for, unless they are too many. -/
def bounded (cs : List Char) : Except Flaw Nat :=
  if maxDigits < cs.length then .error (.overlong cs.length) else .ok (ofDigits cs)

/-- What a character counts as in a whole number: digits of any script count as ASCII digits, and
blanks beyond ASCII count as spaces. -/
def asciiForm (c : Char) : Char :=
  if c.toNat < 127 then c
  else if isBlank c then ' '
  else
    match digitValue? c with
    | some digit => Char.ofNat (48 + digit)
    | none => '?'

/-- Blanks that may stand around a whole number. -/
def isMargin (c : Char) : Bool := c == ' ' || (9 ≤ c.toNat && c.toNat ≤ 13)

/-- Digits with single underscores between them, without the underscores, and what follows;
`open?` tells that the last character was a digit. -/
def digitRun? (open? : Bool) : List Char → Option (List Char × List Char)
  | [] => if open? then some ([], []) else none
  | c :: cs =>
    if c = '_' then if open? then digitRun? false cs else none
    else if c.isDigit then (digitRun? true cs).map fun (run, rest) => (c :: run, rest)
    else if open? then some ([], c :: cs) else none

/-- A whole number without its sign, with blanks after it. -/
def looseNat (cs : List Char) : Except Flaw Nat :=
  match digitRun? false cs with
  | none => .error .form
  | some (run, rest) => do
    let n ← bounded run
    if rest.all isMargin then .ok n else .error .form

/-- A whole number written with blanks around it, a sign, digits of any script and single
underscores between digits. -/
def loose (text : List Char) : Except Flaw Int :=
  match (text.map asciiForm).dropWhile isMargin with
  | '-' :: cs => (looseNat cs).map fun n => -(n : Int)
  | '+' :: cs => (looseNat cs).map Int.ofNat
  | cs => (looseNat cs).map Int.ofNat

end Deadwood.Number
