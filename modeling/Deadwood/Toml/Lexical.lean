import Deadwood.Json.Token
import Deadwood.Stamp

/-!
# TOML words

The parts of a TOML document that hold no other part: blanks and comments, keys, texts in four kinds
of quotes, numbers, and dates. Each function reads its part from the beginning of a text and gives
what follows.
-/

set_option autoImplicit false

namespace Deadwood.Toml

/-! ## Blanks and comments -/

/-- Blanks inside a line. -/
def isSpace (c : Char) : Bool := c == ' ' || c == '\t'

/-- Control characters that may stand nowhere in a document. -/
def isControl (c : Char) : Bool := (c.toNat < 0x20 && c != '\t') || c.toNat == 0x7f

/-- The text after its leading blanks. -/
def skipSpace (cs : List Char) : List Char := cs.dropWhile isSpace

/-- The text after a comment, which may be missing. It ends before the line end. -/
def comment? (cs : List Char) : Option (List Char) :=
  match cs with
  | '#' :: rest =>
    if (rest.takeWhile (· != '\n')).any isControl then none
    else some (rest.dropWhile (· != '\n'))
  | cs => some cs

/-- The text after blanks, line ends and comments. -/
def gap? (inComment : Bool) : List Char → Option (List Char)
  | [] => some []
  | c :: cs =>
    if inComment then
      if c = '\n' then gap? false cs else if isControl c then none else gap? true cs
    else if isSpace c || c == '\n' then gap? false cs
    else if c = '#' then gap? true cs
    else some (c :: cs)

/-! ## Texts -/

/-- The characters that a letter stands for after a backslash. -/
def escapes : List (Char × Char) :=
  [('b', '\x08'), ('t', '\t'), ('n', '\n'), ('f', '\x0c'), ('r', '\r'), ('e', '\x1b'), ('"', '"'),
    ('\\', '\\')]

/-- The character with the code given by hexadecimal digits. -/
def coded? (digits : List Char) : Option Char := do
  let n ← Json.hexNumber? digits
  if n < 0xd800 ∨ (0xdfff < n ∧ n < 0x110000) then some (Char.ofNat n) else none

/-- Put a character in front of a text that was read. -/
def prepend (c : Char) (read : List Char × List Char) : List Char × List Char :=
  (c :: read.1, read.2)

/-- A text in double quotes, after the opening quote. -/
def basic? : List Char → Option (List Char × List Char)
  | [] => none
  | '"' :: cs => some ([], cs)
  | '\\' :: 'x' :: a :: b :: cs => do return prepend (← coded? [a, b]) (← basic? cs)
  | '\\' :: 'u' :: a :: b :: c :: d :: cs => do
    return prepend (← coded? [a, b, c, d]) (← basic? cs)
  | '\\' :: 'U' :: a :: b :: c :: d :: e :: f :: g :: h :: cs => do
    return prepend (← coded? [a, b, c, d, e, f, g, h]) (← basic? cs)
  | '\\' :: c :: cs => do return prepend (← escapes.lookup c) (← basic? cs)
  | c :: cs => if isControl c || c == '\\' then none else (basic? cs).map (prepend c)

/-- What is passed over inside a text of several lines. -/
inductive Fold where
  | nothing
  /-- Blanks up to a line end, after a backslash. -/
  | toLineEnd
  /-- Blanks and line ends. -/
  | blanks
  deriving DecidableEq

/-- A text in three double quotes, after the opening quotes and up to the closing ones. A backslash
at the end of a line joins the lines. -/
def basicLines? (fold : Fold) : List Char → Option (List Char × List Char)
  | [] => none
  | c :: cs =>
    if fold = .toLineEnd then
      if isSpace c then basicLines? .toLineEnd cs
      else if c = '\n' then basicLines? .blanks cs
      else none
    else if fold = .blanks && (isSpace c || c == '\n') then basicLines? .blanks cs
    else
      match c, cs with
      | '"', '"' :: '"' :: rest => some ([], rest)
      | '\\', '\n' :: rest => basicLines? .blanks rest
      | '\\', ' ' :: rest => basicLines? .toLineEnd rest
      | '\\', '\t' :: rest => basicLines? .toLineEnd rest
      | '\\', 'x' :: a :: b :: rest => do
        return prepend (← coded? [a, b]) (← basicLines? .nothing rest)
      | '\\', 'u' :: a :: b :: c :: d :: rest => do
        return prepend (← coded? [a, b, c, d]) (← basicLines? .nothing rest)
      | '\\', 'U' :: a :: b :: c :: d :: e :: f :: g :: h :: rest => do
        return prepend (← coded? [a, b, c, d, e, f, g, h]) (← basicLines? .nothing rest)
      | '\\', letter :: rest => do
        return prepend (← escapes.lookup letter) (← basicLines? .nothing rest)
      | c, cs =>
        if (isControl c && c != '\n') || c == '\\' then none
        else (basicLines? .nothing cs).map (prepend c)

/-- A text in single quotes, after the opening quote. -/
def literal? (cs : List Char) : Option (List Char × List Char) :=
  let inside := cs.takeWhile (· != '\'')
  match cs.dropWhile (· != '\'') with
  | [] => none
  | _ :: rest => if inside.any isControl then none else some (inside, rest)

/-- A text in three single quotes, after the opening quotes and up to the closing ones. -/
def literalLines? : List Char → Option (List Char × List Char)
  | [] => none
  | '\'' :: '\'' :: '\'' :: cs => some ([], cs)
  | c :: cs =>
    if isControl c && c != '\n' then none else (literalLines? cs).map (prepend c)

/-- Up to two quotes that follow the closing quotes of a text of several lines belong to it. -/
def closingQuotes (quote : Char) (text rest : List Char) : List Char × List Char :=
  let extra := (rest.take 2).takeWhile (· == quote)
  (text ++ extra, rest.drop extra.length)

/-- A text of any kind. -/
def text? : List Char → Option (List Char × List Char)
  | '"' :: '"' :: '"' :: cs =>
    (basicLines? .nothing (if cs.head? = some '\n' then cs.drop 1 else cs)).map fun (text, rest) =>
      closingQuotes '"' text rest
  | '\'' :: '\'' :: '\'' :: cs =>
    (literalLines? (if cs.head? = some '\n' then cs.drop 1 else cs)).map fun (text, rest) =>
      closingQuotes '\'' text rest
  | '"' :: cs => basic? cs
  | '\'' :: cs => literal? cs
  | _ => none

/-! ## Keys -/

/-- Characters of a key without quotes. -/
def isKeyPart (c : Char) : Bool := c.isAlphanum || c == '-' || c == '_'

/-- One part of a key. -/
def keyPart? : List Char → Option (String × List Char)
  | '"' :: cs => (basic? cs).map fun (key, rest) => (String.ofList key, rest)
  | '\'' :: cs => (literal? cs).map fun (key, rest) => (String.ofList key, rest)
  | cs =>
    let key := cs.takeWhile isKeyPart
    if key.isEmpty then none else some (String.ofList key, cs.dropWhile isKeyPart)

/-- A key of several parts with dots between them, and the text after the blanks that follow it.
There are at most `fuel` further parts. -/
def key? : (fuel : Nat) → List Char → Option (List String × List Char)
  | fuel, cs => do
    let (part, rest) ← keyPart? cs
    match fuel, skipSpace rest with
    | fuel + 1, '.' :: rest =>
      let (parts, rest) ← key? fuel (skipSpace rest)
      return (part :: parts, rest)
    | _, rest => return ([part], rest)

/-! ## Numbers -/

/-- Digits with single underscores between them: the digits alone, and what follows. -/
def digitRun (isDigit : Char → Bool) : List Char → List Char × List Char
  | [] => ([], [])
  | '_' :: c :: cs =>
    if isDigit c then prepend c (digitRun isDigit cs) else ([], '_' :: c :: cs)
  | c :: cs => if isDigit c then prepend c (digitRun isDigit cs) else ([], c :: cs)

/-- Digits that begin with a digit. -/
def digits? (isDigit : Char → Bool) (cs : List Char) : Option (List Char × List Char) :=
  if cs.head?.any isDigit then some (digitRun isDigit cs) else none

/-- A number in base sixteen, eight or two. -/
def based? : List Char → Option (Value × List Char)
  | '0' :: mark :: cs => do
    let (base, isDigit) ←
      if mark = 'x' then some (16, fun c => (Json.hexValue? c).isSome)
      else if mark = 'o' then some (8, fun c => decide ('0' ≤ c ∧ c ≤ '7'))
      else if mark = 'b' then some (2, fun c => c == '0' || c == '1')
      else none
    let (run, rest) ← digits? isDigit cs
    let n := run.foldl (fun n c => n * base + (Json.hexValue? c).getD 0) 0
    return (.nat n, rest)
  | _ => none

/-- The whole part of a decimal number: a zero alone, or digits that do not begin with a zero. -/
def whole? : List Char → Option (List Char × List Char)
  | '0' :: cs => some (['0'], cs)
  | cs => digits? Char.isDigit cs

/-- The digits after a point. -/
def fraction (cs : List Char) : List Char × List Char :=
  match cs with
  | '.' :: rest => (digits? Char.isDigit rest).getD ([], cs)
  | cs => ([], cs)

/-- A number after its sign. -/
def afterSign : List Char → Bool × List Char
  | '-' :: rest => (true, rest)
  | '+' :: rest => (false, rest)
  | rest => (false, rest)

/-- An exponent with its sign. -/
def exponent (cs : List Char) : Option Int × List Char :=
  match cs with
  | mark :: rest =>
    let (negative, rest) := afterSign rest
    match if mark = 'e' ∨ mark = 'E' then digits? Char.isDigit rest else none with
    | none => (none, cs)
    | some (run, rest) =>
      let n : Int := Number.ofDigits run
      (some (if negative then -n else n), rest)
  | [] => (none, cs)

/-- A decimal number. It is whole unless it has a fraction or an exponent. -/
def decimal? (cs : List Char) : Option (Value × List Char) := do
  let (negative, rest) := afterSign cs
  let (whole, rest) ← whole? rest
  let (places, rest) := fraction rest
  let (power, rest) := exponent rest
  if places.isEmpty && power.isNone then
    let n : Int := Number.ofDigits whole
    return (.int (if negative then -n else n), rest)
  else
    let digits := Number.ofDigits (whole ++ places)
    return (.real (.ofDecimal negative digits (power.getD 0 - places.length)), rest)

/-- The excess of a whole decimal number. -/
def excess? (cs : List Char) : Option Excess := do
  let (whole, rest) ← whole? (afterSign cs).2
  if (fraction rest).1.isEmpty && (exponent rest).1.isNone then Excess.ofDigits? whole else none

/-! ## Dates -/

/-- Two digits within bounds. -/
def twoDigits? (low high : Nat) (cs : List Char) : Option (Nat × List Char) :=
  (Stamp.digits? 2 cs).filter fun (n, _) => low ≤ n && n ≤ high

/-- The text after the character `c`. -/
def after? (c : Char) : List Char → Option (List Char)
  | [] => none
  | d :: cs => if d = c then some cs else none

/-- The text after a time of day, whose seconds may be missing. -/
def timeOfDay? (cs : List Char) : Option (List Char) := do
  let (_, rest) ← twoDigits? 0 23 cs
  let (_, rest) ← twoDigits? 0 59 (← after? ':' rest)
  match (after? ':' rest).bind (twoDigits? 0 59) with
  | none => return rest
  | some (_, rest) =>
    match (after? '.' rest).filter (·.head?.any Char.isDigit) with
    | none => return rest
    | some places => return places.dropWhile Char.isDigit

/-- The text after an offset from universal time, which may be missing. -/
def skipOffset (cs : List Char) : List Char :=
  match cs with
  | 'Z' :: rest | 'z' :: rest => rest
  | '+' :: rest | '-' :: rest =>
    match (twoDigits? 0 23 rest).bind fun (_, rest) => (after? ':' rest).bind (twoDigits? 0 59) with
    | some (_, rest) => rest
    | none => cs
  | cs => cs

/-- The text after a date, with or without a time of day. -/
def afterDate? (cs : List Char) : Option (List Char) := do
  let (year, rest) ← Stamp.digits? 4 cs
  let (month, rest) ← twoDigits? 1 12 (← after? '-' rest)
  let (day, rest) ← twoDigits? 1 31 (← after? '-' rest)
  if ({ year, month, day } : Stamp).fault?.isSome then none
  else
    match rest with
    | c :: time =>
      if c = 'T' ∨ c = 't' ∨ c = ' ' then return ((timeOfDay? time).map skipOffset).getD rest
      else return rest
    | [] => return rest

/-- A date or a time of day, which is kept as it is written. -/
def date? (cs : List Char) : Option (Value × List Char) := do
  let rest ← afterDate? cs <|> timeOfDay? cs
  return (.text (String.ofList (cs.take (cs.length - rest.length))), rest)

/-! ## Words -/

/-- The words with a meaning of their own. -/
def knownWords : List (String × Value) :=
  [("true", .bool true), ("false", .bool false), ("inf", .real (.infinite false)),
    ("+inf", .real (.infinite false)), ("-inf", .real (.infinite true)), ("nan", .real .nan),
    ("+nan", .real .nan), ("-nan", .real .nan)]

/-- A known word. -/
def word? (cs : List Char) : Option (Value × List Char) :=
  knownWords.findSome? fun (word, v) =>
    if word.toList.isPrefixOf cs then some (v, cs.drop word.length) else none

/-- Why a statement cannot be read. -/
inductive Flaw where
  /-- It breaks a rule of the format, or contradicts an earlier statement. -/
  | invalid
  /-- It goes beyond what can be read. -/
  | excess (e : Excess)
  deriving DecidableEq, Repr

/-- A part that must be there. -/
def need {α : Type} : Option α → Except Flaw α
  | some a => .ok a
  | none => .error .invalid

/-- A value without parts. -/
def simple (cs : List Char) : Except Flaw (Value × List Char) :=
  match cs with
  | '"' :: _ | '\'' :: _ =>
    need ((text? cs).map fun (text, rest) => (.text (String.ofList text), rest))
  | cs =>
    match date? cs <|> based? cs, excess? cs with
    | some read, _ => .ok read
    | none, some e => .error (.excess e)
    | none, none => need (decimal? cs <|> word? cs)

end Deadwood.Toml
