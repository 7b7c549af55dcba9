import Deadwood.Json.Token

/-!
# Literals

A tag may hand arguments to a handler, as a literal: numbers, texts, texts of bytes, constants, and
tuples, sets and tables of these. The values do not matter to what is shown, so the reader tells
only whether a text is a literal. What a part may be used for depends on its shape: a sum has a
number on its left and an imaginary number on its right, and a key is neither a set nor a table, nor
a tuple with such a part.
-/

set_option autoImplicit false

namespace Deadwood.Console.Literal

open Text

/-- A token of a literal. -/
inductive Token where
  | number (imaginary : Bool)
  | text
  | bytes
  | constant
  /-- The name of the empty set. -/
  | setName
  | sign
  | mark (c : Char)
  /-- The end of a line outside of brackets. -/
  | lineEnd
  deriving DecidableEq, Repr

/-! ## Numbers -/

/-- What follows digits with single underscores between them; `open?` tells that an underscore may
come first. -/
def afterDigits (isDigit : Char → Bool) (open? : Bool) : List Char → List Char
  | [] => []
  | [c] => if isDigit c then [] else [c]
  | c :: d :: cs =>
    if isDigit c then afterDigits isDigit true (d :: cs)
    else if open? && c == '_' && isDigit d then afterDigits isDigit true cs
    else c :: d :: cs

/-- What follows at least one digit. -/
def afterDigits? (isDigit : Char → Bool) (open? : Bool) (cs : List Char) : Option (List Char) :=
  let rest := afterDigits isDigit open? cs
  if rest.length < cs.length then some rest else none

/-- The digits of a base other than ten, by the letter that announces it. -/
def basedDigit? (letter : Char) : Option (Char → Bool) :=
  match letter.toLower with
  | 'x' => some fun c => (Json.hexValue? c).isSome
  | 'o' => some fun c => '0' ≤ c && c ≤ '7'
  | 'b' => some fun c => c == '0' || c == '1'
  | _ => none

/-- What follows an exponent, if there is one. -/
def afterExponent (cs : List Char) : List Char :=
  match cs with
  | letter :: rest =>
    if letter.toLower = 'e' then
      let digits := if rest.head?.any fun c => c == '+' || c == '-' then rest.drop 1 else rest
      (afterDigits? Char.isDigit false digits).getD cs
    else cs
  | [] => []

/-- The digits of a whole number are sound: they begin with a zero only if all are zeros, and there
are not too many of them. -/
def isWhole (digits : List Char) : Bool :=
  let digits := digits.filter (· != '_')
  (digits.head? != some '0' || digits.all (· == '0')) && digits.length ≤ Number.maxDigits

/-- A decimal number without a sign. -/
def decimal? (cs : List Char) : Option (Token × List Char) :=
  let afterWhole := afterDigits Char.isDigit false cs
  let whole := cs.take (cs.length - afterWhole.length)
  let afterPoint := match afterWhole with
    | '.' :: rest => afterDigits Char.isDigit false rest
    | rest => rest
  if afterPoint.length + 1 ≥ cs.length && whole.isEmpty then none
  else
    let rest := afterExponent afterPoint
    match rest with
    | letter :: after =>
      if letter.toLower = 'j' then some (.number true, after)
      else if rest.length < afterWhole.length || isWhole whole then some (.number false, rest)
      else none
    | [] => if afterWhole != [] || isWhole whole then some (.number false, []) else none

/-- A number without a sign, which no letter follows. -/
def number? (cs : List Char) : Option (Token × List Char) := do
  let (token, rest) ← match cs with
    | '0' :: letter :: digits =>
      match basedDigit? letter with
      | some isDigit => (afterDigits? isDigit true digits).map fun rest => (.number false, rest)
      | none => decimal? cs
    | cs => decimal? cs
  if rest.head?.any isWord then none else some (token, rest)

/-! ## Texts -/

/-- The inside of a text up to the marks that close it, and what follows. A backslash takes the next
character along, and `lines` allows the end of a line. -/
def inside? (close : List Char) (lines : Bool) : List Char → Option (List Char × List Char)
  | [] => none
  | [c] => if close == [c] then some ([], []) else none
  | c :: d :: cs =>
    if close.isPrefixOf (c :: d :: cs) then some ([], (c :: d :: cs).drop close.length)
    else if c == '\\' then (inside? close lines cs).map fun (text, rest) => (c :: d :: text, rest)
    else if c == '\n' && !lines then none
    else (inside? close lines (d :: cs)).map fun (text, rest) => (c :: text, rest)

/-- The number of hexadecimal digits that a letter after a backslash asks for. -/
def codeLength (bytes : Bool) : Char → Nat
  | 'x' => 2
  | 'u' => if bytes then 0 else 4
  | 'U' => if bytes then 0 else 8
  | _ => 0

/-- Every character of a text that is written by its code has a code, and none is written by its
name. -/
def codesHold (bytes : Bool) : List Char → Bool
  | '\\' :: c :: cs =>
    let digits := cs.take (codeLength bytes c)
    digits.length == codeLength bytes c && (bytes || c != 'N') &&
      (Json.hexNumber? digits).any (· ≤ 0x10ffff) && codesHold bytes cs
  | _ :: cs => codesHold bytes cs
  | [] => true

/-- The token of a text in quotes. -/
def quoted? (raw bytes : Bool) (cs : List Char) : Option (Token × List Char) := do
  let (text, rest) ← match cs with
    | a :: b :: c :: cs =>
      if a == b && b == c then inside? [a, b, c] true cs else inside? [a] false (b :: c :: cs)
    | a :: cs => inside? [a] false cs
    | [] => none
  if (raw || codesHold bytes text) && !(bytes && text.any fun c => c.toNat ≥ 0x80) then
    some (if bytes then .bytes else .text, rest)
  else none

/-- The letters that may stand before a text in quotes, with what they say: whether a backslash is a
plain character, and whether the text is one of bytes. -/
def quoteLetters : List (String × Bool × Bool) :=
  [("", false, false), ("r", true, false), ("u", false, false), ("b", false, true),
   ("br", true, true), ("rb", true, true)]

/-- The token of a word, or of a text in quotes after it. -/
def word? (cs : List Char) : Option (Token × List Char) :=
  let word := cs.takeWhile isWord
  let rest := cs.drop word.length
  if rest.head?.any fun c => c == '\'' || c == '"' then
    match quoteLetters.lookup (String.ofList (word.map Char.toLower)) with
    | some (raw, bytes) => quoted? raw bytes rest
    | none => none
  else if ["True", "False", "None"].contains (String.ofList word) then some (.constant, rest)
  else if word == "set".toList then some (.setName, rest)
  else none

/-! ## Tokens -/

/-- How deep brackets may be nested. -/
def maxDepth : Nat := 200

/-- The next token, if the text begins with one. -/
def token? (cs : List Char) : Option (Token × List Char) :=
  match cs with
  | '.' :: '.' :: '.' :: rest => some (.constant, rest)
  | '+' :: rest | '-' :: rest => some (.sign, rest)
  | c :: rest =>
    if "(){},:".toList.contains c then some (.mark c, rest)
    else if c.isDigit || c == '.' then number? cs
    else word? cs
  | [] => none

/-- How deep brackets are nested after a token. -/
def depthAfter (depth : Nat) : Token → Nat
  | .mark '(' | .mark '\x7b' => depth + 1
  | .mark ')' | .mark '\x7d' => depth - 1
  | _ => depth

/-- The tokens of a text inside `depth` brackets. Blanks, comments and a backslash at the end of a
line are skipped, and so is the end of a line inside brackets. -/
def tokens (depth : Nat) (cs : List Char) : Option (List Token) :=
  match cs with
  | [] => some []
  | '\\' :: '\n' :: rest => if rest.isEmpty then none else tokens depth rest
  | '\n' :: rest =>
    if depth = 0 then (tokens depth rest).map (.lineEnd :: ·) else tokens depth rest
  | c :: rest =>
    if c == ' ' || c == '\t' || c == '\x0c' then tokens depth rest
    else if c == '#' then tokens depth (rest.dropWhile (· != '\n'))
    else match token? (c :: rest) with
      | none => none
      | some (token, after) =>
        if _shorter : after.length < (c :: rest).length then
          if maxDepth < depthAfter depth token then none
          else (tokens (depthAfter depth token) after).map (token :: ·)
        else none
termination_by cs.length
decreasing_by
  all_goals first
    | exact Nat.lt_succ_of_le (List.dropWhile_suffix _).length_le
    | exact _shorter
    | simp only [List.length_cons]; omega

/-! ## Shapes -/

/-- What a part of a literal may be used for. -/
inductive Shape where
  /-- A number without a sign. -/
  | number
  /-- A number with a sign. -/
  | signed
  /-- An imaginary number without a sign. -/
  | imaginary
  /-- Another part that may be a key. -/
  | fixed
  /-- A part that may not be a key. -/
  | changing
  deriving DecidableEq, Repr

/-- The shape of a number. -/
def Shape.ofNumber (imaginary : Bool) : Shape := if imaginary then .imaginary else .number

/-- The shape of a tuple. -/
def Shape.ofItems (items : List Shape) : Shape :=
  if items.contains .changing then .changing else .fixed

mutual

/-- A part without a sign. -/
def part : (fuel : Nat) → List Token → Option (Shape × List Token)
  | 0, _ => none
  | _ + 1, .number imaginary :: rest => some (.ofNumber imaginary, rest)
  | _ + 1, .text :: rest => some (.fixed, rest.dropWhile (· == .text))
  | _ + 1, .bytes :: rest => some (.fixed, rest.dropWhile (· == .bytes))
  | _ + 1, .constant :: rest => some (.fixed, rest)
  | _ + 1, .setName :: .mark '(' :: .mark ')' :: rest => some (.changing, rest)
  | fuel + 1, .mark '(' :: rest => do
    match ← items fuel rest with
    | ([shape], false, .mark ')' :: rest) => return (shape, rest)
    | (shapes, _, .mark ')' :: rest) => return (.ofItems shapes, rest)
    | _ => none
  | _ + 1, .mark '\x7b' :: .mark '\x7d' :: rest => some (.changing, rest)
  | fuel + 1, .mark '\x7b' :: rest => do
    let (first, rest) ← sum fuel rest
    let rest ← if first = .changing then none else match rest with
      | .mark ':' :: rest => values fuel rest
      | .mark ',' :: rest => do
        let (shapes, _, rest) ← items fuel rest
        if shapes.contains .changing then none else some rest
      | rest => some rest
    match rest with
    | .mark '\x7d' :: rest => return (.changing, rest)
    | _ => none
  | _ + 1, _ => none

/-- A part with its sign, or the sum of a number and an imaginary number. -/
def sum : (fuel : Nat) → List Token → Option (Shape × List Token)
  | 0, _ => none
  | fuel + 1, tokens => do
    let (left, rest) ← match tokens with
      | .sign :: rest =>
        match ← part fuel rest with
        | (.number, rest) => some (.signed, rest)
        | (.imaginary, rest) => some (.fixed, rest)
        | _ => none
      | tokens => part fuel tokens
    match rest with
    | .sign :: rest =>
      if left = .number || left = .signed then
        match ← part fuel rest with
        | (.imaginary, rest) => some (.fixed, rest)
        | _ => none
      else none
    | rest => some (left, rest)

/-- Items with commas between them, whether a comma follows the last one, and what comes next. -/
def items : (fuel : Nat) → List Token → Option (List Shape × Bool × List Token)
  | 0, _ => none
  | fuel + 1, tokens =>
    match tokens with
    | [] | .mark ')' :: _ | .mark '\x7d' :: _ | .lineEnd :: _ => some ([], false, tokens)
    | tokens => do
      let (shape, rest) ← sum fuel tokens
      match rest with
      | .mark ',' :: rest =>
        let (shapes, _, rest) ← items fuel rest
        return (shape :: shapes, true, rest)
      | rest => return ([shape], false, rest)

/-- What follows a value and the other keys and values of a table. -/
def values : (fuel : Nat) → List Token → Option (List Token)
  | 0, _ => none
  | fuel + 1, tokens => do
    let (_, rest) ← sum fuel tokens
    match rest with
    | .mark ',' :: .mark '\x7d' :: rest => return .mark '\x7d' :: rest
    | .mark ',' :: rest =>
      match ← sum fuel rest with
      | (key, .mark ':' :: rest) => if key = .changing then none else values fuel rest
      | _ => none
    | rest => return rest

end

/-- The text is a literal; a tuple may stand without its brackets. -/
def isLiteral (text : List Char) : Bool :=
  if text.contains '\x00' then false
  else match tokens 0 (unifyLineEnds text) with
    | none => false
    | some tokens =>
      let tokens := tokens.dropWhile (· == .lineEnd)
      match items (3 * tokens.length + 3) tokens with
      | some (shapes, _, rest) => !shapes.isEmpty && rest.all (· == .lineEnd)
      | none => false

end Deadwood.Console.Literal
