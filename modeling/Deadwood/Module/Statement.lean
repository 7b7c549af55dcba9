import Deadwood.Module.Basic
import Deadwood.Text.Blank
import Deadwood.Text.Cursor
import Deadwood.Text.Word

/-!
# Import and export statements

Recognisers for the statements that name another module and for lists of local exports. They run
over the shape of a module, where comments are blank and a literal is two quotes with blanks between
them, and give spans; the texts of literals are read off the source at the same offsets. Only the
specifier of a module loaded at run time is looked for in the source itself.
-/

set_option autoImplicit false

namespace Deadwood.Module

open Text

/-- A statement does not begin inside a longer name or after a dot. -/
def standsFree (previous : Option Char) : Bool := previous.all fun c => !(isIdent c || c = '.')

/-! ## Literals -/

/-- A literal: the quote around it and the span of its body. -/
structure Literal where
  quote : Char
  start : Nat
  stop : Nat
  deriving DecidableEq, Repr

/-- The body of a literal in the source, without the blanks around it. -/
def Literal.specifier (literal : Literal) (source : List Char) : String :=
  String.ofList (trim ((source.take literal.stop).drop literal.start))

/-- A literal between two equal quotes out of `quotes`, with neither another of them nor a character
of `barred` inside. -/
def literalOf? (quotes barred : List Char) (here : Cursor) : Option (Literal × Cursor) := do
  let quote ← here.rest.head?
  guard (quotes.contains quote)
  let body := here.advance 1
  let close := body.skip fun c => !quotes.contains c && !barred.contains c
  guard (close.nextIs (· == quote))
  return (⟨quote, body.offset, close.offset⟩, close.advance 1)

/-- A literal on one line. -/
def literal? (here : Cursor) : Option (Literal × Cursor) := literalOf? ['\'', '"'] ['\n'] here

/-- The word `from` and a literal, with any blanks before each. -/
def fromLiteral? (here : Cursor) : Option (Literal × Cursor) := do
  let here ← (here.skip isBlank).expect? "from"
  literal? (here.skip isBlank)

/-- The cursor after a word and at least one blank. -/
def spacedWord? (word : String) (here : Cursor) : Option Cursor := do
  (← here.expect? word).skipSome? isBlank

/-- The word `type` and blanks, if they follow: whether they do, and the cursor after them. -/
def typeWord (here : Cursor) : Bool × Cursor :=
  match spacedWord? "type" here with
  | some next => (true, next)
  | none => (false, here)

/-! ## Imports -/

/-- Characters that may stand in the clause of an import. -/
def isClauseChar (c : Char) : Bool :=
  isIdent c || isBlank c || c = '{' || c = '}' || c = ',' || c = '*'

/-- The shortest clause, of one character at least, that `from` and a literal follow. -/
def shortestClause? (offset : Nat) : List Char → Option (List Char × Literal × Cursor)
  | [] => none
  | c :: cs =>
    if isClauseChar c then
      match fromLiteral? ⟨offset + 1, cs⟩ with
      | some (literal, next) => some ([c], literal, next)
      | none => (shortestClause? (offset + 1) cs).map fun (clause, rest) => (c :: clause, rest)
    else none

/-- The shortest clause after a run of blanks that is not empty. Only if there is none may the last
blank of a longer run be the beginning of the clause. -/
def clauseAfterBlanks? (here : Cursor) : Option (List Char × Literal × Cursor) :=
  let blanks := (here.run isBlank).length
  let clauseFrom (next : Cursor) := shortestClause? next.offset next.rest
  if blanks = 0 then none
  else
    clauseFrom (here.advance blanks) <|>
      if blanks = 1 then none else clauseFrom (here.advance (blanks - 1))

/-- An import with a clause, as it stands in the shape. -/
structure ImportForm where
  start : Nat
  typeOnly : Bool
  clause : List Char
  literal : Literal
  deriving DecidableEq, Repr

/-- An import with a clause. The word `type` is taken as a mark of a type import if a clause can
follow it, and as the beginning of the clause otherwise. -/
def importForm? (start : Cursor) : Option (ImportForm × Cursor) := do
  let here ← start.expect? "import"
  let typed : Option (List Char × Literal × Cursor) := do
    clauseAfterBlanks? (← (← here.skipSome? isBlank).expect? "type")
  match typed with
  | some (clause, literal, next) => return (⟨start.offset, true, clause, literal⟩, next)
  | none =>
    let (clause, literal, next) ← clauseAfterBlanks? here
    return (⟨start.offset, false, clause, literal⟩, next)

/-- An import for its effects: its offset and its literal. -/
def effectImport? (start : Cursor) : Option ((Nat × Literal) × Cursor) := do
  let here ← start.expect? "import"
  let (literal, next) ← literal? (here.skip isBlank)
  return ((start.offset, literal), next)

/-- A module loaded at run time: the literal in `import(...)` or `require(...)`, which may be a
template without any quote inside. -/
def dynamicImport? (start : Cursor) : Option (Literal × Cursor) := do
  let here ← start.expect? "import" <|> start.expect? "require"
  let here ← (here.skip isBlank).expect? "("
  let (literal, next) ← literalOf? ['\'', '"', '`'] [] (here.skip isBlank)
  let next ← (next.skip isBlank).expect? ")"
  return (literal, next)

/-! ## Exports -/

/-- The inside of a list in braces and the cursor after it; a list holds no braces. -/
def braceList? (here : Cursor) : Option (List Char × Cursor) := do
  let inside ← here.expect? "\x7b"
  let isInside (c : Char) : Bool := c != '{' && c != '}'
  let next ← (inside.skip isInside).expect? "\x7d"
  return (inside.run isInside, next)

/-- What a re-export passes on, as it stands in the shape. -/
inductive PassageForm where
  | everything
  | whole (name : List Char)
  | listed (inside : List Char)
  deriving DecidableEq, Repr

/-- The part `as name from` and a literal after a star. The name may run up to the word `from`
without a blank between them. -/
def namedStar? (here : Cursor) : Option (PassageForm × Literal × Cursor) := do
  let here ← spacedWord? "as" here
  let name := here.run isIdent
  let next := here.skip isIdent
  guard !name.isEmpty
  match fromLiteral? next with
  | some (literal, next) => return (.whole name, literal, next)
  | none =>
    let shortened := name.take (name.length - 4)
    guard (!shortened.isEmpty && name == shortened ++ "from".toList)
    let (literal, next) ← literal? (next.skip isBlank)
    return (.whole shortened, literal, next)

/-- What a re-export passes on, and the literal it comes from. -/
def passage? (here : Cursor) : Option (PassageForm × Literal × Cursor) :=
  match here.expect? "*" with
  | some star =>
    let here := star.skip isBlank
    namedStar? here <|> (fromLiteral? here).map fun (literal, next) => (.everything, literal, next)
  | none => do
    let (inside, next) ← braceList? here
    let (literal, next) ← fromLiteral? next
    return (.listed inside, literal, next)

/-- A re-export, as it stands in the shape. -/
structure ReexportForm where
  start : Nat
  stop : Nat
  typeOnly : Bool
  passage : PassageForm
  literal : Literal
  deriving DecidableEq, Repr

/-- A re-export, with the blanks after it on its line and a semicolon. -/
def reexportForm? (start : Cursor) : Option (ReexportForm × Cursor) := do
  let (typeOnly, here) := typeWord (← spacedWord? "export" start)
  let (passage, literal, next) ← passage? here
  let next := next.skip isLineBlank
  let next := (next.expect? ";").getD next
  return (⟨start.offset, next.offset, typeOnly, passage, literal⟩, next)

/-- The offset after a semicolon that follows on the same line, or else the offset of the cursor. -/
def afterSemicolon (here : Cursor) : Nat :=
  (((here.skip isLineBlank).expect? ";").getD here).offset

/-- The word `from` follows, after any blanks. -/
def fromFollows (here : Cursor) : Bool :=
  match (here.skip isBlank).expect? "from" with
  | some next => !next.nextIs isWord
  | none => false

/-- A list of exports, as it stands in the shape. -/
structure ListForm where
  start : Nat
  stop : Nat
  typeOnly : Bool
  inside : List Char
  deriving DecidableEq, Repr

/-- A list of exports: of the module itself, or nothing if the list draws from another module. The
search for the next one goes on after the closing brace. -/
def localList? (start : Cursor) : Option (Option ListForm × Cursor) := do
  let (typeOnly, here) := typeWord (← spacedWord? "export" start)
  let (inside, next) ← braceList? here
  if fromFollows next then return (none, next)
  else return (some ⟨start.offset, afterSemicolon next, typeOnly, inside⟩, next)

end Deadwood.Module
