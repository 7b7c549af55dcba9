import Deadwood.Module.Statement

/-!
# Exported declarations

An exported declaration begins with the word `export`. Its head tells the kind and, except for
variables, the name. Its extent is found by counting brackets in the shape: a function, class,
interface, enumeration or namespace ends with its block, everything else at a semicolon, at a
closing bracket that it did not open, or at a line break where the text before and after it reads as
complete. A variable statement may declare several names, which share its extent.
-/

set_option autoImplicit false

namespace Deadwood.Module

open Text

/-! ## Extents -/

def isOpening (c : Char) : Bool := c = '(' || c = '[' || c = '{'

def isClosing (c : Char) : Bool := c = ')' || c = ']' || c = '}'

/-- Characters at the end of a line after which a statement goes on. -/
def goesOnAfter : List Char := "=,(+-*/|&?:.<\x7b[".toList

/-- Characters at the beginning of a line that carry on the statement before it. -/
def carriesOn : List Char := ".?:|&+-*/=,)]\x7d>".toList

/-- A statement may end between the reversed text `before` and the text `after`, which begins with a
line break. -/
def mayEndBetween (before after : List Char) : Bool :=
  let complete :=
    match before.dropWhile isBlank with
    | [] => false
    | '>' :: '=' :: _ => false
    | c :: _ => !goesOnAfter.contains c
  complete && !(after.dropWhile isBlank).head?.any carriesOn.contains

/-- How many characters stand before the bracket `close` that matches `depth` brackets `opener`
opened before. -/
def matching? (opener close : Char) (depth : Nat) : List Char → Option Nat
  | [] => none
  | c :: cs =>
    if c = opener then (matching? opener close (depth + 1) cs).map (· + 1)
    else if c = close then
      if depth ≤ 1 then some 0 else (matching? opener close (depth - 1) cs).map (· + 1)
    else (matching? opener close depth cs).map (· + 1)

/-- The offset after the block that begins at the cursor, and after a semicolon that follows it. A
block that is never closed reaches to the end of the text. -/
def blockEnd (here : Cursor) : Nat :=
  match matching? '{' '}' 0 here.rest with
  | some inside => afterSemicolon (here.advance (inside + 1))
  | none => here.offset + here.rest.length

/-- The offset at which a declaration of the given kind ends, where `before` is the reversed shape
up to `offset` and `depth` counts the brackets that are open. -/
def extentFrom (kind : DeclarationKind) (before : List Char) (depth offset : Nat) :
    List Char → Nat
  | [] => offset
  | c :: cs =>
    if c = '{' && depth = 0 && kind.hasBlock then blockEnd ⟨offset, c :: cs⟩
    else if isOpening c then extentFrom kind (c :: before) (depth + 1) (offset + 1) cs
    else if isClosing c then
      if depth = 0 then offset else extentFrom kind (c :: before) (depth - 1) (offset + 1) cs
    else if c = ';' && depth = 0 then offset + 1
    else if c = '\n' && depth = 0 && !kind.hasBlock && mayEndBetween before (c :: cs) then offset
    else extentFrom kind (c :: before) depth (offset + 1) cs

/-- The offset at which the declaration of the given kind ends whose head ends at `position`. -/
def declarationEnd (shape : List Char) (position : Nat) (kind : DeclarationKind) : Nat :=
  extentFrom kind (shape.take position).reverse 0 (min position shape.length) (shape.drop position)

/-! ## Declarators -/

/-- The parts of a variable statement between its commas outside of all brackets, each with its
offset. A bracket that nothing opened counts too, so the depth may be negative. -/
def declarators (depth : Int) (offset : Nat) : List Char → List (Nat × List Char)
  | [] => [(offset, [])]
  | c :: cs =>
    if c = ',' && depth = 0 then (offset, []) :: declarators depth (offset + 1) cs
    else
      let depth := if isOpening c then depth + 1 else if isClosing c then depth - 1 else depth
      match declarators depth (offset + 1) cs with
      | [] => [(offset, [c])]
      | (_, part) :: parts => (offset, c :: part) :: parts

/-- The name at the beginning of a declarator, if a type, an initial value, a mark of definite
assignment or the end follows it. -/
def declaratorName? (part : List Char) : Option (List Char) :=
  let name := part.takeWhile isIdent
  let next := (part.dropWhile isIdent).dropWhile isBlank
  if !name.isEmpty && next.head?.all ['!', ':', '=', ';'].contains then some name else none

/-- A name that a pattern binds, after the dots that collect the rest, up to the comma or the end
after an initial value. -/
def boundName? (here : Cursor) : Option (List Char × Cursor) := do
  let here := (here.expect? "...").getD here
  let name := here.run isIdent
  guard !name.isEmpty
  let next := (here.skip isIdent).skip isBlank
  let next := if next.nextIs (· == '=') then next.skip (· != ',') else next
  match next.rest with
  | [] => return (name, next)
  | c :: _ => if c = ',' then return (name, next.advance 1) else none

/-- A name that a pattern binds, after the property that it is taken from. -/
def patternName? (here : Cursor) : Option (List Char × Cursor) :=
  let property : Option Cursor := do
    let colon ← (← here.skipSome? isIdent).skip isBlank |>.expect? ":"
    return colon.skip isBlank
  property.bind boundName? <|> boundName? here

/-- The names that the pattern with the given inside binds. -/
def patternNames (inside : List Char) : List (List Char) :=
  scan (fun _ => true) patternName? (squeeze inside)

/-- The names declared by the declarator `part` at `offset`. The inside of a pattern is read off the
source, up to the bracket that closes it in the shape. -/
def declaratorNames (source shape : List Char) (offset : Nat) (part : List Char) :
    List (List Char) :=
  let bare := trimStart part
  let names (opener close : Char) : List (List Char) :=
    let start := offset + part.length - bare.length
    let stop :=
      match matching? opener close 0 (shape.drop start) with
      | some inside => start + inside
      | none => shape.length - 1
    patternNames ((source.take stop).drop (start + 1))
  match bare with
  | '{' :: _ => names '{' '}'
  | '[' :: _ => names '[' ']'
  | _ => (declaratorName? bare).toList

/-- The names declared by the variable statement in the given span. -/
def variableNames (source shape : List Char) (start stop : Nat) : List (List Char) :=
  (declarators 0 start ((shape.take stop).drop start)).flatMap fun (offset, part) =>
    declaratorNames source shape offset part

/-! ## Heads -/

/-- The head of a declaration. -/
structure Head where
  start : Nat
  /-- The offset after `export` and the blanks that follow it. -/
  qualifierStop : Nat
  isDefault : Bool
  /-- The kind, with the offset after its words. -/
  kind : Option (DeclarationKind × Nat)
  name : List Char
  /-- The offset after the head. -/
  stop : Nat
  deriving DecidableEq, Repr

/-- No name goes on at the cursor. -/
def wordEnds (here : Cursor) : Bool := !here.nextIs isIdent

/-- The cursor after a word that no longer name contains. -/
def wholeWord? (word : String) (here : Cursor) : Option Cursor :=
  (here.expect? word).filter wordEnds

/-- The cursor after the word `function` and a star, if the head can go on after the star. A star
that the name follows at once is left where it is. -/
def functionWord? (here : Cursor) : Option Cursor := do
  let word ← here.expect? "function"
  let next := word.skip isBlank
  match next.expect? "*" with
  | some star => return if wordEnds star then star else next
  | none => if wordEnds word then return next else none

/-- The words of the kinds that are one word. -/
def kindWords : List (String × DeclarationKind) :=
  [("const", .constant), ("let", .blockVariable), ("var", .functionVariable), ("class", .classType),
    ("interface", .interface), ("type", .type), ("enum", .enum), ("namespace", .scope),
    ("module", .scope)]

/-- The kind that the words at the cursor name, with the cursor after them. -/
def kind? (here : Cursor) : Option (DeclarationKind × Cursor) :=
  let constantEnum : Option Cursor := do wholeWord? "enum" (← spacedWord? "const" here)
  (constantEnum.map (.enum, ·)) <|> ((functionWord? here).map (.function, ·)) <|>
    kindWords.findSome? fun (word, kind) => (wholeWord? word here).map (kind, ·)

/-- The cursor after a word and blanks, if they follow. -/
def afterModifier (word : String) (here : Cursor) : Cursor := (spacedWord? word here).getD here

/-- The head of an exported declaration. Every other export statement is read as a head without a
kind. -/
def head? (start : Cursor) : Option (Head × Cursor) := do
  let qualifier ← spacedWord? "export" start
  let (isDefault, here) :=
    match spacedWord? "default" qualifier with
    | some next => (true, next)
    | none => (false, qualifier)
  let here := afterModifier "async" (afterModifier "abstract" (afterModifier "declare" here))
  let (kind, name, stop) :=
    match kind? here with
    | none => (none, [], here)
    | some (kind, next) =>
      let name := next.skip isBlank
      (some (kind, next.offset), name.run isIdent, name.skip isIdent)
  return (⟨start.offset, qualifier.offset, isDefault, kind, name, stop.offset⟩, stop)

/-- The declarations that a head introduces. -/
def Head.declarations (source shape : List Char) (head : Head) : List Declaration :=
  let declare (kind : DeclarationKind) (stop : Nat) (name : String) : Declaration :=
    { name, kind, start := head.start, stop, qualifierStop := head.qualifierStop }
  if head.isDefault then
    let kind := (head.kind.map Prod.fst).getD .default
    [declare .default (declarationEnd shape head.stop kind) "default"]
  else
    match head.kind with
    | none => []
    | some (kind, kindStop) =>
      if kind.isVariable then
        let stop := declarationEnd shape kindStop kind
        (variableNames source shape kindStop stop).map fun name =>
          declare kind stop (String.ofList name)
      else if head.name.isEmpty then []
      else [declare kind (declarationEnd shape head.stop kind) (String.ofList head.name)]

/-- The exported declarations of a module. -/
def declarationsOf (source shape : List Char) : List Declaration :=
  (scan standsFree head? shape).flatMap fun head => head.declarations source shape

end Deadwood.Module
