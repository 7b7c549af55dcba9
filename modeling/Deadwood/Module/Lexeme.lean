import Deadwood.Text.Blank
import Deadwood.Text.Word

/-!
# Lexemes and the shape of a module

A module's text is cut into comments, literals and single characters of code. The *shape* of the
text has the same length and the same line breaks; comments and the insides of literals are blanked
in it, so that text in comments and literals never looks like code, and an offset into the shape is
an offset into the text.

A slash is the one character whose meaning depends on what stands before it: it opens a pattern
literal after an operator, an opening bracket or one of a few words, and divides otherwise.
-/

set_option autoImplicit false

namespace Deadwood.Module

open Text

/-- Why a text has no shape. Offsets count characters from the beginning of the text. -/
inductive ParseError where
  /-- The text holds a NUL character. -/
  | binary
  /-- The block comment that begins at the offset is never closed. -/
  | openComment (offset : Nat)
  /-- The template literal that begins at the offset is never closed. -/
  | openTemplate (offset : Nat)
  deriving DecidableEq, Repr

/-- The offset that an error points at. -/
def ParseError.offset? : ParseError → Option Nat
  | .binary => none
  | .openComment offset => some offset
  | .openTemplate offset => some offset

/-- The wording of an error. -/
def ParseError.message : ParseError → String
  | .binary => "binary content (NUL byte)"
  | .openComment _ => "unterminated block comment"
  | .openTemplate _ => "unterminated template literal"

/-! ## Lexemes -/

/-- A piece of a module's text. -/
inductive Lexeme where
  /-- One character of code. -/
  | code (c : Char)
  /-- A line or block comment, without the line break that ends a line comment. -/
  | comment (text : List Char)
  /-- A quoted, template or pattern literal. Only a quoted literal that runs into the end of its
  line or of the text has no closing mark. -/
  | literal (mark : Char) (body : List Char) (close : Option Char)
  deriving DecidableEq, Repr

/-- The text of a lexeme. -/
def Lexeme.text : Lexeme → List Char
  | .code c => [c]
  | .comment text => text
  | .literal mark body close => mark :: (body ++ close.toList)

/-- A blanked character: a space, or the line break that it was. -/
def blanked (c : Char) : Char := if c = '\n' then '\n' else ' '

/-- The shape of a lexeme: comments and the bodies of literals are blanked. -/
def Lexeme.shape : Lexeme → List Char
  | .code c => [c]
  | .comment text => text.map blanked
  | .literal mark body close => mark :: (body.map blanked ++ close.toList)

/-! ## The bodies of literals -/

/-- The body of a literal between the quotes `quote`, and whether it is closed. A backslash takes
the next character with it, a line break included; without one, a line break ends the literal. -/
def quotedBody (quote : Char) : List Char → List Char × Bool
  | [] => ([], false)
  | c :: cs =>
    if c = quote then ([], true)
    else if c = '\n' then ([], false)
    else if c = '\\' then
      match cs with
      | [] => ([c], false)
      | d :: cs =>
        let (body, closed) := quotedBody quote cs
        (c :: d :: body, closed)
    else
      let (body, closed) := quotedBody quote cs
      (c :: body, closed)

/-- The body of a template literal up to the backquote that closes it; `depth` counts the braces of
interpolations that are open. -/
def templateBody (depth : Nat) : List Char → Option (List Char)
  | [] => none
  | c :: cs =>
    if c = '\\' then
      match cs with
      | [] => none
      | d :: cs => (templateBody depth cs).map fun body => c :: d :: body
    else if depth = 0 then
      if c = '`' then some []
      else if c = '$' then
        match cs with
        | [] => none
        | d :: ds =>
          if d = '{' then (templateBody 1 ds).map fun body => c :: d :: body
          else (templateBody 0 (d :: ds)).map (c :: ·)
      else (templateBody 0 cs).map (c :: ·)
    else if c = '{' then (templateBody (depth + 1) cs).map (c :: ·)
    else if c = '}' then (templateBody (depth - 1) cs).map (c :: ·)
    else (templateBody depth cs).map (c :: ·)

/-- The body of a pattern literal up to the slash that closes it; a slash inside a class does not
close it, and a line break before that slash makes it no literal. -/
def patternBody (inClass : Bool) : List Char → Option (List Char)
  | [] => none
  | c :: cs =>
    if c = '\n' then none
    else if c = '\\' then
      match cs with
      | [] => none
      | d :: cs => (patternBody inClass cs).map fun body => c :: d :: body
    else if c = '/' && !inClass then some []
    else
      let inside := if c = '[' then true else if c = ']' then false else inClass
      (patternBody inside cs).map (c :: ·)

/-! ## Reading a lexeme -/

/-- Characters that code may put between an operator and its operand. -/
def isGap (c : Char) : Bool := c = ' ' || c = '\t' || c = '\r' || c = '\n'

/-- Characters after which a slash opens a pattern literal. -/
def patternMarks : List Char := "(,=:[!&|?\x7b\x7d;+-*%~^".toList

/-- Words after which a slash opens a pattern literal. -/
def patternWords : List String :=
  ["return", "typeof", "case", "do", "else", "in", "of", "void", "yield"]

/-- A slash may open a pattern literal after the shape whose reversal is `before`: at the beginning,
after an operator or an opening bracket, and after one of the words. -/
def admitsPattern (before : List Char) : Bool :=
  match before.dropWhile isGap with
  | [] => true
  | c :: cs =>
    patternMarks.contains c ||
      patternWords.contains (String.ofList ((c :: cs).takeWhile isIdent).reverse)

/-- The lexeme that begins with `c`, where `cs` follows, `before` is the reversed shape of what
precedes and `offset` is its length. -/
def readLexeme (before : List Char) (offset : Nat) (c : Char) (cs : List Char) :
    Except ParseError Lexeme :=
  if c = '/' then
    match cs with
    | '/' :: tail => .ok (.comment ('/' :: '/' :: tail.takeWhile (· != '\n')))
    | '*' :: tail =>
      match cutAt ['*', '/'] tail with
      | some (body, _) => .ok (.comment ('/' :: '*' :: (body ++ ['*', '/'])))
      | none => .error (.openComment offset)
    | _ =>
      match if admitsPattern before then patternBody false cs else none with
      | some body => .ok (.literal c body (some '/'))
      | none => .ok (.code c)
  else if c = '\'' ∨ c = '"' then
    let (body, closed) := quotedBody c cs
    .ok (.literal c body (if closed then some c else none))
  else if c = '`' then
    match templateBody 0 cs with
    | some body => .ok (.literal c body (some '`'))
    | none => .error (.openTemplate offset)
  else .ok (.code c)

/-- The lexemes of the text that follows a beginning with the reversed shape `before`, of length
`offset`. -/
def lexFrom (before : List Char) (offset : Nat) : List Char → Except ParseError (List Lexeme)
  | [] => .ok []
  | c :: cs => do
    let lexeme ← readLexeme before offset c cs
    let length := lexeme.text.length
    let lexemes ← lexFrom (lexeme.shape.reverse ++ before) (offset + length) (cs.drop (length - 1))
    return lexeme :: lexemes
termination_by cs => cs.length
decreasing_by simp only [List.length_cons, List.length_drop]; omega

/-- The lexemes of a module's text. -/
def lex (source : List Char) : Except ParseError (List Lexeme) :=
  if source.contains '\x00' then .error .binary else lexFrom [] 0 source

/-- The shape of a module's text: the same length and line breaks, with comments and the bodies of
literals blanked. -/
def shape (source : List Char) : Except ParseError (List Char) :=
  (lex source).map fun lexemes => lexemes.flatMap Lexeme.shape

end Deadwood.Module
