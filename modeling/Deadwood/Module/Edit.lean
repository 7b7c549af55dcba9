import Deadwood.Module.Basic
import Deadwood.Reference.Token
import Deadwood.Text.Blank

/-!
# Edits of a module's text

The ways in which an export is taken out of a module: a statement is removed, a list is written anew
without some of its entries, the word `export` is dropped, or a declaration is removed together with
the documentation above it. Only what lies inside the text can be removed.
-/

set_option autoImplicit false

namespace Deadwood.Module

open Text

/-- Why a text cannot be edited. -/
inductive EditError where
  /-- A list has no braces. -/
  | unbraced
  /-- A position lies outside of the text. -/
  | outside
  deriving DecidableEq, Repr

/-- The wording of an error. -/
def EditError.message : EditError → String
  | .unbraced => "substring not found"
  | .outside => "string index out of range"

/-- The text before a span that begins at `start`. If only blanks stand before the span in its first
line, they are left out. -/
def headBefore (source : List Char) (start : Nat) : List Char :=
  let head := source.take start
  let indent := head.reverse.takeWhile (· != '\n')
  if indent.all isBlank then head.take (head.length - indent.length) else head

/-- The text `tail` after a span. If only spaces and tabs stand after the span in its last line,
they are left out with the line end. -/
def tailAfter (tail : List Char) : List Char :=
  match tail.dropWhile isLineBlank with
  | [] => []
  | '\n' :: rest => rest
  | _ => tail

/-- The text without the span from `start` to `stop`. If only blanks stand before the span in its
first line, they go as well, and if only spaces and tabs stand after it in its last line, they go
with the line end. -/
def removeSpan (source : List Char) (start stop : Nat) : List Char :=
  headBefore source start ++ tailAfter (source.drop stop)

/-- The text without the span from `start` to `stop`, which must lie inside it. -/
def removeStatement (source : List Char) (start stop : Nat) : Except EditError (List Char) :=
  if source.length < stop then .error .outside else .ok (removeSpan source start stop)

/-- The text in which the list between the first braces of a statement has the entries `kept`. There
is no such text if the statement has no braces. -/
def writeEntries? (source : List Char) (start stop : Nat) (kept : List Entry) :
    Option (List Char) := do
  let (before, inside) ← cutAt ['{'] ((source.take stop).drop start)
  let (_, after) ← cutAt ['}'] inside
  let list := [',', ' '].intercalate (kept.map (·.text.toList))
  return source.take start ++ before ++ ['{', ' '] ++ list ++ [' ', '}'] ++ after ++
    source.drop stop

/-- The text in which the list between the first braces of a statement has exactly the entries
`kept`; without entries the statement is removed. -/
def keepEntries (source : List Char) (start stop : Nat) (kept : List Entry) :
    Except EditError (List Char) :=
  if kept.isEmpty then removeStatement source start stop
  else
    match writeEntries? source start stop kept with
    | some edited => .ok edited
    | none => .error .unbraced

/-- The text in which a declaration is no longer exported. -/
def stripExport (source : List Char) (declaration : Declaration) : List Char :=
  source.take declaration.start ++ source.drop declaration.qualifierStop

/-- Where the last `mark` of a text begins. -/
def lastAt? (mark : List Char) : List Char → Option Nat
  | [] => if mark.isEmpty then some 0 else none
  | c :: cs =>
    match lastAt? mark cs with
    | some n => some (n + 1)
    | none => if mark.isPrefixOf (c :: cs) then some 0 else none

/-- Where the documentation comment begins that ends right before `start`, blanks apart. -/
def documentationStart? (source : List Char) (start : Nat) : Option Nat :=
  let before := trimEnd (source.take start)
  if ['*', '/'].isSuffixOf before then
    (lastAt? ['/', '*'] before).filter fun n => ['/', '*', '*'].isPrefixOf (before.drop n)
  else none

/-- The text without a declaration and the documentation above it. -/
def deleteDeclaration (source : List Char) (declaration : Declaration) :
    Except EditError (List Char) :=
  let start := (documentationStart? source declaration.start).getD declaration.start
  removeStatement source start declaration.stop

/-- The declared name stands in its module outside of the declaration. -/
def usedLocally (source : List Char) (declaration : Declaration) : Bool :=
  let outside := source.take declaration.start ++ '\n' :: source.drop declaration.stop
  0 < Reference.countTokens declaration.name outside

end Deadwood.Module
