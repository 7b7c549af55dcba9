import Deadwood.Module.Declaration
import Deadwood.Module.Edit

/-!
# Positions from the end

A position in a text may also be counted from the end: the last character is at -1, the one before
it at -2. Most edits only cut the text at a position, and then such a position is as good as the
place that it stands for. A walk that starts there is different: if it does not stop before the end
of the text, it goes on at the beginning.
-/

set_option autoImplicit false

namespace Deadwood.Module

open Text

/-- The place that a position stands for in a text. No place lies before the beginning. -/
def place (text : List Char) (position : Int) : Nat :=
  if 0 ≤ position then position.toNat else (text.length + position).toNat

/-- The text after a span whose end is at a place counted from the end, where `back` is the text
from there on. The rest of the last line may run from the end of the text on to its beginning, and a
line end that is the last character of the text leads back to the beginning. -/
def tailBehind (source back : List Char) : List Char :=
  match back.dropWhile isLineBlank with
  | [] =>
    match source.dropWhile isLineBlank with
    | [] => []
    | '\n' :: rest => rest
    | _ => back
  | ['\n'] => source
  | '\n' :: rest => rest
  | _ => back

/-- The text without the span between two positions, which must end inside the text. -/
def removeStatementAt (source : List Char) (start stop : Int) : Except EditError (List Char) :=
  if 0 ≤ stop then removeStatement source (place source start) stop.toNat
  else if source.length + stop < 0 then .error .outside
  else .ok (headBefore source (place source start) ++
    tailBehind source (source.drop (place source stop)))

/-- The text in which the list of the statement between two positions has exactly the entries
`kept`. -/
def keepEntriesAt (source : List Char) (start stop : Int) (kept : List Entry) :
    Except EditError (List Char) :=
  if kept.isEmpty then removeStatementAt source start stop
  else keepEntries source (place source start) (place source stop) kept

/-- The text without a declaration that ends at `stop` and the documentation above it. -/
def deleteDeclarationAt (source : List Char) (declaration : Declaration) (stop : Int) :
    Except EditError (List Char) :=
  let start := (documentationStart? source declaration.start).getD declaration.start
  removeStatementAt source start stop

/-- The position after a block that ends before `stop`, and after a semicolon that follows it.
Before the beginning of a text nothing follows but the text itself. -/
def afterBlock (shape : List Char) (stop : Int) : Int :=
  let follows := afterSemicolon ⟨stop.toNat, shape.drop stop.toNat⟩
  if follows = stop.toNat then stop else follows

/-- The position at which a declaration ends, as `extentFrom` has it, in the last characters of a
shape and then, if it does not end there, in the shape from its beginning. -/
def extentBehind (kind : DeclarationKind) (shape before : List Char) (depth : Nat)
    (position : Int) : (back : List Char) → Int
  | [] => extentFrom kind [] depth 0 shape
  | c :: cs =>
    if c = '{' && depth = 0 && kind.hasBlock then
      match matching? '{' '}' 0 (c :: cs ++ shape) with
      | some inside => afterBlock shape (position + inside + 1)
      | none => shape.length
    else if isOpening c then extentBehind kind shape (c :: before) (depth + 1) (position + 1) cs
    else if isClosing c then
      if depth = 0 then position
      else extentBehind kind shape (c :: before) (depth - 1) (position + 1) cs
    else if c = ';' && depth = 0 then position + 1
    else if c = '\n' && depth = 0 && !kind.hasBlock && mayEndBetween before (c :: cs) then position
    else extentBehind kind shape (c :: before) depth (position + 1) cs

/-- The position at which the declaration of the given kind ends whose head ends at `position`. -/
def declarationEndAt (shape : List Char) (position : Int) (kind : DeclarationKind) :
    Except EditError Int :=
  if 0 ≤ position then .ok (declarationEnd shape position.toNat kind)
  else if shape.length + position < 0 then .error .outside
  else
    let start := place shape position
    .ok (extentBehind kind shape (shape.take start).reverse 0 position (shape.drop start))

end Deadwood.Module
