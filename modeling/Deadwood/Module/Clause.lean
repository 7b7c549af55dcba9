import Deadwood.Module.Basic
import Deadwood.Text.Blank
import Deadwood.Text.Word

/-!
# Lists in braces and import clauses

An entry is a name, a name under another name, or either of these after the word `type`; blanks
between its words do not matter. A clause is what stands between `import` and `from`.
-/

set_option autoImplicit false

namespace Deadwood.Module

open Text

/-- The entry that a piece of a list stands for; a piece of blanks stands for none. -/
def entry? (piece : List Char) : Option Entry :=
  let text := squeeze piece
  let body := if "type ".toList.isPrefixOf text then text.drop 5 else text
  let (name, outer) := (cutAt " as ".toList body).getD (body, [])
  let name := trim name
  let outer := trim outer
  if name.isEmpty then none
  else
    some {
      name := String.ofList name
      exportedAs := String.ofList (if outer.isEmpty then name else outer)
      text := String.ofList text }

/-- The entries of the list whose inside is `text`. -/
def entries (text : List Char) : List Entry := (text.splitOn ',').filterMap entry?

/-- The text before the first list in braces, its inside, and the text after it. -/
def cutBraces (text : List Char) : Option (List Char × List Char × List Char) := do
  let (head, tail) ← cutAt ['{'] text
  let (inside, rest) ← cutAt ['}'] tail
  return (head, inside, rest)

/-- A text that is a name. -/
def isName (text : List Char) : Bool := !text.isEmpty && text.all isIdent

/-- The name in `* as name`. -/
def wholeName? : List Char → Option (List Char)
  | '*' :: tail =>
    match trimStart tail with
    | 'a' :: 's' :: tail =>
      let name := trimStart tail
      if tail.head?.any isBlank && isName name then some name else none
    | _ => none
  | _ => none

/-- Take one part of a clause, outside of its list in braces, into account. -/
def Clause.add (clause : Clause) (part : List Char) : Clause :=
  let part := squeeze part
  match wholeName? part with
  | some name => { clause with wholeName := some (String.ofList name) }
  | none =>
    if isName part then { clause with defaultName := some (String.ofList part) } else clause

/-- What the clause written as `text` binds. -/
def clauseOf (text : List Char) : Clause :=
  let (outside, inside) :=
    match cutBraces text with
    | some (head, inside, rest) => (head ++ rest, inside)
    | none => (text, [])
  let names := (entries inside).map fun entry => (entry.name, entry.exportedAs)
  (outside.splitOn ',').foldl Clause.add { names }

end Deadwood.Module
