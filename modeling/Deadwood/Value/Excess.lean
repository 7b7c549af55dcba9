import Deadwood.Number.Digits

/-!
# Bounds of documents

A document may follow the rules of its format and still be more than can be read: a whole number may
have too many digits, and lists and tables may stand too deep inside each other, where each format
has its own bound. Readers stop where they first meet such an excess.
-/

set_option autoImplicit false

namespace Deadwood

/-- How a document goes beyond what can be read. -/
inductive Excess where
  /-- A whole number has too many digits. -/
  | digits (count : Nat)
  /-- Lists and tables are nested too deeply. -/
  | nesting
  deriving DecidableEq, Repr

namespace Excess

/-- The wording of an excess. -/
def message : Excess → String
  | .digits count => Number.overlongMessage count
  | .nesting => "Lists and tables are nested too deeply"

/-- The excess of a whole number with the given digits. -/
def ofDigits? (cs : List Char) : Option Excess :=
  if Number.maxDigits < cs.length then some (.digits cs.length) else none

end Excess

end Deadwood
