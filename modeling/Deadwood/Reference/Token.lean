import Deadwood.Text.Blank
import Deadwood.Text.Word

/-!
# Counting tokens

A reference to a name is an occurrence of the name in a text where it is a token of its own: no
letter, digit, underscore or dollar sign of ASCII stands next to it.
-/

set_option autoImplicit false

namespace Deadwood.Reference

open Text

/-- No token goes on here: there is no character, or one that no token holds. -/
def isEdge (c : Option Char) : Bool := !c.any isToken

/-- How often `name` stands as a token in the text after the character `previous`. Occurrences do
not overlap. -/
def countFrom (name : List Char) (previous : Option Char) : List Char → Nat
  | [] => if name.isEmpty && isEdge previous then 1 else 0
  | c :: cs =>
    if isEdge previous && name.isPrefixOf (c :: cs) &&
        isEdge ((c :: cs).drop name.length).head? then
      let more := name.length - 1
      1 + countFrom name ((c :: cs.take more).getLast?) (cs.drop more)
    else countFrom name (some c) cs
termination_by cs => cs.length
decreasing_by all_goals simp only [List.length_cons, List.length_drop]; omega

/-- How often `name` stands as a token in a text. A text in which the name does not occur at all
need not be searched for tokens. -/
def countTokens (name : String) (text : List Char) : Nat :=
  if occursIn name.toList text then countFrom name.toList none text else 0

end Deadwood.Reference
