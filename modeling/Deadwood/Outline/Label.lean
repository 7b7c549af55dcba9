/-!
# Labels

Text for display, with a style for the whole and styles for parts of it.
-/

set_option autoImplicit false

namespace Deadwood.Outline

/-- A stretch of a text with a style of its own. -/
structure Span where
  start : Nat
  stop : Nat
  style : String
  deriving DecidableEq, Repr

/-- A styled text. -/
structure Label where
  text : List Char := []
  style : String := ""
  spans : List Span := []
  deriving DecidableEq, Repr, Inhabited

/-- Characters that would move the cursor, or ring, when they are shown. -/
def isControl (c : Char) : Bool := ['\x07', '\x08', '\x0b', '\x0c', '\x0d'].contains c

/-- A text without what cannot be shown. -/
def printable (text : List Char) : List Char := text.filter (!isControl ·)

namespace Label

/-- A label in one style. -/
def plain (text style : String) : Label := { text := printable text.toList, style }

/-- The label with more text in a style; no text adds no span. -/
def append (label : Label) (text style : String) : Label :=
  if text = "" then label
  else
    let added := printable text.toList
    let start := label.text.length
    { label with
      text := label.text ++ added
      spans := label.spans ++ [⟨start, start + added.length, style⟩] }

end Label

end Deadwood.Outline
