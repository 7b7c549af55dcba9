/-!
# Cursors

A cursor is a place in a text: the characters that follow it and the number of characters before it.
Recognisers take a cursor, and on success give what they read with the cursor after it, so the spans
of what they read are differences of offsets. `scan` finds every occurrence of a form from left to
right, without overlap.
-/

set_option autoImplicit false

namespace Deadwood.Text

/-- A place in a text. -/
structure Cursor where
  /-- How many characters stand before the place. -/
  offset : Nat
  /-- The characters after the place. -/
  rest : List Char
  deriving DecidableEq, Repr

namespace Cursor

/-- The cursor `n` characters further on. -/
def advance (n : Nat) (here : Cursor) : Cursor := ⟨here.offset + n, here.rest.drop n⟩

/-- The longest run of characters with `p` after the cursor. -/
def run (p : Char → Bool) (here : Cursor) : List Char := here.rest.takeWhile p

/-- The cursor after the longest run of characters with `p`. -/
def skip (p : Char → Bool) (here : Cursor) : Cursor := here.advance (here.run p).length

/-- The cursor after the longest run of characters with `p`, which must not be empty. -/
def skipSome? (p : Char → Bool) (here : Cursor) : Option Cursor :=
  if (here.run p).isEmpty then none else some (here.skip p)

/-- The cursor after the text `expected`, which must follow. -/
def expect? (expected : String) (here : Cursor) : Option Cursor :=
  if expected.toList.isPrefixOf here.rest then some (here.advance expected.length) else none

/-- The next character, if any, has `p`. -/
def nextIs (p : Char → Bool) (here : Cursor) : Bool := here.rest.head?.any p

end Cursor

/-- The occurrences of a form in the text after `offset` characters of which the last is `previous`.
The form is tried where `admits` allows it after the previous character, and the search goes on
after what was read. -/
def scanFrom {α : Type} (admits : Option Char → Bool) (recognise : Cursor → Option (α × Cursor))
    (previous : Option Char) (offset : Nat) : List Char → List α
  | [] => []
  | c :: cs =>
    match if admits previous then recognise ⟨offset, c :: cs⟩ else none with
    | none => scanFrom admits recognise (some c) (offset + 1) cs
    | some (found, next) =>
      let more := next.offset - offset - 1
      found :: scanFrom admits recognise ((c :: cs.take more).getLast?) (offset + 1 + more)
        (cs.drop more)
termination_by cs => cs.length
decreasing_by all_goals simp only [List.length_cons, List.length_drop]; omega

/-- The occurrences of a form in a text, from left to right and without overlap. -/
def scan {α : Type} (admits : Option Char → Bool) (recognise : Cursor → Option (α × Cursor))
    (text : List Char) : List α :=
  scanFrom admits recognise none 0 text

end Deadwood.Text
