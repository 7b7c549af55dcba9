import Deadwood.Json.Reader

/-!
# Relaxed JSON

Compiler configurations may hold comments, and a comma after the last item or member. Both are
removed before the text is read as JSON: first the comments, then the commas. Texts in quotes are
passed over by both steps, and an opening quote or comment mark without its partner is left alone.
-/

set_option autoImplicit false

namespace Deadwood.Json

open Text

/-- The length of a text in quotes after its opening quote, the closing quote included. A backslash
takes the next character with it, but not a line end. -/
def quotedLength? : List Char → Option Nat
  | [] => none
  | '"' :: _ => some 1
  | '\\' :: c :: cs => if c = '\n' then none else (quotedLength? cs).map (· + 2)
  | c :: cs => if c = '\\' then none else (quotedLength? cs).map (· + 1)

/-- The text without its comments. -/
def dropComments : List Char → List Char
  | [] => []
  | c :: cs =>
    match c, cs with
    | '"', cs =>
      match quotedLength? cs with
      | some n => '"' :: cs.take n ++ dropComments (cs.drop n)
      | none => '"' :: dropComments cs
    | '/', '*' :: rest =>
      match cutAt ['*', '/'] rest with
      | some (inside, _) => dropComments (rest.drop (inside.length + 2))
      | none => '/' :: dropComments ('*' :: rest)
    | '/', '/' :: rest => dropComments (rest.dropWhile (· != '\n'))
    | c, cs => c :: dropComments cs
termination_by cs => cs.length
decreasing_by
  all_goals simp only [List.length_cons, List.length_drop]
  all_goals try omega
  exact Nat.lt_succ_of_le (Nat.le_succ_of_le (List.dropWhile_suffix _).length_le)

/-- The text without the commas that stand before the end of a list or a table. -/
def dropCommas : List Char → List Char
  | [] => []
  | c :: cs =>
    if c = '"' then
      match quotedLength? cs with
      | some n => '"' :: cs.take n ++ dropCommas (cs.drop n)
      | none => '"' :: dropCommas cs
    else if c = ',' ∧ (trimStart cs).head?.any (fun c => c == '\x7d' || c == ']') then
      dropCommas cs
    else c :: dropCommas cs
termination_by cs => cs.length
decreasing_by all_goals simp only [List.length_cons, List.length_drop]; omega

/-- The value of a document with comments and closing commas. -/
def readRelaxed (text : List Char) : Except Error Value := read (dropCommas (dropComments text))

end Deadwood.Json
