import Deadwood.Console.Emoji.Table

/-!
# Symbols by name

A text may ask for a symbol by its name between colons; case does not matter. An ending of the name
says whether the symbol is to look like a letter or like a picture. What stands between two colons
without being a name stays as it is, and neither of the two colons begins or ends another name.
-/

set_option autoImplicit false

namespace Deadwood.Console.Emoji

open Text

/-- The inside of a code, which holds neither a blank nor a colon, and what follows the code. -/
def code? : List Char → Option (List Char × List Char)
  | ':' :: rest =>
    let inside := rest.takeWhile fun c => c != ':' && !isBlank c
    match rest.drop inside.length with
    | ':' :: after => some (inside, after)
    | _ => none
  | _ => none

/-- Nothing is lost where a code is found. -/
theorem eq_of_code? {cs inside after : List Char} (found : code? cs = some (inside, after)) :
    cs = ':' :: inside ++ ':' :: after := by
  unfold code? at found
  split at found
  · rename_i rest
    simp only at found
    split at found
    · rename_i closed
      cases found
      obtain ⟨tail, eq⟩ := List.takeWhile_prefix (l := rest) fun c => c != ':' && !isBlank c
      have : rest.drop (rest.takeWhile fun c => c != ':' && !isBlank c).length = tail := by
        conv => lhs; arg 2; rw [← eq]
        simp
      rw [List.cons_append, ← closed, this, eq]
    · cases found
  · cases found

theorem length_of_code? {cs inside after : List Char} (found : code? cs = some (inside, after)) :
    after.length < cs.length := by
  have := congrArg List.length (eq_of_code? found)
  simp only [List.length_append, List.length_cons] at this
  omega

/-- The endings of a name that choose a look, each with the mark that follows the symbol. -/
def looks : List (List Char × Char) :=
  [("-text".toList, '\ufe0e'), ("-emoji".toList, '\ufe0f')]

/-- The symbol with a name, in small letters. -/
def named? (name : List Char) : Option (List Char) := table.lookup (smallText name)

/-- The symbol that the inside of a code asks for. -/
def symbol? (inside : List Char) : Option (List Char) :=
  match looks.find? fun (ending, _) => ending.isSuffixOf inside with
  | some (ending, mark) =>
    (named? (inside.take (inside.length - ending.length))).map (· ++ [mark])
  | none => named? inside

/-- A text with symbols in place of their codes. -/
def expand (cs : List Char) : List Char :=
  match _found : code? cs with
  | some (inside, after) => (symbol? inside).getD (':' :: inside ++ [':']) ++ expand after
  | none =>
    match cs with
    | [] => []
    | c :: cs => c :: expand cs
termination_by cs.length
decreasing_by
  · exact length_of_code? _found
  · simp

end Deadwood.Console.Emoji
