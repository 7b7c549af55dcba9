import Deadwood.Console.Emoji.Basic
import Deadwood.Console.Literal
import Deadwood.Console.Style

/-!
# Markup

Text for the console may hold tags in brackets. A tag opens a style until a tag with a slash closes
it, by name or, without a name, the style that was opened last. A name that begins with an at sign
is that of a handler, and what the tag says after an equals sign are its arguments. A backslash
before a tag makes it plain text. A bracket that does not begin a tag is plain text as well. Plain
text may ask for symbols by their names.
-/

set_option autoImplicit false

namespace Deadwood.Console.Markup

open Text

/-- Why markup cannot be shown. -/
inductive Error where
  /-- A tag closes a style that is not open. -/
  | unopened (tag : String)
  /-- The arguments of a handler are no literal. -/
  | arguments (text : String)
  /-- A part of a colour is no number. -/
  | badShare (share : BadShare)
  deriving DecidableEq, Repr

/-- The wording of an error. -/
def Error.message : Error → String
  | .unopened tag => "closing tag '[" ++ tag ++ "]' doesn't match any open tag"
  | .arguments text => "error parsing " ++ quoted text
  | .badShare share =>
    "invalid literal for int() with base 10: " ++ quoted (String.ofList share.part)

/-- What stands in a tag: a name, and what follows the first equals sign. -/
structure Tag where
  name : List Char
  parameters : List Char := []
  deriving DecidableEq, Repr

/-- The tag with an inside. -/
def Tag.ofInside (inside : List Char) : Tag :=
  { name := before '=' inside, parameters := (inside.dropWhile (· != '=')).drop 1 }

/-- A part of a text with markup. -/
inductive Piece where
  | text (text : List Char)
  | tag (tag : Tag)
  deriving DecidableEq, Repr

/-- A tag may begin with the character. -/
def isTagStart (c : Char) : Bool := ('a' ≤ c && c ≤ 'z') || c == '#' || c == '/' || c == '@'

/-- The inside of a tag, which holds no opening bracket, and what follows the tag. -/
def bracket? : List Char → Option (List Char × List Char)
  | '[' :: c :: rest =>
    if isTagStart c then
      let inside := rest.takeWhile fun d => d != ']' && d != '['
      match rest.drop inside.length with
      | ']' :: after => some (c :: inside, after)
      | _ => none
    else none
  | _ => none

theorem length_of_bracket? {cs inside after : List Char}
    (found : bracket? cs = some (inside, after)) : after.length < cs.length := by
  unfold bracket? at found
  split at found
  · rename_i c rest
    split at found
    · simp only at found
      split at found
      · rename_i closed
        cases found
        have := congrArg List.length closed
        simp only [List.length_drop, List.length_cons] at this ⊢
        omega
      · cases found
    · cases found
  · cases found

/-- The backslashes that a text begins with, and what follows them. -/
def backslashes (cs : List Char) : Nat × List Char :=
  let n := (cs.takeWhile (· == '\\')).length
  (n, cs.drop n)

theorem length_backslashes (cs : List Char) :
    (backslashes cs).1 + (backslashes cs).2.length = cs.length := by
  have := (List.takeWhile_sublist (l := cs) fun c => c == '\\').length_le
  simp only [backslashes, List.length_drop]
  omega

/-! ## Reading -/

/-- What a tag stands for after some backslashes: each pair of them is one backslash, and an odd one
makes the tag plain text. -/
def tagged (slashes : Nat) (inside : List Char) : List Piece :=
  (if slashes < 2 then [] else [.text (List.replicate (slashes / 2) '\\')]) ++
    [if slashes % 2 = 1 then .text ('[' :: inside ++ [']'])
      else .tag (.ofInside inside)]

/-- The pieces of a text, after the plain text `before`. -/
def split (before : List Char) (cs : List Char) : List Piece :=
  match _found : bracket? (backslashes cs).2 with
  | some (inside, after) =>
    .text before :: tagged (backslashes cs).1 inside ++ split [] after
  | none =>
    match cs with
    | [] => [.text before]
    | c :: cs => split (before ++ [c]) cs
termination_by cs.length
decreasing_by
  · have := length_of_bracket? _found
    have := length_backslashes cs
    omega
  · simp

/-- A text in which a backslash before a bracket is dropped. -/
def unescape : List Char → List Char
  | '\\' :: '[' :: cs => '[' :: unescape cs
  | c :: cs => c :: unescape cs
  | [] => []

/-- The normal form of the name of a style. -/
def styleName (name : List Char) : Except Error (List Char) :=
  (Style.normal name).mapError .badShare

/-- The arguments among the parameters of a handler: those in brackets after a name, or else the
parameters as they are. A name alone has no arguments. -/
def arguments (parameters : List Char) : List Char :=
  let text := trim parameters
  match text.dropWhile fun c => isWord c || c == '.' with
  | [] => "()".toList
  | '(' :: rest =>
    if rest.getLast? == some ')' && !rest.contains '\n' then '(' :: rest else text
  | _ => text

/-- The tag may be closed: if it names a handler, its arguments are a literal. -/
def close (tag : Tag) : Except Error Unit :=
  if tag.name.head? == some '@' && !tag.parameters.isEmpty &&
      !Literal.isLiteral (arguments tag.parameters) then
    .error (.arguments (String.ofList (trim tag.parameters)))
  else .ok ()

/-- The open tags after a tag, the last one first. -/
def follow (tags : List Tag) (tag : Tag) : Except Error (List Tag) :=
  match tag.name with
  | '/' :: name => do
    let closed ← if (trim name).isEmpty then pure tags.head? else do
      let style ← styleName (trim name)
      pure (tags.find? (·.name = style))
    match closed with
    | none => throw (.unopened (String.ofList ('/' :: name)))
    | some closed => do
      close closed
      return tags.eraseP (·.name = closed.name)
  | name => do return { tag with name := ← styleName name } :: tags

/-- The plain text of pieces, where `tags` are open. -/
def plainText (tags : List Tag) : List Piece → Except Error (List Char)
  | [] => .ok []
  | .text cs :: pieces => do return Emoji.expand (unescape cs) ++ (← plainText tags pieces)
  | .tag tag :: pieces => do plainText (← follow tags tag) pieces

/-- The text that markup shows, without its styles. -/
def render (markup : List Char) : Except Error (List Char) := plainText [] (split [] markup)

/-! ## Writing -/

/-- A text with a backslash before everything that could be a tag. -/
def escapeTags (cs : List Char) : List Char :=
  match _found : bracket? (backslashes cs).2 with
  | some (inside, after) =>
    List.replicate (2 * (backslashes cs).1 + 1) '\\' ++ '[' :: inside ++ ']' :: escapeTags after
  | none =>
    match cs with
    | [] => []
    | c :: cs => c :: escapeTags cs
termination_by cs.length
decreasing_by
  · have := length_of_bracket? _found
    have := length_backslashes cs
    omega
  · simp

/-- Markup that shows a text as it is. A single backslash at the end is written twice, so that it
does not touch a tag that follows. -/
def escape (text : String) : String :=
  let escaped := escapeTags text.toList
  match escaped.reverse with
  | '\\' :: '\\' :: _ => String.ofList escaped
  | '\\' :: _ => String.ofList (escaped ++ ['\\'])
  | _ => String.ofList escaped

end Deadwood.Console.Markup
