import Deadwood.Number.Digits
import Deadwood.Text.Case

/-!
# Styles

A style is described in words: attributes, which may be taken back, a colour, a background after
`on`, and an address after `link`. Descriptions of one style in different words have one normal
form, and a tag closes the style with its own normal form. What describes no style is a name, and
stands for itself in small letters.
-/

set_option autoImplicit false

namespace Deadwood.Console

open Text

/-! ## Words -/

/-- The attributes of a text, in the order in which a normal form names them, each with its short
name if it has one. -/
def attributes : List (String × Option String) :=
  [("bold", some "b"), ("dim", some "d"), ("italic", some "i"), ("underline", some "u"),
   ("blink", none), ("blink2", none), ("reverse", some "r"), ("conceal", some "c"),
   ("strike", some "s"), ("underline2", some "uu"), ("frame", none), ("encircle", none),
   ("overline", some "o")]

/-- The attribute that a word names. -/
def attribute? (word : List Char) : Option String :=
  let word := String.ofList word
  (attributes.find? fun (name, short) => name == word || short == some word).map Prod.fst

/-- The colours with a name. -/
def colours : List String :=
  ["black", "red", "green", "yellow", "blue", "magenta", "cyan", "white", "bright_black",
   "bright_red", "bright_green", "bright_yellow", "bright_blue", "bright_magenta", "bright_cyan",
   "bright_white", "grey0", "gray0", "navy_blue", "dark_blue", "blue3", "blue1", "dark_green",
   "deep_sky_blue4", "dodger_blue3", "dodger_blue2", "green4", "spring_green4", "turquoise4",
   "deep_sky_blue3", "dodger_blue1", "green3", "spring_green3", "dark_cyan", "light_sea_green",
   "deep_sky_blue2", "deep_sky_blue1", "spring_green2", "cyan3", "dark_turquoise", "turquoise2",
   "green1", "spring_green1", "medium_spring_green", "cyan2", "cyan1", "dark_red", "deep_pink4",
   "purple4", "purple3", "blue_violet", "orange4", "grey37", "gray37", "medium_purple4",
   "slate_blue3", "royal_blue1", "chartreuse4", "dark_sea_green4", "pale_turquoise4", "steel_blue",
   "steel_blue3", "cornflower_blue", "chartreuse3", "cadet_blue", "sky_blue3", "steel_blue1",
   "pale_green3", "sea_green3", "aquamarine3", "medium_turquoise", "chartreuse2", "sea_green2",
   "sea_green1", "aquamarine1", "dark_slate_gray2", "dark_magenta", "dark_violet", "purple",
   "light_pink4", "plum4", "medium_purple3", "slate_blue1", "yellow4", "wheat4", "grey53", "gray53",
   "light_slate_grey", "light_slate_gray", "medium_purple", "light_slate_blue", "dark_olive_green3",
   "dark_sea_green", "light_sky_blue3", "sky_blue2", "dark_sea_green3", "dark_slate_gray3",
   "sky_blue1", "chartreuse1", "light_green", "pale_green1", "dark_slate_gray1", "red3",
   "medium_violet_red", "magenta3", "dark_orange3", "indian_red", "hot_pink3", "medium_orchid3",
   "medium_orchid", "medium_purple2", "dark_goldenrod", "light_salmon3", "rosy_brown", "grey63",
   "gray63", "medium_purple1", "gold3", "dark_khaki", "navajo_white3", "grey69", "gray69",
   "light_steel_blue3", "light_steel_blue", "yellow3", "dark_sea_green2", "light_cyan3",
   "light_sky_blue1", "green_yellow", "dark_olive_green2", "dark_sea_green1", "pale_turquoise1",
   "deep_pink3", "magenta2", "hot_pink2", "orchid", "medium_orchid1", "orange3", "light_pink3",
   "pink3", "plum3", "violet", "light_goldenrod3", "tan", "misty_rose3", "thistle3", "plum2",
   "khaki3", "light_goldenrod2", "light_yellow3", "grey84", "gray84", "light_steel_blue1",
   "yellow2", "dark_olive_green1", "honeydew2", "light_cyan1", "red1", "deep_pink2", "deep_pink1",
   "magenta1", "orange_red1", "indian_red1", "hot_pink", "dark_orange", "salmon1", "light_coral",
   "pale_violet_red1", "orchid2", "orchid1", "orange1", "sandy_brown", "light_salmon1",
   "light_pink1", "pink1", "plum1", "gold1", "navajo_white1", "misty_rose1", "thistle1", "yellow1",
   "light_goldenrod1", "khaki1", "wheat1", "cornsilk1", "grey100", "gray100", "grey3", "gray3",
   "grey7", "gray7", "grey11", "gray11", "grey15", "gray15", "grey19", "gray19", "grey23", "gray23",
   "grey27", "gray27", "grey30", "gray30", "grey35", "gray35", "grey39", "gray39", "grey42",
   "gray42", "grey46", "gray46", "grey50", "gray50", "grey54", "gray54", "grey58", "gray58",
   "grey62", "gray62", "grey66", "gray66", "grey70", "gray70", "grey74", "gray74", "grey78",
   "gray78", "grey82", "gray82", "grey85", "gray85", "grey89", "gray89", "grey93", "gray93"]

/-- A part of a colour that is no number. -/
structure BadShare where
  part : List Char
  deriving DecidableEq, Repr

/-- A text of six hexadecimal digits, in small letters. -/
def isHexColour (cs : List Char) : Bool :=
  cs.length == 6 && cs.all fun c => c.isDigit || ('a' ≤ c && c ≤ 'f')

/-- The inside of brackets after a name. -/
def argument? (name : String) (word : List Char) : Option (List Char) :=
  if (name.toList ++ ['(']).isPrefixOf word && word.getLast? == some ')' then
    some (word.drop (name.length + 1)).dropLast
  else none

/-- The parts of a text between commas. -/
def commaParts (cs : List Char) : List (List Char) :=
  cs.foldr (fun c parts =>
    match parts with
    | [] => [[c]]
    | part :: parts => if c = ',' then [] :: part :: parts else (c :: part) :: parts) [[]]

/-- A share of a colour is within its bounds. -/
def isShare (part : List Char) : Except BadShare Bool :=
  match Number.loose part with
  | .ok n => .ok (n ≤ 255)
  | .error _ => .error { part }

/-- Three numbers describe a colour. -/
def isMixture (inside : List Char) : Except BadShare Bool :=
  if inside.isEmpty || !inside.all fun c => (digitValue? c).isSome || c == ',' then .ok false
  else match commaParts inside with
    | [red, green, blue] => do
      let shares ← [red, green, blue].mapM isShare
      return shares.all id
    | _ => .ok false

/-- The word, in small letters, describes a colour: by its name, by its number, or by its shares of
red, green and blue. -/
def isColour (word : List Char) : Except BadShare Bool :=
  if word == "default".toList || colours.contains (String.ofList word) then .ok true
  else match word with
    | '#' :: digits => .ok (isHexColour digits)
    | _ =>
      match argument? "color" word, argument? "rgb" word with
      | some number, _ =>
        .ok (Number.isDigits number && number.length ≤ 3 && Number.ofDigits number ≤ 255)
      | none, some inside => isMixture inside
      | none, none => .ok false

/-! ## Descriptions -/

/-- What a text looks like. -/
structure Style where
  /-- The attributes that are given (`true`) or taken back (`false`). -/
  attributes : List (String × Bool) := []
  colour : Option (List Char) := none
  background : Option (List Char) := none
  link : Option (List Char) := none
  deriving DecidableEq, Repr

namespace Style

/-- The style with an attribute given or taken back. -/
def set (style : Style) (name : String) (given : Bool) : Style :=
  { style with attributes := (name, given) :: style.attributes }

/-- The colour that a word describes. -/
def colour? (word : List Char) : Except BadShare (Option (List Char)) := do
  let word := smallText word
  return if ← isColour word then some word else none

/-- A style with more words of its description, unless a word describes no style. -/
def read? (style : Style) : List (List Char) → Except BadShare (Option Style)
  | [] => .ok (some style)
  | word :: words =>
    let name := String.ofList (smallText word)
    if name = "on" ∨ name = "not" ∨ name = "link" then
      match words with
      | [] => .ok none
      | word :: words =>
        if name = "on" then do
          match ← colour? word with
          | some colour => read? { style with background := some colour } words
          | none => return none
        else if name = "not" then
          match attribute? word with
          | some found => read? (style.set found false) words
          | none => .ok none
        else read? { style with link := some word } words
    else match attribute? name.toList with
      | some found => read? (style.set found true) words
      | none => do
        match ← colour? word with
        | some colour => read? { style with colour := some colour } words
        | none => return none

/-- The words of a style in their normal order. -/
def normalWords (style : Style) : List (List Char) :=
  let attributes := Console.attributes.filterMap fun (name, _) =>
    (style.attributes.lookup name).map fun given =>
      if given then name.toList else "not ".toList ++ name.toList
  attributes ++ style.colour.toList ++
    style.background.toList.map ("on ".toList ++ ·) ++ style.link.toList.map ("link ".toList ++ ·)

/-- The normal form of a style. -/
def normalForm (style : Style) : List Char :=
  match style.normalWords with
  | [] => "none".toList
  | words => [' '].intercalate words

/-- The normal form of a description. What describes no style is a name. -/
def normal (description : List Char) : Except BadShare (List Char) := do
  if trim description == "none".toList then return "none".toList
  else match ← read? {} (words description) with
    | some style => return style.normalForm
    | none => return smallText (trim description)

end Style

end Deadwood.Console
