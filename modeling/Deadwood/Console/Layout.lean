import Deadwood.Console.Markup
import Deadwood.Console.Wrap
import Deadwood.Outline.Basic

/-!
# Console output

What is shown on the console: lines of markup, rows of cells under a title, and outlines. Styles are
not shown. What is wider than the console is wrapped.
-/

set_option autoImplicit false

namespace Deadwood.Console

open Outline

/-- The text that is shown for markup. -/
def shown (markup : String) : Except Markup.Error (List Char) := do
  return printable (← Markup.render markup.toList)

/-- The number of cells in a line of the console. -/
def width : Nat := 1000

/-- Lines, each with its end. -/
def ended (lines : List (List Char)) : List Char := lines.flatMap (· ++ ['\n'])

/-- A line of markup. -/
def line (markup : String) : Except Markup.Error (List Char) := do
  return ended (wrap .fold width (← shown markup))

/-- The first lines of cells side by side. -/
def sideBySide (cells : List (List (List Char))) : List Char :=
  cells.flatMap fun lines => "  ".toList ++ lines.headD []

/-- The lines of cells side by side, as many as the highest cell has, which are at most `height`. -/
def rowLines : (height : Nat) → (cells : List (List (List Char))) → List Char
  | 0, _ => []
  | height + 1, cells =>
    if cells.all List.isEmpty then []
    else sideBySide cells ++ '\n' :: rowLines height (cells.map List.tail)

/-- The cells that the widest line of some texts takes. -/
def widest (texts : List (List Char)) : Nat :=
  ((texts.flatMap Text.lines).map cells).foldl max 0

/-- The cells that the first column may take beside `others`. Every column has a blank on either
side and a rule before it, and one more rule ends the row. -/
def roomBeside (others : List Nat) : Nat :=
  width - others.foldl (· + ·) 0 - 3 * (others.length + 1) - 1

/-- Rows of cells of markup. The first column gives way where the rows are too wide. -/
def table (cells : List (List String)) : Except Markup.Error (List Char) := do
  let texts ← cells.mapM (·.mapM shown)
  let columns := (texts.map List.length).foldl max 0
  let others := (List.range (columns - 1)).map fun n => widest (texts.filterMap (·[n + 1]?))
  let first := min (widest (texts.filterMap List.head?)) (roomBeside others)
  return texts.flatMap fun
    | [] => []
    | text :: texts =>
      let row := wrap .cut first text :: texts.map linesOf
      rowLines row.flatten.length row

/-- Rows of cells under a title. -/
def rows (title : String) (cells : List (List String)) : Except Markup.Error (List Char) := do
  return (← line title) ++ (← table cells)

/-- The lines of a label, each with an indent. Every level takes four cells, and a label without a
cell is not shown. -/
def indented (depth : Nat) (label : List Char) : List Char :=
  if width ≤ 4 * depth then []
  else ended ((wrap .fold (width - 4 * depth) label).map (List.replicate (2 * depth) ' ' ++ ·))

mutual

/-- An outline, with what is below a label indented under it. -/
def treeText (depth : Nat) : Tree → List Char
  | .node label children => indented depth label.text ++ treesText (depth + 1) children

/-- Outlines one after the other. -/
def treesText (depth : Nat) : List Tree → List Char
  | [] => []
  | tree :: trees => treeText depth tree ++ treesText depth trees

end

/-- An outline under its title, between empty lines. -/
def outline (tree : Titled) : Except Markup.Error (List Char) := do
  return (← line tree.title) ++ treesText 1 tree.children ++ ['\n']

end Deadwood.Console
