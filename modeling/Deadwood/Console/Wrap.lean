import Deadwood.Console.Cells
import Deadwood.Text.Blank

/-!
# Wrapping

A text that is too wide for its place is broken into lines, at blanks where that is possible. A word
that is too wide for a line of its own is either folded, which fills as many lines as it needs, or
cut, which shows that something is missing. Nothing is lost where a line is broken; only blanks that
stick out at the end of a line are dropped.
-/

set_option autoImplicit false

namespace Deadwood.Console

open Text

/-- What becomes of a word that is too wide for a line. -/
inductive Overflow where
  | fold
  | cut
  deriving DecidableEq, Repr

/-! ## Parts of a line -/

/-- The words of a text, each with the blanks after it; the first one has also the blanks before it.
A text of blanks is one word. -/
def spacedWords (cs : List Char) : List (List Char) :=
  match cs with
  | [] => []
  | c :: rest =>
    let core := (c :: rest).dropWhile isBlank
    let after := core.dropWhile (!isBlank ·)
    ((c :: rest).takeWhile isBlank ++ core.takeWhile (!isBlank ·) ++ after.takeWhile isBlank) ::
      spacedWords (after.dropWhile isBlank)
termination_by cs.length
decreasing_by
  have inner := (List.dropWhile_suffix (l := rest) isBlank).length_le
  have word := (List.dropWhile_suffix (l := rest) (!isBlank ·)).length_le
  have whole (ds : List Char) := (List.dropWhile_suffix (l := ds) (!isBlank ·)).length_le
  have margin (ds : List Char) := (List.dropWhile_suffix (l := ds) isBlank).length_le
  refine Nat.lt_of_le_of_lt (margin _) ?_
  by_cases blank : isBlank c
  · refine Nat.lt_of_le_of_lt (whole _) ?_
    simpa [core, blank] using Nat.lt_succ_of_le inner
  · simpa [after, core, blank] using Nat.lt_succ_of_le word

/-- Nothing is lost where a text is split into words. -/
theorem flatten_spacedWords (cs : List Char) : (spacedWords cs).flatten = cs := by
  fun_induction spacedWords cs with
  | case1 => rfl
  | case2 c rest core after ih =>
    simp only [List.flatten_cons, ih, List.append_assoc, after, core,
      List.takeWhile_append_dropWhile]

/-- The parts of a word that fill lines of `width` cells; `used` cells of the first line are
taken. -/
def chop (width used : Nat) : List Char → List (List Char)
  | [] => [[]]
  | c :: cs =>
    let fits := used + cellsOf c ≤ width
    match chop width (if fits then used + cellsOf c else cellsOf c) cs with
    | [] => [[c]]
    | part :: parts => if fits then (c :: part) :: parts else [] :: (c :: part) :: parts

/-- Nothing is lost where a word is chopped. -/
theorem flatten_chop (width used : Nat) (cs : List Char) : (chop width used cs).flatten = cs := by
  induction cs generalizing used with
  | nil => rfl
  | cons c cs ih =>
    have flat := ih (if used + cellsOf c ≤ width then used + cellsOf c else cellsOf c)
    unfold chop
    simp only
    split
    · rename_i eq
      rw [eq] at flat
      simp [← flat]
    · rename_i part parts eq
      rw [eq] at flat
      split <;> simp [← flat]

/-! ## Lines -/

/-- A text while it is broken: the lines that are done, the last one first, and the line that is
being filled. -/
structure Breaking where
  done : List (List Char) := []
  current : List Char := []
  /-- The cells that the current line takes. -/
  used : Nat := 0
  deriving Repr

namespace Breaking

/-- The lines so far. -/
def lines (state : Breaking) : List (List Char) := (state.current :: state.done).reverse

/-- Begin a line with a text, unless the current line is still empty. -/
def start (state : Breaking) (text : List Char) : Breaking :=
  { done := if state.current.isEmpty then state.done else state.current :: state.done
    current := text
    used := cells text }

/-- Add a word to a text that is broken into lines of `width` cells. -/
def add (overflow : Overflow) (width : Nat) (state : Breaking) (word : List Char) : Breaking :=
  let needed := cells (trimEnd word)
  if state.used + needed ≤ width then
    { state with current := state.current ++ word, used := state.used + cells word }
  else if width < needed && overflow = .fold then
    (chop width 0 word).foldl start state
  else state.start word

theorem flatten_start (state : Breaking) (text : List Char) :
    (state.start text).lines.flatten = state.lines.flatten ++ text := by
  unfold start lines
  by_cases empty : state.current = [] <;> simp [empty]

theorem flatten_foldl_start (parts : List (List Char)) (state : Breaking) :
    (parts.foldl start state).lines.flatten = state.lines.flatten ++ parts.flatten := by
  induction parts generalizing state with
  | nil => simp
  | cons part parts ih => simp [ih, flatten_start]

theorem flatten_add (overflow : Overflow) (width : Nat) (state : Breaking) (word : List Char) :
    (state.add overflow width word).lines.flatten = state.lines.flatten ++ word := by
  unfold add
  simp only
  split
  · simp [lines]
  · split
    · rw [flatten_foldl_start, flatten_chop]
    · exact flatten_start state word

end Breaking

/-- A line of text broken into lines of `width` cells. -/
def breakLine (overflow : Overflow) (width : Nat) (cs : List Char) : List (List Char) :=
  ((spacedWords cs).foldl (Breaking.add overflow width) {}).lines

/-- Nothing is lost where a line is broken. -/
theorem flatten_breakLine (overflow : Overflow) (width : Nat) (cs : List Char) :
    (breakLine overflow width cs).flatten = cs := by
  have adds (words : List (List Char)) (state : Breaking) :
      (words.foldl (Breaking.add overflow width) state).lines.flatten =
        state.lines.flatten ++ words.flatten := by
    induction words generalizing state with
    | nil => simp
    | cons word words ih => simp [ih, Breaking.flatten_add]
  rw [breakLine, adds, flatten_spacedWords]
  rfl

/-! ## The ends of lines -/

/-- A line without the blanks at its end that go beyond `width` characters. -/
def dropOverhang (width : Nat) (cs : List Char) : List Char :=
  let blanks := cs.length - (trimEnd cs).length
  cs.take (cs.length - min blanks (cs.length - width))

/-- The beginning of a text that takes `room` cells; a space stands for half a character. -/
def fill : (room : Nat) → List Char → List Char
  | 0, _ | _, [] => []
  | room + 1, c :: cs =>
    if cellsOf c ≤ room + 1 then c :: fill (room + 1 - cellsOf c) cs else [' ']
termination_by _ cs => cs.length

/-- A line that is not wider than `width`. -/
def fitted (overflow : Overflow) (width : Nat) (cs : List Char) : List Char :=
  if cells cs ≤ width then cs
  else match overflow with
    | .fold => fill width cs
    | .cut => fill (width - 1) cs ++ ['…']

/-- A line with spaces in place of tabs, which reach to the next multiple of eight cells. -/
def withoutTabs (used : Nat) : List Char → List Char
  | [] => []
  | c :: cs =>
    if c = '\t' then
      let next := (used / 8 + 1) * 8
      List.replicate (next - used) ' ' ++ withoutTabs next cs
    else c :: withoutTabs (used + cellsOf c) cs

/-- The lines of a text. -/
def linesOf : List Char → List (List Char)
  | [] => [[]]
  | '\n' :: cs => [] :: linesOf cs
  | c :: cs =>
    match linesOf cs with
    | [] => [[c]]
    | first :: rest => (c :: first) :: rest

/-- A text in lines of at most `width` cells. -/
def wrap (overflow : Overflow) (width : Nat) (text : List Char) : List (List Char) :=
  (linesOf text).flatMap fun line =>
    (breakLine overflow width (withoutTabs 0 line)).map fun part =>
      fitted overflow width (dropOverhang width part)

end Deadwood.Console
