import Deadwood.Glob.CharSet
import Deadwood.Glob.Reach
import Deadwood.Text.Quoted

/-!
# Ignore patterns

A line of an ignore file is a pattern for paths. A pattern with a slash at its beginning or inside
is matched from the root, any other in every directory; two stars stand for any number of
directories, and a slash at the end asks for a directory. A path matches as soon as a directory on
its way does. An exclamation mark turns a pattern around, and of several patterns the last one that
matches decides.
-/

set_option autoImplicit false

namespace Deadwood.Ignore

open Glob

/-- Why a line is no pattern. -/
inductive Error where
  | invalid (line : String)
  /-- The line has a set with a range whose ends are in the wrong order. -/
  | badRange (line : String)
  deriving DecidableEq, Repr

/-- The wording of an error. -/
def Error.message : Error → String
  | .invalid line => "Invalid git pattern: " ++ Text.quoted line
  | .badRange line => "Bad character range in " ++ Text.quoted line

/-- One step through a path. -/
inductive Step where
  | char (c : Char)
  /-- Any character but a slash. -/
  | one
  | set (s : CharSet)
  /-- Any text without slashes. -/
  | run
  /-- A whole segment. -/
  | segment
  /-- Any directories, from the root. -/
  | leading
  /-- Any directories, after a directory. -/
  | inner
  | slash
  /-- A slash, or the end of the path; a line end right before the end does not count. -/
  | edge
  deriving DecidableEq, Repr

/-- What a pattern asks of a path. -/
inductive Rule where
  /-- Nothing but that the path is more than line ends. -/
  | anything
  /-- That the path has a directory. -/
  | nested
  /-- That the path begins with these steps. -/
  | steps (steps : List Step)
  deriving DecidableEq, Repr

/-- A pattern. -/
structure Pattern where
  /-- A path that matches is taken back in. -/
  negated : Bool
  rule : Rule
  deriving DecidableEq, Repr

/-! ## Reading a pattern -/

/-- Why a segment is no pattern. -/
inductive Flaw where
  /-- A set has no closing bracket; the line is passed over. -/
  | openSet
  /-- A backslash has no character after it. -/
  | openEscape
  deriving DecidableEq, Repr

/-- The ranges of a set: a hyphen between two characters makes a range. -/
def ranges : List Char → List (Char × Char)
  | [] => []
  | low :: '-' :: high :: cs => (low, high) :: ranges cs
  | c :: cs => only c :: ranges cs

/-- The mark at the beginning of a set that excludes its characters. -/
def isNegation (c : Char) : Bool := c == '!' || c == '^'

/-- The set with the given inside. -/
def setOf (inside : List Char) : CharSet :=
  if inside.head?.any isNegation then ⟨true, ranges (inside.drop 1)⟩ else ⟨false, ranges inside⟩

/-- The steps through a segment. -/
def segmentSteps : List Char → Except Flaw (List Step)
  | [] => .ok []
  | ['\\'] => .error .openEscape
  | '\\' :: c :: cs => (segmentSteps cs).map (.char c :: ·)
  | '*' :: cs => (segmentSteps cs).map (.run :: ·)
  | '?' :: cs => (segmentSteps cs).map (.one :: ·)
  | '[' :: cs =>
    match _found : bracket? isNegation cs with
    | none => .error .openSet
    | some (inside, rest) => (segmentSteps rest).map (.set (setOf inside) :: ·)
  | c :: cs => (segmentSteps cs).map (.char c :: ·)
termination_by cs => cs.length
decreasing_by
  all_goals simp only [List.length_cons]
  case _ => omega
  case _ => omega
  case _ => omega
  case _ => exact Nat.lt_succ_of_lt (length_of_bracket? _found)
  case _ => omega

/-- The segment that stands for any directories. -/
def deep : List Char := ['*', '*']

/-- The segments with two stars in front, if the pattern holds in every directory. A slash at the
beginning ties a pattern to the root. -/
def anchored : List (List Char) → List (List Char)
  | [] :: segments => segments
  | [segment] => if segment = deep then [deep] else [deep, segment]
  | [segment, []] => if segment = deep then [deep, []] else [deep, segment, []]
  | segments => segments

/-- The segments with two stars in place of an empty last one. -/
def closed (segments : List (List Char)) : List (List Char) :=
  if segments.getLast? = some [] then segments.dropLast ++ [deep] else segments

/-- The segments in which no two stars follow two stars. -/
def thinned : List (List Char) → List (List Char)
  | [] => []
  | a :: rest => if a = deep ∧ rest.head? = some deep then thinned rest else a :: thinned rest

/-- The steps through segments; `first` tells that they begin at the root, and `slash` that a slash
must come before the next segment. -/
def stepsOf (first slash : Bool) : List (List Char) → Except Flaw (List Step)
  | [] => .ok []
  | segment :: rest =>
    if segment = deep then
      if first then (stepsOf false false rest).map (.leading :: ·)
      else if rest.isEmpty then .ok [.slash]
      else (stepsOf false true rest).map (.inner :: ·)
    else do
      let here ← if segment = ['*'] then .ok [.segment] else segmentSteps segment
      let more ← stepsOf false true rest
      return (if slash then [.slash] else []) ++ here ++ (if rest.isEmpty then [.edge] else []) ++
        more

/-- What a pattern asks of a path, `directory` telling that it ends in a slash. -/
def ruleOf (directory : Bool) (segments : List (List Char)) : Except Flaw Rule :=
  if segments = [deep] then .ok (if directory then .nested else .anything)
  else if segments = [deep, ['*']] then .ok .anything
  else if segments = [deep, ['*'], deep] then .ok .nested
  else (stepsOf true false segments).map .steps

/-- The step is a set with a range whose ends are in the wrong order. -/
def Step.isBad : Step → Bool
  | .set s => s.ranges.any fun (low, high) => high < low
  | _ => false

/-- The rule has a set with a range whose ends are in the wrong order. -/
def Rule.isBad : Rule → Bool
  | .steps way => way.any Step.isBad
  | _ => false

/-- The line without the blanks at its end; a blank after a backslash stays. -/
def stripped (line : List Char) : List Char :=
  if ['\\', ' '].isSuffixOf line then line else Text.trimEnd line

/-- The pattern of a line. Empty lines, comments, a lone slash and lines with an open set have
none. -/
def parse (line : String) : Except Error (Option Pattern) :=
  let cs := stripped line.toList
  if cs.isEmpty ∨ cs.head? = some '#' ∨ cs = ['/'] then .ok none
  else
    let negated := cs.head? == some '!'
    let segments := (if negated then cs.drop 1 else cs).splitOn '/'
    let directory := segments.getLast? == some []
    let normal := thinned (closed (anchored segments))
    if normal.isEmpty then .error (.invalid line)
    else
      match ruleOf directory normal with
      | .ok rule => if rule.isBad then .error (.badRange line) else .ok (some ⟨negated, rule⟩)
      | .error .openSet => .ok none
      | .error .openEscape => .error (.invalid line)

/-! ## Matching -/

/-- Characters other than a slash. -/
def inSegment (c : Char) : Bool := c != '/'

/-- Characters other than a line end, which no run of directories passes over. -/
def inLine (c : Char) : Bool := c != '\n'

/-- The path ends here, or after one more line end. -/
def isEnd (cs : List Char) : Bool := cs.isEmpty || cs == ['\n']

/-- The steps lead into the path. -/
def follow : List Step → List Char → Bool
  | [], _ => true
  | .char d :: steps, cs => Reach.afterOne (· == d) (follow steps) cs
  | .one :: steps, cs => Reach.afterOne inSegment (follow steps) cs
  | .set s :: steps, cs => Reach.afterOne s.contains (follow steps) cs
  | .run :: steps, cs => Reach.afterSome inSegment (follow steps) cs
  | .segment :: steps, cs =>
    Reach.afterOne inSegment (Reach.afterSome inSegment (follow steps)) cs
  | .leading :: steps, cs =>
    follow steps cs ||
      Reach.afterOne inLine (Reach.afterSome inLine (Reach.afterOne (· == '/') (follow steps))) cs
  | .inner :: steps, cs =>
    follow steps cs ||
      Reach.afterOne (· == '/') (Reach.afterOne inLine (Reach.afterSome inLine (follow steps))) cs
  | .slash :: steps, cs => Reach.afterOne (· == '/') (follow steps) cs
  | .edge :: steps, cs =>
    (isEnd cs && follow steps cs) || Reach.afterOne (· == '/') (follow steps) cs

/-- From which suffixes of the path the steps lead on. -/
def reach : List Step → List Char → Reach
  | [], cs => Reach.of (fun _ => true) cs
  | step :: steps, cs =>
    let later := reach steps cs
    match step with
    | .char d => Reach.after (· == d) cs later
    | .one => Reach.after inSegment cs later
    | .set s => Reach.after s.contains cs later
    | .run => Reach.afterMany inSegment cs later
    | .segment => Reach.after inSegment cs (Reach.afterMany inSegment cs later)
    | .leading =>
      Reach.either later
        (Reach.after inLine cs (Reach.afterMany inLine cs (Reach.after (· == '/') cs later)))
    | .inner =>
      Reach.either later
        (Reach.after (· == '/') cs (Reach.after inLine cs (Reach.afterMany inLine cs later)))
    | .slash => Reach.after (· == '/') cs later
    | .edge =>
      Reach.either (Reach.both (Reach.of isEnd cs) later) (Reach.after (· == '/') cs later)

theorem reach_eq (steps : List Step) (cs : List Char) :
    reach steps cs = Reach.of (follow steps) cs := by
  induction steps with
  | nil => rfl
  | cons step steps ih =>
    cases step <;>
      simp only [reach, ih, Reach.of_after, Reach.of_afterMany, Reach.of_either, Reach.of_both] <;>
      rfl

/-- The pattern's rule holds of a path. -/
def Rule.holds : Rule → List Char → Bool
  | .anything, cs => cs.any inLine
  | .nested, cs => cs.contains '/'
  | .steps way, cs => (reach way cs).first

/-- The path without one slash, or one `./`, at its beginning. -/
def relative : List Char → List Char
  | '/' :: cs => cs
  | '.' :: '/' :: cs => cs
  | cs => cs

/-- The last pattern that matches a path takes it out. -/
def excludes (patterns : List Pattern) (path : String) : Bool :=
  match patterns.reverse.find? (·.rule.holds (relative path.toList)) with
  | some pattern => !pattern.negated
  | none => false

end Deadwood.Ignore
