import Deadwood.Glob.CharSet
import Deadwood.Glob.Reach

/-!
# Glob patterns

The patterns of the allowlist: a star stands for any text, slashes included, a question mark for any
character, and a set in brackets for one of its characters. A pattern must cover the whole path.
`coverage_eq` states that the way in which this is found agrees with what it means.
-/

set_option autoImplicit false

namespace Deadwood.Glob

/-- One part of a pattern. -/
inductive Atom where
  /-- Any text. -/
  | star
  /-- Any character. -/
  | one
  | char (c : Char)
  | set (s : CharSet)
  deriving DecidableEq, Repr

/-! ## Sets

A hyphen between two characters makes a range of them. A set is therefore cut into chunks at its
hyphens; the hyphen at `position` cuts only if a chunk of one character at least stands before it,
of two if the chunk follows another. A range whose ends are in the wrong order is empty, and both
ends are dropped. -/

/-- Cut at the hyphens: `chunk` is the reversed beginning of the current chunk, which must have
`least` characters before a hyphen ends it. -/
def chunksFrom (least : Nat) (chunk : List Char) : List Char → List (List Char)
  | [] => [chunk.reverse]
  | c :: cs =>
    if c = '-' && least ≤ chunk.length then chunk.reverse :: chunksFrom 2 [] cs
    else chunksFrom least (c :: chunk) cs

/-- The chunks of a set. A hyphen at its end belongs to the chunk before it. -/
def chunks (least : Nat) (inside : List Char) : List (List Char) :=
  let all := chunksFrom least [] inside
  match all.reverse with
  | [] :: last :: rest => ((last ++ ['-']) :: rest).reverse
  | _ => all

/-- Join neighbouring chunks whose range is empty, from the last pair on. -/
def joinEmpty : List (List Char) → List (List Char)
  | [] => []
  | a :: rest =>
    match a.getLast?, joinEmpty rest with
    | some low, (high :: tail) :: more =>
      if high < low then (a.dropLast ++ tail) :: more else a :: (high :: tail) :: more
    | _, more => a :: more

/-- The ranges of chunks: one from the end of each chunk to the beginning of the next, and every
other character by itself. -/
def ranges : List (List Char) → List (Char × Char)
  | [] => []
  | [a] => a.map only
  | a :: b :: rest =>
    match a.getLast?, b with
    | some low, high :: tail => a.dropLast.map only ++ (low, high) :: ranges (tail :: rest)
    | _, b => only '-' :: ranges (b :: rest)
termination_by chunks => chunks.length

/-- The set with the given inside. -/
def setOf (inside : List Char) : CharSet :=
  let negated := inside.head? == some '!'
  let joined := joinEmpty (chunks (if negated then 2 else 1) inside)
  match joined with
  | ('!' :: first) :: rest => ⟨true, ranges (first :: rest)⟩
  | joined => ⟨false, ranges joined⟩

/-! ## Patterns -/

/-- The parts of a pattern. An opening bracket without a closing one stands for itself. -/
def parse : List Char → List Atom
  | [] => []
  | '*' :: cs => .star :: parse cs
  | '?' :: cs => .one :: parse cs
  | '[' :: cs =>
    match _found : bracket? (· == '!') cs with
    | some (inside, rest) => .set (setOf inside) :: parse rest
    | none => .char '[' :: parse cs
  | c :: cs => .char c :: parse cs
termination_by cs => cs.length
decreasing_by
  all_goals simp only [List.length_cons]
  case _ => omega
  case _ => omega
  case _ => exact Nat.lt_succ_of_lt (length_of_bracket? _found)
  case _ => omega
  case _ => omega

/-- The parts cover the whole text. -/
def covers : List Atom → List Char → Bool
  | [], cs => cs.isEmpty
  | .star :: atoms, cs => Reach.afterSome (fun _ => true) (covers atoms) cs
  | .one :: atoms, cs => Reach.afterOne (fun _ => true) (covers atoms) cs
  | .char d :: atoms, cs => Reach.afterOne (· == d) (covers atoms) cs
  | .set s :: atoms, cs => Reach.afterOne s.contains (covers atoms) cs

/-- Which suffixes of the text the parts cover. -/
def coverage : List Atom → List Char → Reach
  | [], cs => Reach.of List.isEmpty cs
  | .star :: atoms, cs => Reach.afterMany (fun _ => true) cs (coverage atoms cs)
  | .one :: atoms, cs => Reach.after (fun _ => true) cs (coverage atoms cs)
  | .char d :: atoms, cs => Reach.after (· == d) cs (coverage atoms cs)
  | .set s :: atoms, cs => Reach.after s.contains cs (coverage atoms cs)

theorem coverage_eq (atoms : List Atom) (cs : List Char) :
    coverage atoms cs = Reach.of (covers atoms) cs := by
  induction atoms with
  | nil => rfl
  | cons atom atoms ih =>
    cases atom <;> simp only [coverage, ih, Reach.of_after, Reach.of_afterMany] <;> rfl

/-- The pattern covers the whole text. -/
def isMatch (pattern text : String) : Bool :=
  (coverage (parse pattern.toList) text.toList).first

/-- A pattern matches a text exactly if its parts cover it. -/
theorem isMatch_eq (pattern text : String) :
    isMatch pattern text = covers (parse pattern.toList) text.toList := by
  rw [isMatch, coverage_eq, Reach.first_of]

end Deadwood.Glob
