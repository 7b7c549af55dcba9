import Deadwood.Text.Blank

/-!
# Sets of characters

A set in brackets lists ranges of characters, or excludes them.
-/

set_option autoImplicit false

namespace Deadwood.Glob

/-- The characters in some ranges, or all others. -/
structure CharSet where
  negated : Bool
  ranges : List (Char × Char)
  deriving DecidableEq, Repr

/-- The character is in the set. -/
def CharSet.contains (set : CharSet) (c : Char) : Bool :=
  set.negated != set.ranges.any fun (low, high) => low ≤ c && c ≤ high

/-- The range of one character. -/
def only (c : Char) : Char × Char := (c, c)

/-- How many characters at the beginning of a set belong to it whatever they are: the mark of
negation, and a closing bracket right at the beginning or after the mark. -/
def bound (isNegation : Char → Bool) (cs : List Char) : Nat :=
  let mark := if cs.head?.any isNegation then 1 else 0
  if (cs.drop mark).head? = some ']' then mark + 1 else mark

/-- The inside of a set up to its closing bracket, and the text after it. -/
def bracket? (isNegation : Char → Bool) (cs : List Char) : Option (List Char × List Char) :=
  (Text.cutAt [']'] (cs.drop (bound isNegation cs))).map fun (inside, rest) =>
    (cs.take (bound isNegation cs) ++ inside, rest)

theorem length_of_bracket? {isNegation : Char → Bool} {cs inside rest : List Char}
    (h : bracket? isNegation cs = some (inside, rest)) : rest.length < cs.length := by
  obtain ⟨⟨before, after⟩, cut, eq⟩ := Option.map_eq_some_iff.1 h
  obtain ⟨-, rfl⟩ := Prod.mk.inj eq
  have length := congrArg List.length (Text.eq_of_cutAt cut)
  simp only [List.length_drop, List.length_append, List.length_cons, List.length_nil] at length
  omega

end Deadwood.Glob
