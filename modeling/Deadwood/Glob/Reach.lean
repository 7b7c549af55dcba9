/-!
# Matching by suffixes

Whether a pattern matches a text is found for all suffixes of the text at once, from the end of the
pattern to its beginning. Every part of the pattern is looked at once for every suffix, so a pattern
with many stars takes no longer than one with few.

`Reach.of P cs` lists what a predicate says of every suffix of `cs`. `after` and `afterMany` turn
such a list into the list of another predicate, which `of_after` and `of_afterMany` state.
-/

set_option autoImplicit false

namespace Deadwood.Glob

/-- An answer for every suffix of a text, from the whole text down to the empty one. -/
abbrev Reach := List Bool

namespace Reach

/-- What a predicate says of every suffix. -/
def of (P : List Char → Bool) : List Char → Reach
  | [] => [P []]
  | c :: cs => P (c :: cs) :: of P cs

/-- The answer for the whole text. -/
def first (reach : Reach) : Bool := reach.headD false

@[simp]
theorem first_of (P : List Char → Bool) (cs : List Char) : (of P cs).first = P cs := by
  cases cs <;> rfl

/-- Both answers are taken together: one of them is enough. -/
def either (a b : Reach) : Reach := List.zipWith or a b

theorem of_either (P Q : List Char → Bool) (cs : List Char) :
    either (of P cs) (of Q cs) = of (fun rest => P rest || Q rest) cs := by
  induction cs with
  | nil => rfl
  | cons c cs ih => exact congrArg (_ :: ·) ih

/-- Both answers are taken together: both are needed. -/
def both (a b : Reach) : Reach := List.zipWith and a b

theorem of_both (P Q : List Char → Bool) (cs : List Char) :
    both (of P cs) (of Q cs) = of (fun rest => P rest && Q rest) cs := by
  induction cs with
  | nil => rfl
  | cons c cs ih => exact congrArg (_ :: ·) ih

/-! ## One character -/

/-- What is reached after one character with `p`. -/
def after (p : Char → Bool) : List Char → Reach → Reach
  | c :: cs, _ :: later => (p c && first later) :: after p cs later
  | _, _ => [false]

/-- The predicate holds after one character with `p`. -/
def afterOne (p : Char → Bool) (P : List Char → Bool) : List Char → Bool
  | [] => false
  | c :: cs => p c && P cs

theorem of_after (p : Char → Bool) (P : List Char → Bool) (cs : List Char) :
    after p cs (of P cs) = of (afterOne p P) cs := by
  induction cs with
  | nil => rfl
  | cons c cs ih => simp only [of, after, first_of, ih, afterOne]

/-! ## Any number of characters -/

/-- What is reached after any number of characters with `p`. -/
def afterMany (p : Char → Bool) : List Char → Reach → Reach
  | c :: cs, here :: later =>
    let rest := afterMany p cs later
    (here || (p c && first rest)) :: rest
  | _, reach => [first reach]

/-- The predicate holds after none, one or more characters with `p`. -/
def afterSome (p : Char → Bool) (P : List Char → Bool) : List Char → Bool
  | [] => P []
  | c :: cs => P (c :: cs) || (p c && afterSome p P cs)

theorem of_afterMany (p : Char → Bool) (P : List Char → Bool) (cs : List Char) :
    afterMany p cs (of P cs) = of (afterSome p P) cs := by
  induction cs with
  | nil => rfl
  | cons c cs ih => simp only [of, afterMany, ih, first_of, afterSome]

end Reach

end Deadwood.Glob
