import Deadwood.Number.Digits

/-!
# Binary floating-point numbers

Numbers with a fraction are held the way the formats that this library reads define them: as the
nearest number with a significand of 53 bits. They are read off decimals in exact arithmetic, a tie
going to the even significand, and written with the fewest digits that read back.
-/

set_option autoImplicit false

namespace Deadwood

/-- A binary floating-point number of 64 bits. -/
inductive Double where
  /-- `significand * 2 ^ exponent` with a sign. The significand is below `2 ^ 53`, and it is at
  least `2 ^ 52` unless the exponent is the least one, -1074. -/
  | finite (negative : Bool) (significand : Nat) (exponent : Int)
  | infinite (negative : Bool)
  | nan
  deriving DecidableEq, Repr

namespace Double

open Number

/-! ## Reading -/

/-- `num / den` rounded to a whole number, a half going to the even neighbour. -/
def roundRatio (num den : Nat) : Nat :=
  let quotient := num / den
  let twice := 2 * (num % den)
  if twice < den then quotient
  else if den < twice then quotient + 1
  else quotient + quotient % 2

/-- `base` to the power `exponent` over one, as numerator and denominator. -/
def power (base : Nat) (exponent : Int) : Nat × Nat :=
  if exponent < 0 then (1, base.pow (-exponent).toNat) else (base.pow exponent.toNat, 1)

/-- The number nearest to `num / den`. -/
def ofRatio (negative : Bool) (num den : Nat) : Double :=
  if num = 0 then .finite negative 0 (-1074)
  else
    -- the ratio lies strictly between `2 ^ (scale - 1)` and `2 ^ (scale + 1)`
    let scale : Int := (Nat.log2 num : Int) - Nat.log2 den
    let (up, down) := power 2 scale
    let exponent := max (if num * down < den * up then scale - 53 else scale - 52) (-1074)
    let (up, down) := power 2 exponent
    let significand := roundRatio (num * down) (den * up)
    let (significand, exponent) :=
      if significand = Nat.pow 2 53 then (Nat.pow 2 52, exponent + 1) else (significand, exponent)
    if 971 < exponent then .infinite negative else .finite negative significand exponent

/-- The number nearest to `digits * 10 ^ exponent`. Decimals far outside the range of the format are
settled without raising ten to their power. -/
def ofDecimal (negative : Bool) (digits : Nat) (exponent : Int) : Double :=
  let size : Int := (Number.digits digits).length + exponent
  if digits = 0 ∨ size < -400 then .finite negative 0 (-1074)
  else if 400 < size then .infinite negative
  else
    let (up, down) := power 10 exponent
    ofRatio negative (digits * up) down

/-! ## Writing -/

/-- The decimal `mantissa * 10 ^ exponent` lies in the interval of numbers that are read as
`significand * 2 ^ exponent₂`; its ends count if the significand is even. All is compared in
quarters of the last binary place, because the interval reaches only half as far down at the least
significand of a binade. -/
def readsBack (significand : Nat) (exponent₂ : Int) (mantissa : Nat) (exponent : Int) : Bool :=
  let (up, down) := power 10 exponent
  let (up₂, down₂) := power 2 (exponent₂ - 2)
  let value := mantissa * up * down₂
  let unit := down * up₂
  let low := 4 * significand - (if significand = Nat.pow 2 52 ∧ exponent₂ ≠ -1074 then 1 else 2)
  let high := 4 * significand + 2
  if significand % 2 = 0 then low * unit ≤ value && value ≤ high * unit
  else low * unit < value && value < high * unit

/-- The decimal places before the point of `significand * 2 ^ exponent`, which is negative or zero
for a number below one tenth or below one. -/
def places (significand : Nat) (exponent : Int) : Int :=
  let (up, down) := power 2 exponent
  if down ≤ significand * up then (Number.digits (significand * up / down)).length
  else
    let inverse := down / (significand * up)
    let count : Int := (Number.digits inverse).length
    -- an exact power of ten below one has one place more than its neighbours below
    if significand * up * Nat.pow 10 (count.toNat - 1) = down then 2 - count else 1 - count

/-- The decimal with `count` digits nearest to `significand * 2 ^ exponent` that reads back. -/
def withDigits? (significand : Nat) (exponent : Int) (count : Nat) : Option (Nat × Int) :=
  let exponent₁₀ := places significand exponent - count
  let (up, down) := power 2 exponent
  let (up₁₀, down₁₀) := power 10 exponent₁₀
  let num := significand * up * down₁₀
  let den := down * up₁₀
  let below := num / den
  let fits (mantissa : Nat) := readsBack significand exponent mantissa exponent₁₀
  let nearer := if 2 * (num % den) < den ∨ (2 * (num % den) = den ∧ below % 2 = 0)
    then [below, below + 1] else [below + 1, below]
  (nearer.find? fits).map (·, exponent₁₀)

/-- The fewest digits that read back, with the power of ten they are multiplied by. Seventeen digits
always do. -/
def shortest (significand : Nat) (exponent : Int) : Nat × Int :=
  if significand = 0 then (0, 0)
  else ((List.range 17).findSome? fun n => withDigits? significand exponent (n + 1)).getD (0, 0)

/-- Digits without their trailing zeros. -/
def bare (cs : List Char) : List Char := (cs.reverse.dropWhile (· == '0')).reverse

/-- A positive decimal: positional with a fraction of one digit at least while the point stands at
most sixteen places behind the first digit and three before it, and with a power of ten of two
digits at least otherwise. -/
def render (mantissa : Nat) (exponent : Int) : List Char :=
  let all := digits mantissa
  let point : Int := all.length + exponent
  let cs := if mantissa = 0 then ['0'] else bare all
  if mantissa = 0 then "0.0".toList
  else if -4 < point ∧ point ≤ 16 then
    if point ≤ 0 then "0.".toList ++ List.replicate (-point).toNat '0' ++ cs
    else
      let whole := cs.take point.toNat
      let fraction := cs.drop point.toNat
      whole ++ List.replicate (point.toNat - whole.length) '0' ++
        '.' :: (if fraction.isEmpty then ['0'] else fraction)
  else
    let power := point - 1
    let powerDigits := digits power.natAbs
    let mark := ['e', if power < 0 then '-' else '+'] ++
      (if powerDigits.length < 2 then '0' :: powerDigits else powerDigits)
    match cs with
    | [] => mark
    | [c] => c :: mark
    | c :: fraction => c :: '.' :: (fraction ++ mark)

/-- The text of a number: the shortest decimal, or the word for a number that is not finite. -/
def text : Double → List Char
  | .finite negative significand exponent =>
    let (mantissa, power) := shortest significand exponent
    (if negative then ['-'] else []) ++ render mantissa power
  | .infinite negative => (if negative then "-inf" else "inf").toList
  | .nan => "nan".toList

/-- The number without its fraction, if it is finite. -/
def truncate? : Double → Option Int
  | .finite negative significand exponent =>
    let (up, down) := power 2 exponent
    let whole : Int := (significand * up / down : Nat)
    some (if negative then -whole else whole)
  | _ => none

/-- The whole number that equals this one. -/
def whole? : Double → Option Int
  | .finite negative significand exponent =>
    let (up, down) := power 2 exponent
    if significand * up % down = 0 then
      let whole : Int := (significand * up / down : Nat)
      some (if negative then -whole else whole)
    else none
  | _ => none

/-- The number is zero. -/
def isZero : Double → Bool
  | .finite _ significand _ => significand == 0
  | _ => false

/-- The number is above zero. -/
def isPositive : Double → Bool
  | .finite negative significand _ => !negative && significand != 0
  | .infinite negative => !negative
  | .nan => false

end Double

end Deadwood
