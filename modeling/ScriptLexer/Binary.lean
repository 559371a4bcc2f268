/-!
# Binary floating-point numbers

Numbers of a binary format, and their arithmetic. Every operation takes the exact result and rounds
it to the nearest number of the format, to the one with the even significand where two are equally
near. The exact results are ratios of natural numbers, scaled by a power of two, so all of this is
plain arithmetic.
-/

namespace ScriptLexer

/-- The bits of a significand, and the range of the exponent of its last place. -/
structure BinaryFormat where
  precision : Nat
  leastExponent : Int
  greatestExponent : Int
deriving DecidableEq

namespace BinaryFormat

def single : BinaryFormat where
  precision := 24
  leastExponent := -149
  greatestExponent := 104

def double : BinaryFormat where
  precision := 53
  leastExponent := -1074
  greatestExponent := 971

/-- The least significand that has all the bits. -/
def unit (format : BinaryFormat) : Nat :=
  1 <<< (format.precision - 1)

end BinaryFormat

/-- A finite number is `significand * 2 ^ exponent`. -/
inductive Binary where
  | nan
  | infinite (negative : Bool)
  | finite (negative : Bool) (significand : Nat) (exponent : Int)
deriving DecidableEq

namespace Binary

/-! Rounding. The last place of a result is as fine as its leading digit and the format allow. -/

/-- The integer nearest to a ratio, the even one of two. -/
def roundToEven (numerator denominator : Nat) : Nat :=
  let quotient := numerator / denominator
  let excess := 2 * (numerator % denominator)
  if excess < denominator ∨ excess = denominator ∧ quotient % 2 = 0 then quotient else quotient + 1

/-- The exponent of the greatest power of two that is not above a positive ratio. -/
def leadingExponent (numerator denominator : Nat) : Int :=
  let estimate : Int := numerator.log2 - denominator.log2
  if denominator <<< estimate.toNat ≤ numerator <<< (-estimate).toNat then estimate
  else estimate - 1

def zero (format : BinaryFormat) (negative : Bool) : Binary :=
  finite negative 0 format.leastExponent

/-- The number nearest to `numerator / denominator * 2 ^ scale`. -/
def round (format : BinaryFormat) (negative : Bool) (numerator denominator : Nat) (scale : Int) :
    Binary :=
  if numerator = 0 then zero format negative
  else
    let leading := leadingExponent numerator denominator + scale
    let lastPlace := max (leading + 1 - format.precision) format.leastExponent
    let significand := roundToEven (numerator <<< (scale - lastPlace).toNat)
      (denominator <<< (lastPlace - scale).toNat)
    let (significand, exponent) :=
      if significand = 1 <<< format.precision then (format.unit, lastPlace + 1)
      else (significand, lastPlace)
    if format.greatestExponent < exponent then infinite negative
    else finite negative significand exponent

def ofNat (format : BinaryFormat) (value : Nat) : Binary :=
  round format false value 1 0

/-- The nearest number of another format. -/
def convert (format : BinaryFormat) : Binary → Binary
  | .nan => nan
  | .infinite negative => infinite negative
  | .finite negative significand exponent => round format negative significand 1 exponent

/-! Arithmetic. Only the product of zero and an infinity and the sum of opposite infinities are not
numbers. -/

def isZero : Binary → Bool
  | .finite _ significand _ => significand == 0
  | .nan | .infinite _ => false

def neg : Binary → Binary
  | .nan => nan
  | .infinite negative => infinite (!negative)
  | .finite negative significand exponent => finite (!negative) significand exponent

/-- A sum of zero is negative only where both operands are. -/
def add (format : BinaryFormat) : Binary → Binary → Binary
  | .nan, _ | _, .nan => nan
  | .infinite left, .infinite right => if left = right then infinite left else nan
  | .infinite negative, .finite .. | .finite .., .infinite negative => infinite negative
  | .finite leftNegative left leftExponent, .finite rightNegative right rightExponent =>
    let exponent := min leftExponent rightExponent
    let term (negative : Bool) (significand : Nat) (own : Int) : Int :=
      (if negative then -1 else 1) * (significand <<< (own - exponent).toNat : Nat)
    let sum := term leftNegative left leftExponent + term rightNegative right rightExponent
    if sum = 0 then zero format (leftNegative && rightNegative)
    else round format (sum < 0) sum.natAbs 1 exponent

def mul (format : BinaryFormat) : Binary → Binary → Binary
  | .nan, _ | _, .nan => nan
  | .infinite left, .infinite right => infinite (left != right)
  | .infinite left, .finite right significand _ | .finite right significand _, .infinite left =>
    if significand = 0 then nan else infinite (left != right)
  | .finite leftNegative left leftExponent, .finite rightNegative right rightExponent =>
    round format (leftNegative != rightNegative) (left * right) 1 (leftExponent + rightExponent)

def reciprocal (format : BinaryFormat) : Binary → Binary
  | .nan => nan
  | .infinite negative => zero format negative
  | .finite negative significand exponent =>
    if significand = 0 then infinite negative else round format negative 1 significand (-exponent)

/-- Two to an integer power, where a negative power is the reciprocal of the positive one. It is zero
from there on where the positive power is infinite, though smaller numbers exist. -/
def twoPow (format : BinaryFormat) (power : Int) : Binary :=
  let positive := round format false 1 1 power.natAbs
  if power < 0 then reciprocal format positive else positive

/-! Decimal numbers. -/

/-- The number nearest to `significand * 10 ^ exponent`. Where ten is as good as eight to tell that
the number is out of the range of the format, the power is not computed. -/
def ofDecimal (format : BinaryFormat) (significand : Nat) (exponent : Int) : Binary :=
  let leading : Int := significand.log2
  if significand = 0 ∨ leading + 1 + 3 * exponent < format.leastExponent - 1 ∧ exponent < 0 then
    zero format false
  else if format.greatestExponent + format.precision ≤ leading + 3 * exponent ∧ 0 < exponent then
    infinite false
  else
    round format false (significand * Nat.pow 10 exponent.toNat) (Nat.pow 10 (-exponent).toNat) 0

/-! The interchange encoding: the sign, the exponent and the significand without its leading bit, as
one integer. Next to each other in this encoding is next to each other in value. -/

/-- The encoding of a number. Which one of the encodings of a NaN is meant is left open. -/
def encoding (format : BinaryFormat) : Binary → Option Nat
  | .nan => none
  | .infinite negative => some (place (format.greatestExponent + 1) format.unit negative)
  | .finite negative significand exponent => some (place exponent significand negative)
where
  place (exponent : Int) (significand : Nat) (negative : Bool) : Nat :=
    let sign := if negative then (format.greatestExponent - format.leastExponent + 3).toNat else 0
    (sign + (exponent - format.leastExponent).toNat) * format.unit + significand

/-! One, the numbers around the least one, and a tie. -/

example : encoding .single (ofNat .single 1) = some 0x3F800000 := rfl
example : round .single false 1 1 (-150) = zero .single false := rfl
example : round .single false 3 1 (-151) = finite false 1 (-149) := rfl
example : ofNat .single 0x1000001 = finite false 0x800000 1 := rfl
example : twoPow .double (-1024) = zero .double false := rfl
example : mul .double (infinite false) (zero .double false) = nan := rfl

end Binary

end ScriptLexer
