/-!
# Signs and digits

What numbers in text are made of. A digit is split off as its value, and what was not understood is
handed back as the rest of the text.
-/

namespace ScriptLexer

namespace Digits

/-- The value of a digit of a base up to sixteen; other characters have one that no base admits. -/
def value (character : Char) : Nat :=
  if '0' ≤ character ∧ character ≤ '9' then character.toNat - '0'.toNat
  else if 'a' ≤ character ∧ character ≤ 'f' then character.toNat - 'a'.toNat + 10
  else if 'A' ≤ character ∧ character ≤ 'F' then character.toNat - 'A'.toNat + 10
  else 16

def isDigit (base : Nat) (character : Char) : Bool :=
  value character < base

/-- The digits that `text` begins with, and what follows them. -/
def split (base : Nat) (text : List Char) : List Nat × List Char :=
  ((text.takeWhile (isDigit base)).map value, text.dropWhile (isDigit base))

/-- The number that digits stand for, the first of them the greatest. -/
def toNat (base : Nat) (digits : List Nat) : Nat :=
  digits.foldl (fun number digit => number * base + digit) 0

/-- Whether `text` begins with a minus, and what follows its sign if it has one. -/
def splitSign : List Char → Bool × List Char
  | '-' :: rest => (true, rest)
  | '+' :: rest => (false, rest)
  | text => (false, text)

theorem length_splitSign_le (text : List Char) : (splitSign text).2.length ≤ text.length := by
  unfold splitSign
  split <;> simp

example : split 10 "07px".toList = ([0, 7], "px".toList) := rfl
example : toNat 16 [1, 10] = 26 := rfl

end Digits

/-- An integer as it is spelled: a sign, where none is a plus, and decimal digits. -/
structure SignedDigits where
  negative : Bool
  digits : List Nat
deriving DecidableEq

namespace SignedDigits

/-- The sign and the digits that `text` begins with, and what follows them. -/
def split (text : List Char) : SignedDigits × List Char :=
  let (negative, rest) := Digits.splitSign text
  let (digits, rest) := Digits.split 10 rest
  ({ negative, digits }, rest)

def toInt (spelled : SignedDigits) : Int :=
  let size : Int := Digits.toNat 10 spelled.digits
  if spelled.negative then -size else size

example : (split "-42.0".toList).1.toInt = -42 := rfl

end SignedDigits

end ScriptLexer
