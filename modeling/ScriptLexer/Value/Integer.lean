import ScriptLexer.Text.Blank
import ScriptLexer.Text.Digits

/-!
# Integers in text

An integer is what a text begins with after blanks: a sign and digits. Without digits it is zero, and
beyond 32 bits it is the nearest integer that has them.
-/

namespace ScriptLexer

namespace Integer

def least : Int := -0x80000000

def greatest : Int := 0x7FFFFFFF

/-- Digits are added up to this bound only, so that a long run of them costs no more than a short
one. -/
def ceiling : Nat := 0x7FFFFFFFFFFFFFFF

/-- The number that digits stand for, or the ceiling where that is less. -/
def magnitude (digits : List Nat) : Nat :=
  digits.foldl (fun number digit => min (number * 10 + digit) ceiling) 0

/-- The leading integer of `text` as it is spelled. -/
def split (text : String) : SignedDigits :=
  (SignedDigits.split (Blank.trimStart text.toList)).1

/-- Whether `text` begins with an integer. -/
def startsText (text : String) : Bool :=
  !(split text).digits.isEmpty

def ofText (text : String) : Int :=
  let spelled := split text
  let size : Int := magnitude spelled.digits
  max least (min greatest (if spelled.negative then -size else size))

example : ofText " -17 px" = -17 := rfl
example : ofText "99999999999999999999" = 2147483647 := rfl
example : ofText "x12" = 0 := rfl

end Integer

end ScriptLexer
