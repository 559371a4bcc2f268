import ScriptLexer.Binary
import ScriptLexer.Text.Blank
import ScriptLexer.Text.Digits

/-!
# Floating-point numbers in text

A numeral is the word for an infinity or for no number, a hexadecimal number with a binary exponent,
or a decimal number with a decimal one. `Numeral.split?` finds the longest numeral that a text begins
with, and `Numeral.value` is what it stands for. A text that begins with none stands for zero.

Decimal numbers are rounded once, from their exact value. Hexadecimal ones are added up digit by digit
and scaled at the end, each step rounded; with few digits every step is exact.
-/

namespace ScriptLexer

/-- The digits of a number are those before and those behind its point. -/
inductive Numeral where
  | infinity
  | notANumber
  | hexadecimal (whole fraction : List Nat) (exponent : Option SignedDigits)
  | decimal (whole fraction : List Nat) (exponent : Option SignedDigits)
deriving DecidableEq

namespace Numeral

/-! Finding a numeral. Each reader gives the rest of the text along with what it read. -/

/-- What follows `word`, in any case, at the start of `text`. -/
def afterWord? (word : String) (text : List Char) : Option (List Char) :=
  let expected := word.toList
  if (text.take expected.length).map Char.toLower = expected then some (text.drop expected.length)
  else none

/-- Digits around an optional point, at least one of them. -/
def splitMantissa? (base : Nat) (text : List Char) : Option (List Nat × List Nat × List Char) :=
  let (whole, rest) := Digits.split base text
  let (fraction, rest) := match rest with
    | '.' :: rest => Digits.split base rest
    | rest => ([], rest)
  if whole.isEmpty && fraction.isEmpty then none else some (whole, fraction, rest)

/-- An exponent after its mark, which is a lower case letter here but may be in either case. Without
digits there is none, and nothing is read. -/
def splitExponent (mark : Char) (text : List Char) : Option SignedDigits × List Char :=
  match text with
  | [] => (none, [])
  | character :: rest =>
    let (exponent, rest) := SignedDigits.split rest
    if character.toLower = mark ∧ exponent.digits ≠ [] then (some exponent, rest) else (none, text)

def splitWord? (text : List Char) : Option (Numeral × List Char) :=
  [("infinity", infinity), ("inf", infinity), ("nan", notANumber)].findSome? fun (word, numeral) =>
    (afterWord? word text).map (numeral, ·)

def splitHexadecimal? (text : List Char) : Option (Numeral × List Char) := do
  let rest ← afterWord? "0x" text
  let (whole, fraction, rest) ← splitMantissa? 16 rest
  let (exponent, rest) := splitExponent 'p' rest
  return (hexadecimal whole fraction exponent, rest)

def splitDecimal? (text : List Char) : Option (Numeral × List Char) := do
  let (whole, fraction, rest) ← splitMantissa? 10 text
  let (exponent, rest) := splitExponent 'e' rest
  return (decimal whole fraction exponent, rest)

/-- The longest numeral that `text` begins with, and what follows it. -/
def split? (text : List Char) : Option (Numeral × List Char) :=
  splitWord? text <|> splitHexadecimal? text <|> splitDecimal? text

/-! What a numeral stands for. -/

/-- Binary exponents go up to here; a greater one has the same effect. -/
def exponentCeiling : Nat := 0x7FFFFFFF

/-- Multiplies by sixteen and adds, digit by digit, from the point to the left. -/
def hexadecimalWhole (digits : List Nat) : Binary :=
  digits.foldl
    (fun value digit =>
      .add .double (.mul .double value (.ofNat .double 16)) (.ofNat .double digit))
    (.zero .double false)

/-- Adds the digits from the point to the right, each one sixteenth as heavy as the one before. -/
def hexadecimalFraction (value : Binary) (digits : List Nat) : Binary :=
  let sixteenth := Binary.twoPow .double (-4)
  (digits.foldl
    (fun (value, weight) digit =>
      (.add .double value (.mul .double (.ofNat .double digit) weight),
        .mul .double weight sixteenth))
    (value, sixteenth)).1

/-- Zero stays zero, however great the exponent. -/
def scale (value : Binary) : Option SignedDigits → Binary
  | none => value
  | some exponent =>
    if value.isZero then value
    else
      let size := min (Digits.toNat 10 exponent.digits) exponentCeiling
      .mul .double value (.twoPow .double (if exponent.negative then -size else size))

/-- The double that the numeral stands for. -/
def value : Numeral → Binary
  | .infinity => .infinite false
  | .notANumber => .nan
  | .hexadecimal whole fraction exponent =>
    scale (hexadecimalFraction (hexadecimalWhole whole) fraction) exponent
  | .decimal whole fraction exponent =>
    .ofDecimal .double (Digits.toNat 10 (whole ++ fraction))
      (exponent.elim 0 SignedDigits.toInt - fraction.length)

/-- The double that `text` begins with, after blanks and a sign. -/
def ofText (text : String) : Binary :=
  let (negative, rest) := Digits.splitSign (Blank.trimStart text.toList)
  match split? rest with
  | none => .zero .double false
  | some (numeral, _) => if negative then numeral.value.neg else numeral.value

/-! Two to the power of -1024 is taken for the reciprocal of an infinity, so it scales to zero. -/

example : split? "1.5e+px".toList = some (decimal [1] [5] none, "e+px".toList) := rfl
example : split? "0x.8p-1z".toList =
    some (hexadecimal [] [8] (some { negative := true, digits := [1] }), "z".toList) := rfl
example : split? "0xg".toList = some (decimal [0] [] none, "xg".toList) := rfl
example : ofText "-0.1" = .finite true 7205759403792794 (-56) := by decide +kernel
example : ofText "0x1p-1024" = .zero .double false := by decide +kernel
example : ofText "1e400" = .infinite false := by decide +kernel

end Numeral

end ScriptLexer
