import Mathlib.Data.List.Forall2
import ScriptLexer.Value.Numeral

/-!
# The grammar of numbers

How numbers are spelled, said without the functions that find them: integers as a sign and digits, and
numerals as words, in hexadecimal or in decimal. Every rule relates characters to what they spell. It is
a matter of its own how much of a text is a number.
-/

namespace ScriptLexer

namespace Digits

/-! The digits, each at the place of its value. -/

def lowerCase : List Char :=
  "0123456789abcdef".toList

def upperCase : List Char :=
  "0123456789ABCDEF".toList

/-- The character is the digit of that value, in either case. -/
structure IsDigit (base : Nat) (character : Char) (digit : Nat) : Prop where
  below : digit < base
  written : lowerCase[digit]? = some character ∨ upperCase[digit]? = some character

/-- The characters are digits of these values. -/
abbrev Spells (base : Nat) : List Char → List Nat → Prop :=
  List.Forall₂ (IsDigit base)

/-- A sign or nothing, and whether it is a minus. -/
inductive Sign : List Char → Bool → Prop
  | none : Sign [] false
  | plus : Sign ['+'] false
  | minus : Sign ['-'] true

/-- The text begins with no digit. -/
def Ended (base : Nat) (text : List Char) : Prop :=
  ∀ character ∈ text.head?, ∀ digit, ¬ IsDigit base character digit

/-- The text begins with no sign. -/
def Unsigned (text : List Char) : Prop :=
  ∀ character ∈ text.head?, character ≠ '+' ∧ character ≠ '-'

end Digits

open Digits

/-- What a text begins with: a sign, if it has one, and then all digits up to a character that is none.
There may be no digits at all. -/
inductive SignedDigits.Leads : List Char → SignedDigits → Prop
  | intro {sign characters rest : List Char} {negative : Bool} {digits : List Nat}
      (isSign : Sign sign negative) (single : sign = [] → Unsigned (characters ++ rest))
      (spells : Spells 10 characters digits) (ended : Ended 10 rest) :
      Leads (sign ++ (characters ++ rest)) { negative, digits }

namespace Numeral

/-! ## Numerals -/

/-- Digits around a point or without one, and at least one digit. -/
inductive Mantissa (base : Nat) : List Char → List Nat → List Nat → Prop
  | plain {characters : List Char} {whole : List Nat} (spells : Spells base characters whole)
      (nonempty : whole ≠ []) : Mantissa base characters whole []
  | pointed {before behind : List Char} {whole fraction : List Nat}
      (spellsWhole : Spells base before whole) (spellsFraction : Spells base behind fraction)
      (nonempty : whole ≠ [] ∨ fraction ≠ []) :
      Mantissa base (before ++ '.' :: behind) whole fraction

/-- Nothing, or the mark in either case, a sign and at least one decimal digit. -/
inductive Exponent (mark : Char) : List Char → Option SignedDigits → Prop
  | none : Exponent mark [] none
  | marked {letter : Char} {sign characters : List Char} {negative : Bool} {digits : List Nat}
      (isMark : letter.toLower = mark) (isSign : Sign sign negative)
      (spells : Spells 10 characters digits) (nonempty : digits ≠ []) :
      Exponent mark (letter :: (sign ++ characters)) (some { negative, digits })

/-- A numeral without its sign. -/
inductive Spelled : List Char → Numeral → Prop
  | infinity {word : List Char}
      (isWord : word.map Char.toLower = "infinity".toList ∨ word.map Char.toLower = "inf".toList) :
      Spelled word infinity
  | notANumber {word : List Char} (isWord : word.map Char.toLower = "nan".toList) :
      Spelled word notANumber
  | hexadecimal {opener mantissa exponent : List Char} {whole fraction : List Nat}
      {spelledExponent : Option SignedDigits} (opens : opener.map Char.toLower = "0x".toList)
      (isMantissa : Mantissa 16 mantissa whole fraction)
      (isExponent : Exponent 'p' exponent spelledExponent) :
      Spelled (opener ++ (mantissa ++ exponent)) (hexadecimal whole fraction spelledExponent)
  | decimal {mantissa exponent : List Char} {whole fraction : List Nat}
      {spelledExponent : Option SignedDigits} (isMantissa : Mantissa 10 mantissa whole fraction)
      (isExponent : Exponent 'e' exponent spelledExponent) :
      Spelled (mantissa ++ exponent) (decimal whole fraction spelledExponent)

/-- A numeral after its sign, if it has one. -/
inductive SpelledSigned : List Char → Bool → Numeral → Prop
  | intro {sign body : List Char} {negative : Bool} {numeral : Numeral}
      (isSign : Sign sign negative) (spelled : Spelled body numeral) :
      SpelledSigned (sign ++ body) negative numeral

def IsNumeral (characters : List Char) : Prop :=
  ∃ negative numeral, SpelledSigned characters negative numeral

/-- `part` is the longest numeral that `text` begins with. -/
structure Longest (text part : List Char) : Prop where
  begins : part <+: text
  isNumeral : IsNumeral part
  longest : ∀ other, other <+: text → IsNumeral other → other.length ≤ part.length

end Numeral

end ScriptLexer
