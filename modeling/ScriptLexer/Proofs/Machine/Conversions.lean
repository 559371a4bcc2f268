import ScriptLexer.Proofs.Text.Slices
import ScriptLexer.Proofs.Value.Integer
import ScriptLexer.Value.Numeral
import ScriptLexer.Value.Truth

/-!
# Conversions on a machine

What a machine does with the bytes of a text to find a value in it. Every slice has to be cut between
characters, and every difference and negation has to have a result. A decimal number is not added up
here: the part of the text that has it is handed over to another reader.
-/

namespace ScriptLexer

namespace Machine

open Digits Utf8

/-- What can go wrong: a slice that is out of range or cut inside of a character, a number that its word
does not hold, and a part of a text that is not what it was taken for. -/
inductive Fault where
  | slice
  | overflow
  | fallback
deriving DecidableEq

def orFault {α : Type} (fault : Fault) : Option α → Except Fault α
  | some value => .ok value
  | none => .error fault

def sliceFrom (text : Bytes) (start : Nat) : Except Fault Bytes :=
  orFault .slice (sliceFrom? text start)

def sliceTo (text : Bytes) (stop : Nat) : Except Fault Bytes :=
  orFault .slice (sliceTo? text stop)

def difference (left right : Nat) : Except Fault Nat :=
  orFault .overflow (if right ≤ left then some (left - right) else none)

def trimmed (text : String) : Bytes :=
  bytes (Blank.trimStart text.toList)

def splitSign (text : Bytes) : Except Fault (Bool × Bytes) :=
  if text.head? = some (letterByte '-') then do return (true, ← sliceFrom text 1)
  else if text.head? = some (letterByte '+') then do return (false, ← sliceFrom text 1)
  else return (false, text)

/-- The number of digits that a text begins with. -/
def digitRun (text : Bytes) : Nat :=
  (text.takeWhile Integer.isDigitByte).length

def startsInteger (text : String) : Except Fault Bool := do
  let (_, rest) ← splitSign (trimmed text)
  return 0 < digitRun rest

def integer (text : String) : Except Fault Int32 := do
  let (negative, rest) ← splitSign (trimmed text)
  let size ← orFault .overflow ((rest.takeWhile Integer.isDigitByte).foldlM Integer.addDigit? 0)
  let value ← orFault .overflow (Integer.signed? negative size)
  orFault .overflow (Integer.narrowed? (Integer.clamped value))

def truth (text : String) : Except Fault Bool := do
  let lower := (encode text).map lowerByte
  if lower = encode "no" ∨ lower = encode "false" ∨ encode text = [] then return false
  else if ← startsInteger text then return (← integer text) ≠ 0
  else return true

/-! A number in parts. Every part is told by the index behind it. -/

/-- The mark of an exponent, in either case. -/
def isMark (mark : Char) (text : Bytes) (index : Nat) : Bool :=
  text[index]? = some (letterByte mark) ∨ text[index]? = some (letterByte mark.toUpper)

def stripPrefix? (word text : Bytes) : Option Bytes :=
  if word.isPrefixOf text then some (text.drop word.length) else none

/-- The value of a byte as a hexadecimal digit. -/
def digitValue (byte : UInt8) : Nat :=
  value (Char.ofNat byte.toNat)

def isHexadecimalByte (byte : UInt8) : Bool :=
  isDigit 16 (Char.ofNat byte.toNat)

/-- Hexadecimal digits around an optional point, and the index behind them. -/
def hexadecimalMantissa (text : Bytes) : List Nat × List Nat × Nat :=
  let whole := text.takeWhile isHexadecimalByte
  if text[whole.length]? = some (letterByte '.') then
    let fraction := (text.drop (whole.length + 1)).takeWhile isHexadecimalByte
    (whole.map digitValue, fraction.map digitValue, whole.length + 1 + fraction.length)
  else (whole.map digitValue, [], whole.length)

/-- A run of digits as a word, if one holds it. -/
def word? (run : Bytes) : Option Int32 :=
  let number := toNat 10 (run.map fun byte => byte.toNat - 0x30)
  if number ≤ 0x7FFFFFFF then some (.ofNat number) else none

def negatedWord? (word : Int32) : Option Int32 :=
  if word = Int32.minValue then none else some (-word)

/-- The value times the power of two at the index, if there is one. -/
def scaled (text : Bytes) (index : Nat) (value : Binary) : Except Fault Binary :=
  if isMark 'p' text index then do
    let (negative, exponent) ← splitSign (← sliceFrom text (index + 1))
    let run := digitRun exponent
    if 0 < run ∧ ¬ value.isZero then
      let power := (word? (← sliceTo exponent run)).getD Int32.maxValue
      let power ← orFault .overflow (if negative then negatedWord? power else some power)
      return .mul .double value (.twoPow .double power.toInt)
    else return value
  else return value

def hexadecimal (text : Bytes) : Except Fault (Option Binary) :=
  match (stripPrefix? (encode "0x") text).or (stripPrefix? (encode "0X") text) with
  | none => return none
  | some behind =>
    let (whole, fraction, stop) := hexadecimalMantissa behind
    if whole.isEmpty && fraction.isEmpty then return none
    else do return some (← scaled behind stop
      (Numeral.hexadecimalFraction (Numeral.hexadecimalWhole whole) fraction))

/-- The numbers of decimal digits before and behind an optional point, and the index behind them. -/
def decimalMantissa (text : Bytes) : Except Fault (Nat × Nat × Nat) :=
  let whole := digitRun text
  if text[whole]? = some (letterByte '.') then do
    let fraction := digitRun (← sliceFrom text (whole + 1))
    return (whole, fraction, whole + 1 + fraction)
  else return (whole, 0, whole)

/-- The index behind the exponent at the index, if there is one. -/
def exponentEnd (text : Bytes) (index : Nat) : Except Fault Nat :=
  if isMark 'e' text index then do
    let (_, exponent) ← splitSign (← sliceFrom text (index + 1))
    let run := digitRun exponent
    if 0 < run then
      let behindMark ← difference text.length (index + 1)
      let sign ← difference behindMark exponent.length
      return index + 1 + sign + run
    else return index
  else return index

/-- The word that a text begins with. Eight bytes are as many as the longest word has. -/
def special? (text : Bytes) : Option Binary :=
  let lower := ((sliceTo? text 8).getD text).map lowerByte
  if (encode "infinity").isPrefixOf lower || (encode "inf").isPrefixOf lower then
    some (.infinite false)
  else if (encode "nan").isPrefixOf lower then some .nan
  else none

/-- A number, or the part of a text that is handed over to be read as one. -/
inductive Outcome where
  | number (value : Binary)
  | part (characters : Bytes)
deriving DecidableEq

def signedNumber (negative : Bool) (value : Binary) : Outcome :=
  .number (if negative then value.neg else value)

/-- `rest` is `text` without its sign. -/
def decimal (text rest : Bytes) : Except Fault Outcome := do
  let sign ← difference text.length rest.length
  let (whole, fraction, stop) ← decimalMantissa rest
  if whole + fraction = 0 then return .number (.zero .double false)
  else
    let stop ← exponentEnd rest stop
    return .part (← sliceTo text (sign + stop))

def float (text : String) : Except Fault Outcome := do
  let (negative, rest) ← splitSign (trimmed text)
  match special? rest with
  | some value => return signedNumber negative value
  | none =>
    match ← hexadecimal rest with
    | some value => return signedNumber negative value
    | none => decimal (trimmed text) rest

/-- What is handed over has to be read as a number, and zero in its place is a fault. -/
def Outcome.resolve (parse : Bytes → Option Binary) : Outcome → Except Fault Binary
  | .number value => .ok value
  | .part characters => orFault .fallback (parse characters)

end Machine

end ScriptLexer
