import ScriptLexer.Binary
import ScriptLexer.Json.Fault
import ScriptLexer.Text.Digits

/-!
# JSON numbers

No setting is a number, so numbers are only checked: for their form, and for whether they are within
the range of a double where a value is read rather than passed over. The range is checked on an
approximation that keeps as many leading digits as fit into 64 bits.
-/

namespace ScriptLexer

namespace Json

/-- The digits before and behind the point. The sign has no bearing on anything. -/
structure Number where
  whole : List Nat
  fraction : List Nat
  exponent : Option SignedDigits
deriving DecidableEq

namespace Number

/-! The form. Every reader is told what it means that the text ends where a digit has to come. -/

/-- Reads a run of digits, at least one. -/
def readDigits (unfinished : Fault) (text : List Char) : Except Fault (List Nat × Shorter text) :=
  let digits := text.takeWhile (Digits.isDigit 10)
  let rest := text.dropWhile (Digits.isDigit 10)
  if shorter : rest.length < text.length then .ok (digits.map Digits.value, ⟨rest, shorter⟩)
  else if text.isEmpty then .error unfinished
  else .error .malformed

/-- Reads the digits before the point, without zeros in front. -/
def readWhole (unfinished : Fault) (text : List Char) : Except Fault (List Nat × Shorter text) := do
  let (digits, rest) ← readDigits unfinished text
  if digits.head? = some 0 ∧ 1 < digits.length then .error .malformed
  else .ok (digits, rest)

/-- Reads a point and the digits behind it, if there is a point. -/
def readFraction (unfinished : Fault) (text : List Char) :
    Except Fault (List Nat × Rest text) :=
  match text with
  | '.' :: digits => do
    let (digits, left) ← readDigits unfinished digits
    return (digits, (left.rest.behind '.').rest)
  | text => .ok ([], .all text)

/-- Reads an exponent, if there is a mark of one. -/
def readExponent (unfinished : Fault) (text : List Char) :
    Except Fault (Option SignedDigits × Rest text) :=
  match text with
  | [] => .ok (none, .all [])
  | mark :: signed =>
    if mark = 'e' ∨ mark = 'E' then do
      let (digits, ⟨rest, shorter⟩) ← readDigits unfinished (Digits.splitSign signed).2
      return (some { negative := (Digits.splitSign signed).1, digits },
        ⟨rest, Nat.le_trans (Nat.le_of_lt shorter)
          (Nat.le_succ_of_le (Digits.length_splitSign_le signed))⟩)
    else .ok (none, .all (mark :: signed))

/-- Reads what follows the minus of a number, if it has one. -/
def readUnsigned (unfinished : Fault) (text : List Char) : Except Fault (Number × Shorter text) := do
  let (whole, afterWhole) ← readWhole unfinished text
  let (fraction, afterFraction) ← readFraction unfinished afterWhole.1
  let (exponent, left) ← readExponent unfinished afterFraction.1
  return ({ whole, fraction, exponent }, (afterWhole.andThen afterFraction).andThen left)

def read (unfinished : Fault) (text : List Char) : Except Fault (Number × Shorter text) :=
  match text with
  | '-' :: rest => do
    let (number, left) ← readUnsigned unfinished rest
    return (number, left.rest.behind '-')
  | text => readUnsigned unfinished text

/-! The range. -/

/-- Appends digits to a number as long as it fits into 64 bits, and counts those left over. -/
def keep (number : Nat) : List Nat → Nat × Nat
  | [] => (number, 0)
  | digit :: later =>
    if number * 10 + digit < 0x10000000000000000 then keep (number * 10 + digit) later
    else (number, later.length + 1)

/-- Whether the approximation of the number is infinite. It is a significand of digits kept, times a
power of ten, where the digits left over before the point count as zeros. -/
def isOutOfRange (number : Number) : Bool :=
  let (whole, dropped) := keep 0 number.whole
  let (significand, ignored) := keep whole number.fraction
  let kept := number.fraction.length - ignored
  let exponent := (dropped : Int) - kept + number.exponent.elim 0 SignedDigits.toInt
  if significand = 0 ∨ exponent < 0 then false
  else if 308 < exponent then true
  else
    let power := Binary.ofNat .double (Nat.pow 10 exponent.toNat)
    Binary.mul .double (.ofNat .double significand) power == .infinite false

/-- What is wrong with a number where something else has to be. -/
def mismatch (text : List Char) : Fault :=
  match read .truncated text with
  | .error fault => fault
  | .ok (number, _) => if number.isOutOfRange then .outOfRange else .wrongType

example : mismatch "-1.5e3,".toList = .wrongType := rfl
example : mismatch "1e309".toList = .outOfRange := rfl
example : mismatch "0e999".toList = .wrongType := rfl
example : mismatch "1.".toList = .truncated := rfl
example : mismatch "01".toList = .malformed := rfl

end Number

end Json

end ScriptLexer
