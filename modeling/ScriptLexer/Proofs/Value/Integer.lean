import Mathlib.Data.Nat.Digits.Defs
import ScriptLexer.Proofs.Text.Seams
import ScriptLexer.Proofs.Value.Digits
import ScriptLexer.Value.Integer

/-!
# Integers are exact within their bounds

An integer is the number that the sign and the digits at the start of a text spell, or the nearest one
of 32 bits, for any number of digits. A machine comes to the same with words of 64 bits: its sum stops
growing at the largest of them, which no later step can tell from the number itself.
-/

namespace ScriptLexer

theorem Digits.toNat_eq (base : Nat) (digits : List Nat) :
    toNat base digits = Nat.ofDigits base digits.reverse := by
  rw [Nat.ofDigits_eq_foldr, List.foldr_reverse, toNat]
  congr 1
  funext number digit
  rw [Nat.cast_id, Nat.add_comm, Nat.mul_comm]

theorem Digits.toNat_eq_zero_iff {base : Nat} (positive : 0 < base) {digits : List Nat} :
    toNat base digits = 0 ↔ ∀ digit ∈ digits, digit = 0 := by
  have sums (number : Nat) :
      digits.foldl (fun number digit => number * base + digit) number = 0 ↔
        number = 0 ∧ ∀ digit ∈ digits, digit = 0 := by
    induction digits generalizing number with
    | nil => simp
    | cons digit later induction =>
      have nonzero : base ≠ 0 := Nat.ne_of_gt positive
      rw [List.foldl_cons, induction, List.forall_mem_cons, Nat.add_eq_zero_iff,
        Nat.mul_eq_zero, or_iff_left nonzero, and_assoc]
  rw [toNat, sums]
  exact and_iff_right rfl

theorem SignedDigits.toInt_eq_zero_iff (spelled : SignedDigits) :
    spelled.toInt = 0 ↔ ∀ digit ∈ spelled.digits, digit = 0 := by
  rw [← Digits.toNat_eq_zero_iff (by decide : 0 < 10), toInt]
  split <;> omega

namespace Integer

/-! ## Sums that stop growing -/

theorem magnitude_eq (digits : List Nat) :
    magnitude digits = min (Digits.toNat 10 digits) ceiling := by
  -- The sum is any number here, since it does not start from zero behind the first digit.
  have sums (number : Nat) :
      digits.foldl (fun number digit => min (number * 10 + digit) ceiling) (min number ceiling) =
        min (digits.foldl (fun number digit => number * 10 + digit) number) ceiling := by
    induction digits generalizing number with
    | nil => rfl
    | cons digit later induction =>
      have step : min (min number ceiling * 10 + digit) ceiling =
          min (number * 10 + digit) ceiling := by omega
      rw [List.foldl_cons, step, induction, List.foldl_cons]
  exact sums 0

/-- What is lost above the ceiling is lost anyway. -/
theorem ofText_eq (text : String) :
    ofText text = max least (min greatest (split text).toInt) := by
  have bounded : (ceiling : Int) = 0x7FFFFFFFFFFFFFFF := rfl
  have greatest_eq : greatest = 0x7FFFFFFF := rfl
  have least_eq : least = -0x80000000 := rfl
  simp only [ofText, SignedDigits.toInt, magnitude_eq]
  split <;> omega

/-- A text without digits stands for zero. -/
theorem startsText_of_ne_zero {text : String} (nonzero : ofText text ≠ 0) :
    startsText text = true := by
  cases starts : startsText text with
  | true => rfl
  | false =>
    have noDigits : (split text).digits = [] := by simpa [startsText] using starts
    have zero : (split text).toInt = 0 := by simp [SignedDigits.toInt, noDigits, Digits.toNat]
    rw [ofText_eq, zero] at nonzero
    exact (nonzero rfl).elim

/-- Zero is spelled with zeros alone, and no bound turns another number into it. -/
theorem ofText_eq_zero_iff {text : String} :
    ofText text = 0 ↔ ∀ digit ∈ (split text).digits, digit = 0 := by
  have size := (split text).toInt_eq_zero_iff
  have least_eq : least = -0x80000000 := rfl
  have greatest_eq : greatest = 0x7FFFFFFF := rfl
  rw [ofText_eq, ← size]
  omega

/-! ## On a machine

What a machine makes of the bytes of a text. There is no result where a difference, a negation or a
narrower word does not hold the number. -/

/-- The word nearest to the number. -/
def saturated (number : Int) : Int64 :=
  .ofInt (max Int64.minValue.toInt (min Int64.maxValue.toInt number))

def isDigitByte (byte : UInt8) : Bool :=
  0x30 ≤ byte && byte ≤ 0x39

/-- Product and sum are saturated each. -/
def addDigit? (value : Int64) (byte : UInt8) : Option Int64 :=
  if 0x30 ≤ byte then
    some (saturated ((saturated (value.toInt * 10)).toInt + (byte - 0x30).toNat))
  else none

def negated? (value : Int64) : Option Int64 :=
  if value = Int64.minValue then none else some (-value)

def signed? (negative : Bool) (value : Int64) : Option Int64 :=
  if negative then negated? value else some value

def clamped (value : Int64) : Int64 :=
  if value < Int32.minValue.toInt64 then Int32.minValue.toInt64
  else if Int32.maxValue.toInt64 < value then Int32.maxValue.toInt64
  else value

def narrowed? (value : Int64) : Option Int32 :=
  if value.toInt32.toInt64 = value then some value.toInt32 else none

def machine? (text : String) : Option Int32 := do
  let (negative, rest) := Digits.splitSign (Blank.trimStart text.toList)
  let size ← ((Utf8.encode (.ofList rest)).takeWhile isDigitByte).foldlM addDigit? 0
  let value ← signed? negative size
  narrowed? (clamped value)

theorem toInt_saturated (number : Int) :
    (saturated number).toInt = max (-0x8000000000000000) (min 0x7FFFFFFFFFFFFFFF number) := by
  rw [saturated, Int64.toInt_minValue, Int64.toInt_maxValue]
  exact Int64.toInt_ofInt_of_le (by omega) (by omega)

/-- The byte of a digit. -/
def digitByte (digit : Nat) : UInt8 :=
  .ofNat (0x30 + digit)

theorem toNat_digitByte {digit : Nat} (below : digit < 10) :
    (digitByte digit).toNat = 0x30 + digit :=
  UInt8.toNat_ofNat_of_lt' (show _ < 0x100 by omega)

theorem isDigitByte_iff {byte : UInt8} :
    isDigitByte byte = true ↔ 0x30 ≤ byte.toNat ∧ byte.toNat ≤ 0x39 := by
  simp [isDigitByte, UInt8.le_iff_toNat_le]

theorem addDigit?_eq {value : Int64} {number digit : Nat} (value_eq : value.toInt = number)
    (below : digit < 10) :
    ∃ next, addDigit? value (digitByte digit) = some next ∧
      next.toInt = (min (number * 10 + digit) ceiling : Nat) := by
  have byte := toNat_digitByte below
  have isDigit : 0x30 ≤ digitByte digit := by
    rw [UInt8.le_iff_toNat_le, byte]
    exact Nat.le_add_right _ _
  have difference : (digitByte digit - 0x30).toNat = digit := by
    rw [UInt8.toNat_sub_of_le _ _ isDigit, byte]
    exact Nat.add_sub_cancel_left _ _
  have bound := value.toInt_le
  have ceiling_eq : ceiling = 0x7FFFFFFFFFFFFFFF := rfl
  refine ⟨_, if_pos isDigit, ?_⟩
  rw [difference, toInt_saturated, toInt_saturated, value_eq]
  omega

/-- The bytes of all digits are added up as far as words go. -/
theorem foldlM_addDigit? {digits : List Nat} (below : ∀ digit ∈ digits, digit < 10)
    {value : Int64} {number : Nat} (value_eq : value.toInt = number) :
    ∃ last, (digits.map digitByte).foldlM addDigit? value = some last ∧
      last.toInt =
        (digits.foldl (fun number digit => min (number * 10 + digit) ceiling) number : Nat) := by
  induction digits generalizing value number with
  | nil => exact ⟨value, rfl, value_eq⟩
  | cons digit later induction =>
    rw [List.forall_mem_cons] at below
    rcases addDigit?_eq value_eq below.1 with ⟨next, found, next_eq⟩
    rcases induction below.2 next_eq with ⟨last, rest, last_eq⟩
    refine ⟨last, ?_, last_eq⟩
    rw [List.map_cons, List.foldlM_cons, found]
    exact rest

open Digits

/-- A character that is no digit does not begin with the byte of one. -/
private theorem not_isDigitByte {character : Char}
    (notDigit : ∀ digit, ¬ IsDigit 10 character digit) :
    ∀ byte ∈ String.utf8EncodeChar character, isDigitByte byte = false := by
  intro byte member
  rw [← Bool.not_eq_true, isDigitByte_iff]
  rintro ⟨least, greatest⟩
  by_cases small : character.toNat < 0x80
  · have value : (UInt8.ofNat character.toNat).toNat = character.toNat :=
      UInt8.toNat_ofNat_of_lt' (show _ < 0x100 by omega)
    rw [Utf8.utf8EncodeChar_one small, List.mem_singleton] at member
    rw [member, value] at least greatest
    exact notDigit (character.toNat - 0x30) (isDigit_decimal_iff.mpr
      ⟨by omega, (Nat.add_sub_cancel' least).symm⟩)
  · have foreign := Utf8.utf8EncodeChar_foreign (Nat.le_of_not_lt small) byte member
    rw [UInt8.le_iff_toNat_le] at foreign
    exact absurd (Nat.le_trans foreign greatest) (by decide)

/-- The digits of a text are the first of its bytes. -/
theorem takeWhile_encode {characters rest : List Char} {digits : List Nat}
    (spells : Spells 10 characters digits) (ended : Ended 10 rest) :
    (Utf8.encode (.ofList (characters ++ rest))).takeWhile isDigitByte = digits.map digitByte := by
  rw [Utf8.encode, String.toList_ofList]
  induction spells with
  | nil =>
    rcases rest with _ | ⟨character, rest⟩
    · rfl
    · have foreign := not_isDigitByte (ended character rfl)
      rcases bytes : String.utf8EncodeChar character with _ | ⟨first, others⟩
      · exact (String.utf8EncodeChar_ne_nil bytes).elim
      · rw [bytes, List.forall_mem_cons] at foreign
        simp [bytes, foreign.1]
  | @cons character digit _ _ isDigit _ induction =>
    rcases isDigit_decimal_iff.mp isDigit with ⟨below, value⟩
    have byte := toNat_digitByte below
    have isByte : isDigitByte (digitByte digit) = true := by
      rw [isDigitByte_iff, byte]
      omega
    have small : character.toNat < 0x80 := by
      rw [value]
      exact Nat.lt_of_lt_of_le (Nat.add_lt_add_left below _) (by decide)
    have written : String.utf8EncodeChar character = [digitByte digit] := by
      rw [Utf8.utf8EncodeChar_one small, value]
      rfl
    rw [List.cons_append, List.flatMap_cons, written, List.singleton_append,
      List.takeWhile_cons_of_pos isByte, induction, List.map_cons]

theorem toInt_clamped (value : Int64) :
    (clamped value).toInt = max least (min greatest value.toInt) := by
  have least_eq : Int32.minValue.toInt64.toInt = least := rfl
  have greatest_eq : Int32.maxValue.toInt64.toInt = greatest := rfl
  have order : least ≤ greatest := by decide
  unfold clamped
  simp only [Int64.lt_iff_toInt_lt, least_eq, greatest_eq]
  split
  · rw [least_eq]
    omega
  split
  · rw [greatest_eq]
    omega
  · omega

theorem narrowed?_eq {value : Int64} (above : least ≤ value.toInt)
    (below : value.toInt ≤ greatest) :
    ∃ word, narrowed? value = some word ∧ word.toInt = value.toInt := by
  have least_eq : least = -0x80000000 := rfl
  have greatest_eq : greatest = 0x7FFFFFFF := rfl
  have narrow : value.toInt32.toInt = value.toInt := by
    rw [Int64.toInt_toInt32]
    exact Int.bmod_eq_of_le (by omega) (by omega)
  refine ⟨value.toInt32, if_pos ?_, narrow⟩
  rw [← Int64.toInt_inj, Int32.toInt_toInt64, narrow]

/-- Only the least word has no negation, and a sum of digits is never below zero. -/
theorem signed?_eq (negative : Bool) {value : Int64} (nonnegative : 0 ≤ value.toInt) :
    ∃ result, signed? negative value = some result ∧
      result.toInt = if negative then -value.toInt else value.toInt := by
  cases negative with
  | false => exact ⟨value, rfl, rfl⟩
  | true =>
    have bound := value.toInt_le
    rw [Int64.toInt_maxValue] at bound
    have notLeast : value ≠ Int64.minValue := by
      rintro rfl
      exact absurd nonnegative (by decide)
    refine ⟨-value, if_neg notLeast, ?_⟩
    rw [Int64.toInt_neg]
    exact Int.bmod_eq_of_le (by omega) (by omega)

theorem machine?_eq (text : String) :
    ∃ word, machine? text = some word ∧ word.toInt = ofText text := by
  have decimal : (10 : Nat) ≤ 16 := by decide
  rcases exists_split decimal (splitSign (Blank.trimStart text.toList)).2 with
    ⟨characters, taken, spells, ended⟩
  have bytes := takeWhile_encode spells ended
  rw [← taken] at bytes
  rcases foldlM_addDigit? (lt_of_spells spells) (show (0 : Int64).toInt = (0 : Nat) from rfl) with
    ⟨size, added, size_eq⟩
  have nonnegative : 0 ≤ size.toInt := size_eq ▸ Int.natCast_nonneg _
  rcases signed?_eq (split text).negative nonnegative with ⟨value, signed, value_eq⟩
  have between := toInt_clamped value
  have order : least ≤ greatest := by decide
  have above : least ≤ (clamped value).toInt := by omega
  have below : (clamped value).toInt ≤ greatest := by omega
  rcases narrowed?_eq above below with ⟨word, narrow, word_eq⟩
  refine ⟨word, ?_, ?_⟩
  · have signed : signed? (splitSign (Blank.trimStart text.toList)).1 size = some value := signed
    simp only [machine?, bytes, added, signed, Option.bind_eq_bind, Option.bind_some]
    exact narrow
  · rw [word_eq, between, value_eq, size_eq]
    rfl

/-- The integer of a text is the number that it spells, or the nearest one of 32 bits, and no step of
a machine that finds it goes out of range. Only a text with digits has an integer other than zero. -/
theorem integer_exact_within_bounds (text : String) :
    ∃ (spelled : SignedDigits) (number : Int),
      (∀ other, SignedDigits.Leads (Blank.trimStart text.toList) other ↔ other = spelled) ∧
      number = (Nat.ofDigits 10 spelled.digits.reverse : Nat) ∧
      ofText text =
        max (-0x80000000) (min 0x7FFFFFFF (if spelled.negative then -number else number)) ∧
      (∃ word, machine? text = some word ∧ word.toInt = ofText text) ∧
      (ofText text ≠ 0 → startsText text = true) := by
  refine ⟨split text, _, fun _ => SignedDigits.leads_iff, rfl, ?_, machine?_eq text,
    startsText_of_ne_zero⟩
  rw [ofText_eq, SignedDigits.toInt, toNat_eq]
  rfl

/-- One more digit than words hold, and a minus. -/
theorem integer_exact_within_bounds_long :
    ofText " -99999999999999999999 px" ≠ 0 ∧ startsText " -99999999999999999999 px" = true ∧
      ∃ word, machine? " -99999999999999999999 px" = some word ∧ word.toInt = -0x80000000 := by
  have nonzero : ofText " -99999999999999999999 px" ≠ 0 := by decide
  rcases integer_exact_within_bounds " -99999999999999999999 px" with
    ⟨_, _, -, -, -, ⟨word, found, word_eq⟩, starts⟩
  exact ⟨nonzero, starts nonzero, word, found, word_eq.trans rfl⟩

end Integer

end ScriptLexer
