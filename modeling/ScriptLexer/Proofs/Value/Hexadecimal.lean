import ScriptLexer.Proofs.Binary.Arithmetic
import ScriptLexer.Proofs.Value.Integer
import ScriptLexer.Proofs.Value.Numeral

/-!
# Short hexadecimal numerals are exact

The digits are added up one by one, and the power of two comes in at the end. With up to thirteen
digits no step rounds, so that the only thing that can be lost is the power.
-/

namespace ScriptLexer

namespace Digits

theorem toNat_nil (base : ℕ) : toNat base [] = 0 :=
  rfl

theorem toNat_concat (base : ℕ) (digits : List ℕ) (digit : ℕ) :
    toNat base (digits ++ [digit]) = toNat base digits * base + digit := by
  rw [toNat, List.foldl_append]
  rfl

theorem toNat_append (base : ℕ) (front behind : List ℕ) :
    toNat base (front ++ behind) = toNat base front * base ^ behind.length + toNat base behind := by
  induction behind using List.reverseRecOn with
  | nil => simp [toNat]
  | append_singleton behind digit induction =>
    rw [← List.append_assoc, toNat_concat, toNat_concat, induction, List.length_append,
      List.length_singleton, pow_succ]
    ring

theorem toNat_lt {base : ℕ} {digits : List ℕ} (below : ∀ digit ∈ digits, digit < base) :
    toNat base digits < base ^ digits.length := by
  induction digits using List.reverseRecOn with
  | nil => simp [toNat]
  | append_singleton digits digit induction =>
    rw [List.forall_mem_append, List.forall_mem_singleton] at below
    have front := induction below.1
    rw [toNat_concat, List.length_append, List.length_singleton, pow_succ]
    nlinarith [below.2]

end Digits

namespace Numeral

open Digits Binary

/-! ## Digits before the point -/

/-- One more digit behind those that were taken. -/
def shiftIn (value : Binary) (digit : ℕ) : Binary :=
  .add .double (.mul .double value (.ofNat .double 16)) (.ofNat .double digit)

theorem hexadecimalWhole_concat (digits : List ℕ) (digit : ℕ) :
    hexadecimalWhole (digits ++ [digit]) = shiftIn (hexadecimalWhole digits) digit := by
  rw [hexadecimalWhole, List.foldl_append]
  rfl

theorem representable_nat {value : ℕ} (small : value < 2 ^ 53) : Representable .double value :=
  representable_natCast small (by decide) (by decide)

theorem toRat?_ofNat {value : ℕ} (small : value < 2 ^ 53) :
    (Binary.ofNat .double value).toRat? = some (value : ℚ) :=
  (rounds_ofNat .double value).toRat?_eq sound_double (representable_nat small)

/-- Sixteen times a number needs no more digits than the number does. -/
theorem rounds_shiftIn {value : Binary} {number : ℚ} {digit : ℕ}
    (toRat : value.toRat? = some number) (room : Representable .double (number * 16))
    (small : digit < 2 ^ 53) : Rounds .double (number * 16 + digit) (shiftIn value digit) := by
  have product : (Binary.mul .double value (.ofNat .double 16)).toRat? = some (number * 16) :=
    (rounds_mul .double toRat (toRat?_ofNat (by norm_num))).toRat?_eq sound_double room
  exact rounds_add .double product (toRat?_ofNat small)

theorem toRat?_hexadecimalWhole {digits : List ℕ} (small : toNat 16 digits < 2 ^ 53) :
    (hexadecimalWhole digits).toRat? = some (toNat 16 digits : ℚ) := by
  induction digits using List.reverseRecOn with
  | nil => exact (toRat?_zero .double false).trans (congrArg some Nat.cast_zero.symm)
  | append_singleton digits digit induction =>
    rw [toNat_concat] at small ⊢
    have room : Representable .double ((toNat 16 digits : ℚ) * 16) := by
      exact_mod_cast representable_nat (by omega : toNat 16 digits * 16 < 2 ^ 53)
    have rounds := rounds_shiftIn (induction (by omega)) room (by omega : digit < 2 ^ 53)
    rw [hexadecimalWhole_concat]
    push_cast
    exact rounds.toRat?_eq sound_double (by exact_mod_cast representable_nat small)

/-! ## Digits behind the point -/

/-- One more digit behind the point, and the weight of the one after it. -/
def addWeighted : Binary × Binary → ℕ → Binary × Binary
  | (value, weight), digit =>
    (.add .double value (.mul .double (.ofNat .double digit) weight),
      .mul .double weight (.twoPow .double (-4)))

theorem hexadecimalFraction_eq (value : Binary) (digits : List ℕ) :
    hexadecimalFraction value digits =
      (digits.foldl addWeighted (value, .twoPow .double (-4))).1 :=
  rfl

theorem sixteen_pow (places : ℕ) : (16 : ℚ) ^ places = 2 ^ (4 * places : ℤ) := by
  rw [zpow_mul, zpow_natCast]
  norm_num

theorem representable_sixteenths {count places : ℕ} (small : count < 2 ^ 53)
    (short : places ≤ 268) : Representable .double (count / 16 ^ places) := by
  refine ⟨false, count, -(4 * places : ℤ), ⟨small, ?_, ?_⟩, ?_⟩
  · exact show (-1074 : ℤ) ≤ _ by omega
  · exact show _ ≤ (971 : ℤ) by omega
  · rw [sixteen_pow, zpow_neg, ← div_eq_mul_inv]
    rfl

/-- The sum is exact with so many places behind the point, and so is the weight of the next digit. -/
structure ExactTo (state : Binary × Binary) (count places : ℕ) : Prop where
  value : state.1.toRat? = some ((count : ℚ) / 16 ^ places)
  weight : state.2.toRat? = some (1 / 16 ^ (places + 1))

theorem toRat?_sixteenth : (Binary.twoPow .double (-4)).toRat? = some (1 / 16) := by
  rw [toRat?_twoPow sound_double (by decide) (by decide)]
  norm_num

theorem ExactTo.addWeighted {state : Binary × Binary} {count places digit : ℕ}
    (exactTo : ExactTo state count places) (small : count * 16 + digit < 2 ^ 53)
    (short : places ≤ 13) :
    ExactTo (addWeighted state digit) (count * 16 + digit) (places + 1) := by
  have digitIs := toRat?_ofNat (by omega : digit < 2 ^ 53)
  have term := rounds_mul .double digitIs exactTo.weight
  rw [mul_one_div] at term
  have termIs := term.toRat?_eq sound_double (representable_sixteenths (by omega) (by omega))
  have sum := rounds_add .double exactTo.value termIs
  have sum_eq : (count : ℚ) / 16 ^ places + digit / 16 ^ (places + 1) =
      ((count * 16 + digit : ℕ) : ℚ) / 16 ^ (places + 1) := by
    push_cast
    field_simp
    ring
  have weight := rounds_mul .double exactTo.weight toRat?_sixteenth
  have weight_eq : (1 : ℚ) / 16 ^ (places + 1) * (1 / 16) = (1 : ℕ) / 16 ^ (places + 1 + 1) := by
    rw [one_div_mul_one_div, ← pow_succ, Nat.cast_one]
  rw [sum_eq] at sum
  rw [weight_eq] at weight
  constructor
  · exact sum.toRat?_eq sound_double (representable_sixteenths small (by omega))
  · rw [← Nat.cast_one]
    exact weight.toRat?_eq sound_double (representable_sixteenths (by norm_num) (by omega))

theorem exactTo_foldl {value : Binary} {number : ℕ} (toRat : value.toRat? = some (number : ℚ))
    {digits : List ℕ} (short : digits.length ≤ 13)
    (small : number * 16 ^ digits.length + toNat 16 digits < 2 ^ 53) :
    ExactTo (digits.foldl addWeighted (value, .twoPow .double (-4)))
      (number * 16 ^ digits.length + toNat 16 digits) digits.length := by
  induction digits using List.reverseRecOn with
  | nil => exact ⟨by simpa [toNat_nil] using toRat, by simpa using toRat?_sixteenth⟩
  | append_singleton digits digit induction =>
    have total : number * 16 ^ (digits ++ [digit]).length + toNat 16 (digits ++ [digit]) =
        (number * 16 ^ digits.length + toNat 16 digits) * 16 + digit := by
      rw [toNat_concat, List.length_append, List.length_singleton, pow_succ]
      ring
    rw [total] at small ⊢
    rw [List.length_append, List.length_singleton] at short ⊢
    rw [List.foldl_append]
    exact (induction (by omega) (by omega)).addWeighted small (by omega)

/-- With few digits nothing is rounded before the exponent comes in. -/
theorem toRat?_mantissa {whole fraction : List ℕ} (digits : ∀ digit ∈ whole ++ fraction, digit < 16)
    (short : (whole ++ fraction).length ≤ 13) :
    (hexadecimalFraction (hexadecimalWhole whole) fraction).toRat? =
      some ((toNat 16 (whole ++ fraction) : ℚ) / 16 ^ fraction.length) := by
  have small : toNat 16 (whole ++ fraction) < 2 ^ 53 :=
    calc toNat 16 (whole ++ fraction) < 16 ^ (whole ++ fraction).length := toNat_lt digits
      _ ≤ 16 ^ 13 := Nat.pow_le_pow_right (by norm_num) short
      _ < 2 ^ 53 := by norm_num
  have positive : 0 < 16 ^ fraction.length := by positivity
  rw [toNat_append] at small ⊢
  rw [List.length_append] at short
  have wholeIs := toRat?_hexadecimalWhole (by nlinarith : toNat 16 whole < 2 ^ 53)
  rw [hexadecimalFraction_eq]
  exact (exactTo_foldl wholeIs (by omega) small).value

/-! ## The exponent -/

/-- The power of two that goes with an exponent. -/
def power (exponent : Option SignedDigits) : ℤ :=
  exponent.elim 0 SignedDigits.toInt

/-- The power that is used in its place. -/
def boundedPower (exponent : SignedDigits) : ℤ :=
  let size := min (toNat 10 exponent.digits) exponentCeiling
  if exponent.negative then -size else size

theorem boundedPower_eq (exponent : SignedDigits) :
    boundedPower exponent = max (-0x7FFFFFFF) (min 0x7FFFFFFF exponent.toInt) := by
  have ceiling : exponentCeiling = 0x7FFFFFFF := rfl
  simp only [boundedPower, SignedDigits.toInt]
  split <;> omega

theorem boundedPower_le_iff {exponent : SignedDigits} :
    boundedPower exponent ≤ -1024 ↔ exponent.toInt ≤ -1024 := by
  rw [boundedPower_eq]
  omega

theorem le_boundedPower_iff {exponent : SignedDigits} :
    1024 ≤ boundedPower exponent ↔ 1024 ≤ exponent.toInt := by
  rw [boundedPower_eq]
  omega

theorem boundedPower_of_near {exponent : SignedDigits} (near : |exponent.toInt| < 1024) :
    boundedPower exponent = exponent.toInt := by
  rcases abs_lt.mp near with ⟨above, below⟩
  rw [boundedPower_eq]
  omega

theorem toRat?_twoPow_double {power : ℤ} (near : |power| < 1024) :
    (Binary.twoPow .double power).toRat? = some (2 ^ power) :=
  toRat?_twoPow sound_double near (show (-1074 : ℤ) < _ by omega)

theorem twoPow_eq_zero {power : ℤ} (small : power ≤ -1024) :
    Binary.twoPow .double power = .zero .double false :=
  twoPow_of_small sound_double (by omega) (show _ ≤ -(971 + ((53 : ℕ) : ℤ)) by omega)

theorem twoPow_eq_infinite {power : ℤ} (large : 1024 ≤ power) :
    Binary.twoPow .double power = .infinite false :=
  twoPow_of_large sound_double (by omega) (show 971 + ((53 : ℕ) : ℤ) ≤ _ by omega)

section

variable {value : Binary} {number : ℚ} {exponent : Option SignedDigits}

theorem scale_some (nonzero : number ≠ 0) (valueIs : value.toRat? = some number)
    (exponent : SignedDigits) :
    scale value (some exponent) =
      .mul .double value (.twoPow .double (boundedPower exponent)) := by
  have notZero : ¬ value.isZero = true := by
    rw [isZero_iff, valueIs]
    exact fun zero => nonzero (Option.some.inj zero)
  exact if_neg notZero

/-- Where the power and the result are numbers of the format, so is nothing in between that is not. -/
theorem toRat?_scale (valueIs : value.toRat? = some number)
    (near : number = 0 ∨ |power exponent| < 1024)
    (representable : Representable .double (number * 2 ^ power exponent)) :
    (scale value exponent).toRat? = some (number * 2 ^ power exponent) := by
  cases exponent with
  | none => simpa [scale, power] using valueIs
  | some exponent =>
    by_cases zero : number = 0
    · have isZero : value.isZero = true := isZero_iff.mpr (zero ▸ valueIs)
      rw [scale, if_pos isZero, valueIs, zero, zero_mul]
    · have small : |exponent.toInt| < 1024 := near.resolve_left zero
      rw [scale_some zero valueIs, boundedPower_of_near small]
      exact (rounds_mul .double valueIs (toRat?_twoPow_double small)).toRat?_eq sound_double
        representable

theorem scale_of_large (positive : 0 < number) (valueIs : value.toRat? = some number)
    (large : 1024 ≤ power exponent) : scale value exponent = .infinite false := by
  cases exponent with
  | none => exact absurd large (by decide)
  | some exponent =>
    rw [scale_some positive.ne' valueIs, twoPow_eq_infinite (le_boundedPower_iff.mpr large)]
    exact mul_infinite positive valueIs

/-- The power is zero already where the number that it would give is not. -/
theorem scale_of_small (positive : 0 < number) (valueIs : value.toRat? = some number)
    (small : power exponent ≤ -1024) : scale value exponent = .zero .double false := by
  cases exponent with
  | none => exact absurd small (by decide)
  | some exponent =>
    rw [scale_some positive.ne' valueIs, twoPow_eq_zero (boundedPower_le_iff.mpr small)]
    exact mul_zero_eq positive valueIs

end

/-! ## The number in a text -/

theorem Mantissa.digits {base : ℕ} {characters : List Char} {whole fraction : List ℕ}
    (mantissa : Mantissa base characters whole fraction) :
    ∀ digit ∈ whole ++ fraction, digit < base := by
  cases mantissa with
  | plain spells _ => simpa using lt_of_spells spells
  | pointed spellsWhole spellsFraction _ =>
    exact List.forall_mem_append.mpr ⟨lt_of_spells spellsWhole, lt_of_spells spellsFraction⟩

theorem toRat?_ofText {text : String} {part : List Char} {negative : Bool} {numeral : Numeral}
    (longest : Longest (Blank.trimStart text.toList) part)
    (spelled : SpelledSigned part negative numeral) :
    (ofText text).toRat? = numeral.value.toRat?.map (signed negative) := by
  rw [ofText_of_longest longest spelled]
  cases negative with
  | false => exact Option.map_id_apply.symm
  | true => exact toRat?_neg _

/-- A hexadecimal numeral of up to 13 digits stands for exactly what it spells, if a double is that,
while its power of two is between -1024 and 1024. Beyond these bounds the power alone is infinite or
zero, and then so is the number, even where the digits would bring it back into range. -/
theorem hexadecimal_exact_within_powers (text : String) {part : List Char} {negative : Bool}
    {whole fraction : List ℕ} {exponent : Option SignedDigits}
    (longest : Longest (Blank.trimStart text.toList) part)
    (spelled : SpelledSigned part negative (hexadecimal whole fraction exponent))
    (short : (whole ++ fraction).length ≤ 13) :
    let number : ℕ := Nat.ofDigits 16 (whole ++ fraction).reverse
    let power : ℤ := exponent.elim 0 SignedDigits.toInt
    let exact : ℚ := signed negative (number / 16 ^ fraction.length * 2 ^ power)
    (number = 0 ∨ |power| < 1024 → Representable .double exact →
        (ofText text).toRat? = some exact) ∧
      (number ≠ 0 → 1024 ≤ power → ofText text = .infinite negative) ∧
      (number ≠ 0 → power ≤ -1024 → ofText text = .zero .double negative) := by
  intro number power exact
  have value_eq := ofText_of_longest longest spelled
  have digits : ∀ digit ∈ whole ++ fraction, digit < 16 := by
    cases spelled with
    | intro _ spelled =>
      cases spelled with
      | hexadecimal _ isMantissa _ => exact isMantissa.digits
  have mantissaIs := toRat?_mantissa digits short
  rw [toNat_eq] at mantissaIs
  have positive (nonzero : number ≠ 0) : (0 : ℚ) < number / 16 ^ fraction.length := by
    have number_pos : (0 : ℚ) < number := by exact_mod_cast Nat.pos_of_ne_zero nonzero
    positivity
  refine ⟨fun near representable => ?_, fun nonzero large => ?_, fun nonzero small => ?_⟩
  · have zero_or : (number : ℚ) / 16 ^ fraction.length = 0 ∨ |power| < 1024 :=
      near.imp_left fun zero => by rw [zero, Nat.cast_zero, zero_div]
    have scaled := toRat?_scale mantissaIs zero_or (representable_signed_iff.mp representable)
    rw [toRat?_ofText longest spelled]
    exact congrArg (Option.map (signed negative)) scaled
  · rw [value_eq, value, scale_of_large (positive nonzero) mantissaIs large]
    cases negative <;> rfl
  · rw [value_eq, value, scale_of_small (positive nonzero) mantissaIs small]
    cases negative <;> rfl

/-- A number with fewer digits than most, and one that is lost although the format has it. -/
theorem hexadecimal_exact_within_powers_subnormal :
    Longest "-0x1.8p-1023z".toList "-0x1.8p-1023".toList ∧
      Representable .double (-(3 * 2 ^ (-1024 : ℤ))) ∧
      (ofText " -0x1.8p-1023z").toRat? = some (-(3 * 2 ^ (-1024 : ℤ))) ∧
      Longest "0x0.000000000001p1024".toList "0x0.000000000001p1024".toList ∧
      ofText "0x0.000000000001p1024" = .infinite false := by
  have taken : split? (splitSign "-0x1.8p-1023z".toList).2 =
      some (hexadecimal [1] [8] (some { negative := true, digits := [1, 0, 2, 3] }), "z".toList) :=
    rfl
  rcases exists_longest_of_split? taken with ⟨part, parts, spelled, longest⟩
  have part_eq : "-0x1.8p-1023".toList = part := List.append_cancel_right parts
  subst part_eq
  have number_eq : Nat.ofDigits 16 [8, 1] = 24 := rfl
  have power_eq : (2 : ℚ) ^ (-1023 : ℤ) = 2 ^ (-1024 : ℤ) * 2 := by
    rw [show (-1023 : ℤ) = -1024 + 1 by decide, zpow_add_one₀ two_ne_zero]
  have exact_eq : signed true ((Nat.ofDigits 16 [8, 1] : ℕ) / 16 ^ 1 * 2 ^ (-1023 : ℤ)) =
      -(3 * 2 ^ (-1024 : ℤ)) := by
    rw [number_eq, power_eq, signed, if_pos rfl]
    generalize (2 : ℚ) ^ (-1024 : ℤ) = fine
    push_cast
    ring
  have representable : Representable .double (-(3 * 2 ^ (-1024 : ℤ))) :=
    ⟨true, 3, -1024, ⟨by decide, by decide, by decide⟩, rfl⟩
  have kept := (hexadecimal_exact_within_powers " -0x1.8p-1023z" longest spelled (by decide)).1
    (.inr (by decide)) (exact_eq ▸ representable)
  have takenFine : split? (splitSign "0x0.000000000001p1024".toList).2 =
      some (hexadecimal [0] [0, 0, 0, 0, 0, 0, 0, 0, 0, 0, 0, 1]
        (some { negative := false, digits := [1, 0, 2, 4] }), []) := rfl
  rcases exists_longest_of_split? takenFine with ⟨fine, fineParts, fineSpelled, fineLongest⟩
  rw [List.append_nil] at fineParts
  subst fineParts
  have lost := (hexadecimal_exact_within_powers "0x0.000000000001p1024" fineLongest fineSpelled
    (by decide)).2.1 (by decide) (by decide)
  exact ⟨longest, representable, kept.trans (congrArg some exact_eq), fineLongest, lost⟩

/-- The reciprocal of an infinity takes the place of a number that the format has. -/
theorem power_lost_to_zero :
    let exact : ℚ := signed false ((Nat.ofDigits 16 [1] : ℕ) / 16 ^ 0 * 2 ^ (-1024 : ℤ))
    Longest "0x1p-1024".toList "0x1p-1024".toList ∧
      SpelledSigned "0x1p-1024".toList false
        (hexadecimal [1] [] (some { negative := true, digits := [1, 0, 2, 4] })) ∧
      Representable .double exact ∧ (ofText "0x1p-1024").toRat? ≠ some exact := by
  intro exact
  have taken : split? (splitSign "0x1p-1024".toList).2 =
      some (hexadecimal [1] [] (some { negative := true, digits := [1, 0, 2, 4] }), []) := rfl
  rcases exists_longest_of_split? taken with ⟨part, parts, spelled, longest⟩
  rw [List.append_nil] at parts
  subst parts
  have exact_eq : exact = 2 ^ (-1024 : ℤ) := by
    have number_eq : Nat.ofDigits 16 [1] = 1 := rfl
    simp only [exact, number_eq, signed, Bool.false_eq_true, if_false, Nat.cast_one, pow_zero,
      div_one, one_mul]
  have representable : Representable .double exact := by
    rw [exact_eq]
    exact representable_zpow sound_double (by decide) (by decide)
  have zero : ofText "0x1p-1024" = .zero .double false := by decide +kernel
  refine ⟨longest, spelled, representable, ?_⟩
  rw [zero, toRat?_zero, exact_eq]
  intro same
  have positive : (0 : ℚ) < 2 ^ (-1024 : ℤ) := by positivity
  exact positive.ne (Option.some.inj same)

end Numeral

end ScriptLexer
