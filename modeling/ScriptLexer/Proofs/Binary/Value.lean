import ScriptLexer.Proofs.Binary.Rounding

/-!
# The values of binary numbers

Finite numbers as rationals. A result that is rounded from an exact one is told by what is exact:
whether it is kept as it is, which powers of two the result reaches, and whether it is infinite.
-/

namespace ScriptLexer

namespace Binary

/-! ## Values -/

def signed (negative : Bool) (magnitude : ℚ) : ℚ :=
  if negative then -magnitude else magnitude

@[simp] theorem abs_signed (negative : Bool) (magnitude : ℚ) :
    |signed negative magnitude| = |magnitude| := by
  cases negative with
  | false => rfl
  | true => exact abs_neg magnitude

theorem signed_mul (negative : Bool) (left right : ℚ) :
    signed negative (left * right) = signed negative left * right := by
  cases negative with
  | false => rfl
  | true => exact (neg_mul left right).symm

/-- The value of a finite number. -/
def toRat? : Binary → Option ℚ
  | .finite negative significand exponent => some (signed negative (significand * 2 ^ exponent))
  | .nan | .infinite _ => none

/-- A finite number of the format has this value. -/
def Representable (format : BinaryFormat) (value : ℚ) : Prop :=
  ∃ negative significand exponent, Within format significand exponent ∧
    value = signed negative (significand * 2 ^ exponent)

theorem toRat?_zero (format : BinaryFormat) (negative : Bool) :
    (zero format negative).toRat? = some 0 := by
  cases negative <;> simp [zero, toRat?, signed]

theorem toRat?_neg (number : Binary) : number.neg.toRat? = number.toRat?.map (-·) := by
  rcases number with _ | _ | ⟨negative, significand, exponent⟩
  · rfl
  · rfl
  · cases negative <;> simp [neg, toRat?, signed]

theorem isZero_iff {number : Binary} : number.isZero = true ↔ number.toRat? = some 0 := by
  rcases number with _ | _ | ⟨negative, significand, exponent⟩
  · simp [isZero, toRat?]
  · simp [isZero, toRat?]
  · have positive : (2 : ℚ) ^ exponent ≠ 0 := by positivity
    cases negative <;> simp [isZero, toRat?, signed, positive]

theorem representable_signed_iff {format : BinaryFormat} {negative : Bool} {value : ℚ} :
    Representable format (signed negative value) ↔ Representable format value := by
  have flip {value : ℚ} (representable : Representable format value) :
      Representable format (-value) := by
    rcases representable with ⟨negative, significand, exponent, within, rfl⟩
    exact ⟨!negative, significand, exponent, within, by cases negative <;> simp [signed]⟩
  cases negative with
  | false => rfl
  | true => exact ⟨fun representable => neg_neg value ▸ flip representable, flip⟩

/-! ## Numbers of a format -/

section

variable {format : BinaryFormat} (sound : Sound format)
include sound

/-- Where a place is too great there are others for a number that is not. -/
theorem representable_of_lt {significand : ℕ} {exponent : ℤ}
    (digits : significand < 2 ^ format.precision) (least : format.leastExponent ≤ exponent)
    (lt : (significand * 2 ^ exponent : ℚ) < 2 ^ (format.greatestExponent + format.precision))
    (negative : Bool) : Representable format (signed negative (significand * 2 ^ exponent)) := by
  rcases le_or_gt exponent format.greatestExponent with small | large
  · exact ⟨negative, significand, exponent, ⟨digits, least, small⟩, rfl⟩
  · rcases Int.le.dest large.le with ⟨places, rfl⟩
    have moved : (significand * 2 ^ (format.greatestExponent + places) : ℚ) =
        (significand * 2 ^ places : ℕ) * 2 ^ format.greatestExponent := by
      rw [zpow_add₀ two_ne_zero, zpow_natCast]
      push_cast
      ring
    have place : (0 : ℚ) < 2 ^ format.greatestExponent := by positivity
    rw [moved, add_comm, zpow_add₀ two_ne_zero, mul_lt_mul_iff_left₀ place, zpow_natCast] at lt
    rw [moved]
    exact ⟨negative, _, _, ⟨by exact_mod_cast lt, sound.ordered, le_rfl⟩, rfl⟩

theorem representable_zpow {power : ℤ} (least : format.leastExponent ≤ power)
    (lt : power < format.greatestExponent + format.precision) : Representable format (2 ^ power) := by
  have digits : 1 < 2 ^ format.precision := Nat.one_lt_two_pow sound.precision_pos.ne'
  have below : (2 : ℚ) ^ power < 2 ^ (format.greatestExponent + format.precision) :=
    zpow_lt_zpow_right₀ one_lt_two lt
  simpa [signed] using
    representable_of_lt sound digits least (by simpa using below) false

theorem Representable.mul_zpow {value : ℚ} (representable : Representable format value) {places : ℤ}
    (left : 0 ≤ places)
    (lt : |value * 2 ^ places| < 2 ^ (format.greatestExponent + format.precision)) :
    Representable format (value * 2 ^ places) := by
  rcases representable with ⟨negative, significand, exponent, within, rfl⟩
  rw [← signed_mul, mul_assoc, ← zpow_add₀ two_ne_zero] at lt ⊢
  rw [abs_signed, abs_of_nonneg (by positivity)] at lt
  exact representable_of_lt sound within.digits (le_add_of_le_of_nonneg within.least left) lt negative

end

theorem representable_natCast {format : BinaryFormat} {value : ℕ}
    (digits : value < 2 ^ format.precision) (least : format.leastExponent ≤ 0)
    (greatest : 0 ≤ format.greatestExponent) : Representable format value :=
  ⟨false, value, 0, ⟨digits, least, greatest⟩, by simp [signed]⟩

theorem Representable.abs_lt {format : BinaryFormat} {value : ℚ}
    (representable : Representable format value) :
    |value| < 2 ^ (format.greatestExponent + format.precision) := by
  rcases representable with ⟨negative, significand, exponent, within, rfl⟩
  rw [abs_signed, abs_of_nonneg (by positivity)]
  exact within.lt

/-- Below a power of two there is room for a last place. -/
theorem Representable.abs_le {format : BinaryFormat} {value : ℚ}
    (representable : Representable format value) {power : ℤ} (lt : |value| < 2 ^ power) :
    |value| ≤ 2 ^ power - 2 ^ (power - format.precision) := by
  rcases representable with ⟨negative, significand, exponent, within, rfl⟩
  rw [abs_signed, abs_of_nonneg (by positivity)] at lt ⊢
  have place_pos : (0 : ℚ) < 2 ^ (power - format.precision) := by positivity
  have split : (2 : ℚ) ^ power = (2 ^ format.precision : ℕ) * 2 ^ (power - format.precision) := by
    push_cast
    rw [← zpow_natCast, ← zpow_add₀ two_ne_zero, add_sub_cancel]
  have less_one {count : ℕ} (less : count < 2 ^ format.precision) :
      (count * 2 ^ (power - format.precision) : ℚ) ≤ 2 ^ power - 2 ^ (power - format.precision) := by
    have count_le : ((count + 1 : ℕ) : ℚ) ≤ (2 ^ format.precision : ℕ) := by exact_mod_cast less
    rw [split, ← sub_one_mul]
    push_cast at count_le ⊢
    gcongr
    linarith
  rcases le_or_gt (power - format.precision) exponent with fine | coarse
  · rcases exists_pow_eq fine with ⟨places, equal⟩
    rw [equal, ← mul_assoc, ← Nat.cast_mul] at lt ⊢
    rw [split, mul_lt_mul_iff_left₀ place_pos] at lt
    exact less_one (by exact_mod_cast lt)
  · have le : (2 : ℚ) ^ exponent ≤ 2 ^ (power - format.precision) :=
      zpow_le_zpow_right₀ one_le_two coarse.le
    calc (significand * 2 ^ exponent : ℚ) ≤ significand * 2 ^ (power - format.precision) := by gcongr
      _ ≤ 2 ^ power - 2 ^ (power - format.precision) := less_one within.digits

/-! ## Rounded values -/

/-- The number is at least as large as the bound, whatever its sign is. -/
inductive Reaches (bound : ℚ) : Binary → Prop
  | infinite (negative : Bool) : Reaches bound (infinite negative)
  | finite {number : Binary} {value : ℚ} (toRat : number.toRat? = some value)
      (le : bound ≤ |value|) : Reaches bound number

/-- Infinity, or a number of the format that is not below zero. -/
inductive Nonnegative (format : BinaryFormat) : Binary → Prop
  | infinite : Nonnegative format (infinite false)
  | finite {number : Binary} {value : ℚ} (toRat : number.toRat? = some value)
      (representable : Representable format value) (nonnegative : 0 ≤ value) :
      Nonnegative format number

theorem reaches_iff_le {number : Binary} {value bound : ℚ} (toRat : number.toRat? = some value)
    (nonnegative : 0 ≤ value) : Reaches bound number ↔ bound ≤ value := by
  constructor
  · rintro (_ | ⟨other, le⟩)
    · cases toRat
    · rw [toRat] at other
      cases other
      rwa [abs_of_nonneg nonnegative] at le
  · exact fun le => .finite toRat (le.trans (le_abs_self value))

theorem Reaches.mono {number : Binary} {bound lower : ℚ} (reaches : Reaches bound number)
    (le : lower ≤ bound) : Reaches lower number := by
  cases reaches with
  | infinite negative => exact .infinite negative
  | finite toRat reached => exact .finite toRat (le.trans reached)

theorem ne_infinite {number : Binary} {value : ℚ} (toRat : number.toRat? = some value)
    (negative : Bool) : number ≠ infinite negative := by
  rintro rfl
  cases toRat

theorem Nonnegative.eq_infinite_iff {format : BinaryFormat} {number : Binary}
    (isNonnegative : Nonnegative format number) :
    number = .infinite false ↔
      Reaches (2 ^ (format.greatestExponent + format.precision)) number := by
  cases isNonnegative with
  | infinite => exact iff_of_true rfl (.infinite false)
  | finite toRat representable nonnegative =>
    rw [reaches_iff_le toRat nonnegative]
    exact iff_of_false (ne_infinite toRat false)
      (not_le.mpr ((le_abs_self _).trans_lt representable.abs_lt))

/-- The result comes from rounding the exact value. -/
def Rounds (format : BinaryFormat) (exact : ℚ) (result : Binary) : Prop :=
  ∃ (negative : Bool) (numerator denominator : ℕ) (scale : ℤ), 0 < denominator ∧
    exact = signed negative (numerator / denominator * 2 ^ scale) ∧
    result = round format negative numerator denominator scale

/-- The magnitude of the result where there is no greatest number. -/
structure Magnitude (format : BinaryFormat) (exact magnitude : ℚ) : Prop where
  eq : ∀ significand exponent, Within format significand exponent →
    exact = significand * 2 ^ exponent → magnitude = exact
  reaches_iff : ∀ power : ℤ, format.leastExponent + format.precision ≤ power →
    ((2 : ℚ) ^ power ≤ magnitude ↔
      (2 : ℚ) ^ power - 2 ^ (power - format.precision - 1) ≤ exact)

namespace Rounds

variable {format : BinaryFormat} {exact : ℚ} {result : Binary} (sound : Sound format)
include sound

theorem magnitude_zero : Magnitude format 0 0 where
  eq _ _ _ _ := rfl
  reaches_iff power _ := by
    have less : (2 : ℚ) ^ (power - format.precision - 1) < 2 ^ power :=
      zpow_lt_zpow_right₀ one_lt_two (by have := sound.precision_pos; omega)
    have positive : (0 : ℚ) < 2 ^ power := by positivity
    exact iff_of_false (by linarith) (by linarith)

/-- A result is infinite or finite by its magnitude. -/
theorem exists_stands (rounds : Rounds format exact result) :
    ∃ negative magnitude, exact = signed negative |exact| ∧ Magnitude format |exact| magnitude ∧
      Stands format negative magnitude result := by
  rcases rounds with ⟨negative, numerator, denominator, scale, denominator_pos, rfl, rfl⟩
  have nonnegative : (0 : ℚ) ≤ numerator / denominator * 2 ^ scale := by positivity
  rw [abs_signed, abs_of_nonneg nonnegative]
  rcases Nat.eq_zero_or_pos numerator with rfl | numerator_pos
  · have within : Within format 0 format.leastExponent := ⟨by positivity, le_rfl, sound.ordered⟩
    refine ⟨negative, 0, rfl, by simpa using magnitude_zero sound, ?_⟩
    rw [round, if_pos rfl]
    exact .finite within (by simp)
  · rcases exists_nearest numerator_pos denominator_pos negative scale with
      ⟨leading, count, nearest, equal⟩
    have magnitude : Magnitude format (numerator / denominator * 2 ^ scale)
        (count * 2 ^ lastPlace format leading) :=
      ⟨fun _ _ within same => nearest.value_eq within.digits within.least same,
        fun _ normal => nearest.reaches_iff sound normal⟩
    rw [equal]
    exact ⟨negative, _, rfl, magnitude, stands_assemble sound nearest.count_le (le_max_right _ _)
      (nearest.count_ge sound)⟩

/-- Numbers of the format are kept. -/
theorem toRat?_eq (rounds : Rounds format exact result) (representable : Representable format exact) :
    result.toRat? = some exact := by
  rcases representable with ⟨_, significand, exponent, within, value⟩
  have magnitude_eq : |exact| = significand * 2 ^ exponent := by
    rw [value, abs_signed, abs_of_nonneg (by positivity)]
  rcases rounds.exists_stands sound with ⟨negative, magnitude, sign, isMagnitude, stands⟩
  rw [isMagnitude.eq _ _ within magnitude_eq] at stands
  cases stands with
  | infinite large => exact absurd (magnitude_eq ▸ within.lt) (not_lt.mpr large)
  | finite _ equal => rw [toRat?, equal, ← sign]

theorem nonnegative (rounds : Rounds format exact result) (exact_nonneg : 0 ≤ exact) :
    Nonnegative format result := by
  rcases rounds.exists_stands sound with ⟨negative, magnitude, sign, isMagnitude, stands⟩
  cases negative with
  | false =>
    cases stands with
    | infinite => exact .infinite
    | @finite significand exponent within _ =>
      have value_nonneg : (0 : ℚ) ≤ significand * 2 ^ exponent := by positivity
      exact .finite rfl ⟨false, _, _, within, rfl⟩ value_nonneg
  | true =>
    -- Zero is the only number with this sign that is not below zero.
    have exact_eq : exact = 0 := by
      rw [signed, if_pos rfl] at sign
      linarith [abs_nonneg exact]
    have representable : Representable format exact :=
      ⟨false, 0, format.leastExponent, ⟨by positivity, le_rfl, sound.ordered⟩, by
        simp [exact_eq, signed]⟩
    exact .finite (rounds.toRat?_eq sound representable) representable exact_nonneg

theorem reaches_iff (rounds : Rounds format exact result) {power : ℤ}
    (normal : format.leastExponent + format.precision ≤ power)
    (inRange : power ≤ format.greatestExponent + format.precision) :
    Reaches (2 ^ power) result ↔
      (2 : ℚ) ^ power - 2 ^ (power - format.precision - 1) ≤ |exact| := by
  rcases rounds.exists_stands sound with ⟨negative, magnitude, -, isMagnitude, stands⟩
  rw [← isMagnitude.reaches_iff power normal]
  cases stands with
  | infinite large =>
    have le : (2 : ℚ) ^ power ≤ 2 ^ (format.greatestExponent + format.precision) :=
      zpow_le_zpow_right₀ one_le_two inRange
    exact iff_of_true (.infinite negative) (le.trans large)
  | @finite significand exponent _ equal =>
    have value : |signed negative (significand * 2 ^ exponent)| = magnitude := by
      rw [abs_signed, abs_of_nonneg (by positivity), equal]
    constructor
    · rintro (_ | ⟨toRat, le⟩)
      cases toRat
      exact value ▸ le
    · exact fun le => .finite rfl (value.symm ▸ le)

/-- Rounding does not take a power of two away. -/
theorem reaches_of_le (rounds : Rounds format exact result) {power : ℤ}
    (normal : format.leastExponent + format.precision ≤ power)
    (inRange : power ≤ format.greatestExponent + format.precision) (le : 2 ^ power ≤ exact) :
    Reaches (2 ^ power) result := by
  have half : (0 : ℚ) < 2 ^ (power - format.precision - 1) := by positivity
  have le_abs := le_abs_self exact
  exact (rounds.reaches_iff sound normal inRange).mpr (by linarith)

/-- Below half of a last place in front of a power of two a result stays below that power. -/
theorem exists_lt (rounds : Rounds format exact result) {power : ℤ}
    (normal : format.leastExponent + format.precision ≤ power)
    (inRange : power ≤ format.greatestExponent + format.precision) (exact_nonneg : 0 ≤ exact)
    (lt : exact < 2 ^ power - 2 ^ (power - format.precision - 1)) :
    ∃ value, result.toRat? = some value ∧ 0 ≤ value ∧ value < 2 ^ power := by
  have reaches_iff := rounds.reaches_iff sound normal inRange
  rw [abs_of_nonneg exact_nonneg] at reaches_iff
  have missed := mt reaches_iff.mp (not_le.mpr lt)
  cases rounds.nonnegative sound exact_nonneg with
  | infinite => exact absurd (.infinite false) missed
  | finite toRat _ nonnegative =>
    rw [reaches_iff_le toRat nonnegative, not_le] at missed
    exact ⟨_, toRat, nonnegative, missed⟩

theorem eq_infinite (rounds : Rounds format exact result)
    (large : 2 ^ (format.greatestExponent + format.precision) -
      2 ^ (format.greatestExponent - 1) ≤ exact) :
    result = infinite false := by
  have ordered := sound.ordered
  have less : (2 : ℚ) ^ (format.greatestExponent - 1) <
      2 ^ (format.greatestExponent + format.precision) :=
    zpow_lt_zpow_right₀ one_lt_two (by omega)
  have positive : 0 < exact := by linarith
  have reaches_iff := rounds.reaches_iff sound
    (by omega : _ ≤ format.greatestExponent + format.precision) le_rfl
  rw [add_sub_cancel_right, abs_of_pos positive] at reaches_iff
  exact (rounds.nonnegative sound positive.le).eq_infinite_iff.mpr (reaches_iff.mpr large)

end Rounds

end Binary

end ScriptLexer
