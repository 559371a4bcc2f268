import ScriptLexer.Proofs.Binary.Value

/-!
# Arithmetic of binary numbers

Sums, products, reciprocals and powers of two are rounded from the exact ones. What is not below zero
stays so, but for the product of zero and infinity.
-/

namespace ScriptLexer

namespace Binary

/-! ## Rounded results -/

section

variable (format : BinaryFormat) {left right : Binary} {leftValue rightValue : ℚ}

theorem rounds_ofNat (value : ℕ) : Rounds format value (ofNat format value) :=
  ⟨false, value, 1, 0, one_pos, by simp [signed], rfl⟩

theorem rounds_mul (leftIs : left.toRat? = some leftValue) (rightIs : right.toRat? = some rightValue) :
    Rounds format (leftValue * rightValue) (mul format left right) := by
  rcases left with _ | _ | ⟨leftNegative, leftSignificand, leftExponent⟩
  · cases leftIs
  · cases leftIs
  rcases right with _ | _ | ⟨rightNegative, rightSignificand, rightExponent⟩
  · cases rightIs
  · cases rightIs
  cases leftIs
  cases rightIs
  refine ⟨_, _, 1, _, one_pos, ?_, rfl⟩
  rw [zpow_add₀ two_ne_zero]
  push_cast
  cases leftNegative <;> cases rightNegative <;> simp [signed] <;> ring

/-- What a sum takes from one of its terms, in places of the finer one of them. -/
private theorem signed_shiftLeft {place own : ℤ} (fine : place ≤ own) (negative : Bool)
    (significand : ℕ) :
    (((if negative then -1 else 1) * (significand <<< (own - place).toNat : ℕ) : ℤ) : ℚ) *
        2 ^ place = signed negative (significand * 2 ^ own) := by
  have shifted : ((significand <<< (own - place).toNat : ℕ) : ℚ) * 2 ^ place =
      significand * 2 ^ own := by
    rw [cast_shiftLeft_toNat (sub_nonneg.mpr fine), mul_assoc, ← zpow_add₀ two_ne_zero,
      sub_add_cancel]
  rw [Int.cast_mul, Int.cast_natCast, mul_assoc, shifted]
  cases negative <;> simp [signed]

private theorem signed_natAbs (number : ℤ) :
    signed (decide (number < 0)) number.natAbs = number := by
  rw [Nat.cast_natAbs, Int.cast_abs]
  rcases lt_or_ge number 0 with negative | nonnegative
  · have negative_cast : (number : ℚ) < 0 := by exact_mod_cast negative
    simp [signed, negative, abs_of_neg negative_cast]
  · have nonnegative_cast : (0 : ℚ) ≤ number := by exact_mod_cast nonnegative
    simp [signed, not_lt.mpr nonnegative, abs_of_nonneg nonnegative_cast]

theorem rounds_add (leftIs : left.toRat? = some leftValue) (rightIs : right.toRat? = some rightValue) :
    Rounds format (leftValue + rightValue) (add format left right) := by
  rcases left with _ | _ | ⟨leftNegative, leftSignificand, leftExponent⟩
  · cases leftIs
  · cases leftIs
  rcases right with _ | _ | ⟨rightNegative, rightSignificand, rightExponent⟩
  · cases rightIs
  · cases rightIs
  cases leftIs
  cases rightIs
  let place := min leftExponent rightExponent
  let sum : ℤ :=
    (if leftNegative then -1 else 1) * (leftSignificand <<< (leftExponent - place).toNat : ℕ) +
      (if rightNegative then -1 else 1) * (rightSignificand <<< (rightExponent - place).toNat : ℕ)
  have exact_eq : signed leftNegative (leftSignificand * 2 ^ leftExponent) +
      signed rightNegative (rightSignificand * 2 ^ rightExponent) = sum * 2 ^ place := by
    rw [← signed_shiftLeft (min_le_left leftExponent rightExponent),
      ← signed_shiftLeft (min_le_right leftExponent rightExponent), ← add_mul, ← Int.cast_add]
  have result_eq : add format (finite leftNegative leftSignificand leftExponent)
      (finite rightNegative rightSignificand rightExponent) =
        if sum = 0 then zero format (leftNegative && rightNegative)
        else round format (sum < 0) sum.natAbs 1 place := rfl
  rw [exact_eq, result_eq]
  by_cases cancelled : sum = 0
  · rw [if_pos cancelled, cancelled]
    refine ⟨leftNegative && rightNegative, 0, 1, 0, one_pos, ?_, rfl⟩
    cases leftNegative && rightNegative <;> simp [signed]
  · rw [if_neg cancelled]
    refine ⟨_, _, 1, _, one_pos, ?_, rfl⟩
    rw [Nat.cast_one, div_one, signed_mul, signed_natAbs]

theorem rounds_reciprocal (leftIs : left.toRat? = some leftValue) (nonzero : leftValue ≠ 0) :
    Rounds format leftValue⁻¹ (reciprocal format left) := by
  rcases left with _ | _ | ⟨negative, significand, exponent⟩
  · cases leftIs
  · cases leftIs
  cases leftIs
  have positive : 0 < significand := by
    apply Nat.pos_of_ne_zero
    rintro rfl
    exact nonzero (by cases negative <;> simp [signed])
  refine ⟨negative, 1, significand, -exponent, positive, ?_, if_neg positive.ne'⟩
  cases negative <;> simp [signed, mul_comm]

end

/-! ## Powers of two -/

section

variable {format : BinaryFormat} (sound : Sound format) {power : ℤ}
include sound

omit sound in
private theorem rounds_natAbs (power : ℤ) :
    Rounds format (2 ^ (power.natAbs : ℤ)) (round format false 1 1 power.natAbs) :=
  ⟨false, 1, 1, power.natAbs, one_pos, by simp [signed], rfl⟩

/-- There are powers and reciprocals of them up to the greatest number. -/
theorem toRat?_twoPow (above : |power| < format.greatestExponent + format.precision)
    (below : format.leastExponent < -|power| + 1) :
    (twoPow format power).toRat? = some (2 ^ power) := by
  rw [Int.abs_eq_natAbs] at above below
  have positive : (round format false 1 1 power.natAbs).toRat? = some (2 ^ (power.natAbs : ℤ)) :=
    (rounds_natAbs power).toRat?_eq sound (representable_zpow sound (by omega) above)
  unfold twoPow
  dsimp only
  split
  · next negative =>
    have inverse : ((2 : ℚ) ^ (power.natAbs : ℤ))⁻¹ = 2 ^ power := by
      rw [← zpow_neg]
      congr 1
      omega
    have rounds := rounds_reciprocal format positive (by positivity)
    rw [inverse] at rounds
    exact rounds.toRat?_eq sound (representable_zpow sound (by omega) (by omega))
  · next nonnegative =>
    rw [positive]
    congr 2
    omega

private theorem round_of_large (large : format.greatestExponent + format.precision ≤ |power|) :
    round format false 1 1 power.natAbs = infinite false := by
  rw [Int.abs_eq_natAbs] at large
  refine (rounds_natAbs power).eq_infinite sound ?_
  have least : (0 : ℚ) < 2 ^ (format.greatestExponent - 1) := by positivity
  have le : (2 : ℚ) ^ (format.greatestExponent + format.precision) ≤ 2 ^ (power.natAbs : ℤ) :=
    zpow_le_zpow_right₀ one_le_two large
  linarith

theorem twoPow_of_large (nonnegative : 0 ≤ power)
    (large : format.greatestExponent + format.precision ≤ power) :
    twoPow format power = infinite false := by
  rw [twoPow, round_of_large sound (large.trans (le_abs_self power))]
  exact if_neg (not_lt.mpr nonnegative)

/-- The reciprocal of an infinity is zero. -/
theorem twoPow_of_small (negative : power < 0)
    (small : power ≤ -(format.greatestExponent + format.precision)) :
    twoPow format power = zero format false := by
  have large := (le_neg_of_le_neg small).trans (neg_le_abs power)
  rw [twoPow, round_of_large sound large]
  exact if_pos negative

end

/-! ## Products with infinities and zeros -/

section

variable {format : BinaryFormat} {number : Binary} {value : ℚ}

theorem negative_eq_false {negative : Bool} {significand : ℕ} {exponent : ℤ}
    (positive : 0 < signed negative (significand * 2 ^ exponent)) : negative = false := by
  have nonnegative : (0 : ℚ) ≤ significand * 2 ^ exponent := by positivity
  cases negative with
  | false => rfl
  | true =>
    rw [signed, if_pos rfl] at positive
    linarith

theorem mul_infinite (positive : 0 < value) (toRat : number.toRat? = some value) :
    mul format number (infinite false) = infinite false := by
  rcases number with _ | _ | ⟨negative, significand, exponent⟩
  · cases toRat
  · cases toRat
  cases toRat
  have nonzero : significand ≠ 0 := by
    rintro rfl
    simp [signed] at positive
  simp [mul, negative_eq_false positive, nonzero]

theorem mul_zero_eq (positive : 0 < value) (toRat : number.toRat? = some value) :
    mul format number (zero format false) = zero format false := by
  rcases number with _ | _ | ⟨negative, significand, exponent⟩
  · cases toRat
  · cases toRat
  cases toRat
  simp [mul, zero, round, negative_eq_false positive]

theorem infinite_mul (positive : 0 < value) (toRat : number.toRat? = some value) :
    mul format (infinite false) number = infinite false := by
  rcases number with _ | _ | ⟨negative, significand, exponent⟩
  · cases toRat
  · cases toRat
  cases toRat
  have nonzero : significand ≠ 0 := by
    rintro rfl
    simp [signed] at positive
  simp [mul, negative_eq_false positive, nonzero]

theorem infinite_add (toRat : number.toRat? = some value) (negative : Bool) :
    add format (infinite negative) number = infinite negative := by
  rcases number with _ | _ | _
  · cases toRat
  · cases toRat
  · rfl

theorem add_infinite (toRat : number.toRat? = some value) (negative : Bool) :
    add format number (infinite negative) = infinite negative := by
  rcases number with _ | _ | _
  · cases toRat
  · cases toRat
  · rfl

end

/-! ## What is never not a number -/

theorem infinite_ne_nan (negative : Bool) : infinite negative ≠ nan :=
  nofun

theorem zero_ne_nan (format : BinaryFormat) (negative : Bool) : zero format negative ≠ nan :=
  nofun

theorem round_ne_nan (format : BinaryFormat) (negative : Bool) (numerator denominator : ℕ)
    (scale : ℤ) : round format negative numerator denominator scale ≠ nan := by
  unfold round zero
  split
  · exact nofun
  · dsimp only
    split_ifs <;> exact nofun

theorem ofDecimal_ne_nan (format : BinaryFormat) (significand : ℕ) (exponent : ℤ) :
    ofDecimal format significand exponent ≠ nan := by
  unfold ofDecimal zero
  dsimp only
  split
  · exact nofun
  split
  · exact nofun
  · exact round_ne_nan _ _ _ _ _

theorem neg_eq_nan_iff {number : Binary} : number.neg = nan ↔ number = nan := by
  cases number <;> simp [neg]

theorem Nonnegative.ne_nan {format : BinaryFormat} {number : Binary}
    (isNonnegative : Nonnegative format number) : number ≠ nan := by
  rintro rfl
  rcases isNonnegative with _ | ⟨toRat, -, -⟩
  cases toRat

/-! ## Results that are not below zero -/

namespace Nonnegative

variable {format : BinaryFormat} {left right : Binary} {value : ℚ} (sound : Sound format)
include sound

theorem add (leftIs : Nonnegative format left) (rightIs : Nonnegative format right) :
    Nonnegative format (left.add format right) := by
  cases leftIs with
  | infinite =>
    cases rightIs with
    | infinite => exact .infinite
    | finite rightValue _ _ =>
      rw [infinite_add rightValue]
      exact .infinite
  | finite leftValue _ leftNonneg =>
    cases rightIs with
    | infinite =>
      rw [add_infinite leftValue]
      exact .infinite
    | finite rightValue _ rightNonneg =>
      exact (rounds_add format leftValue rightValue).nonnegative sound
        (add_nonneg leftNonneg rightNonneg)

theorem mul (leftIs : Nonnegative format left) (positive : 0 < value)
    (rightIs : right.toRat? = some value) : Nonnegative format (left.mul format right) := by
  cases leftIs with
  | infinite =>
    rw [infinite_mul positive rightIs]
    exact .infinite
  | finite leftValue _ leftNonneg =>
    exact (rounds_mul format leftValue rightIs).nonnegative sound
      (mul_nonneg leftNonneg positive.le)

variable {power : ℤ}

theorem reaches_add (leftIs : Nonnegative format left) (rightIs : Nonnegative format right)
    (normal : format.leastExponent + format.precision ≤ power)
    (inRange : power ≤ format.greatestExponent + format.precision)
    (reaches : Reaches (2 ^ power) left) : Reaches (2 ^ power) (left.add format right) := by
  cases leftIs with
  | infinite =>
    cases rightIs with
    | infinite => exact .infinite false
    | finite rightValue _ _ =>
      rw [infinite_add rightValue]
      exact .infinite false
  | finite leftValue _ leftNonneg =>
    cases rightIs with
    | infinite =>
      rw [add_infinite leftValue]
      exact .infinite false
    | finite rightValue _ rightNonneg =>
      rw [reaches_iff_le leftValue leftNonneg] at reaches
      exact (rounds_add format leftValue rightValue).reaches_of_le sound normal inRange
        (by linarith)

theorem reaches_mul (leftIs : Nonnegative format left) {places : ℤ}
    (rightIs : right.toRat? = some (2 ^ places))
    (normal : format.leastExponent + format.precision ≤ power + places)
    (inRange : power + places ≤ format.greatestExponent + format.precision)
    (reaches : Reaches (2 ^ power) left) :
    Reaches (2 ^ (power + places)) (left.mul format right) := by
  have positive : (0 : ℚ) < 2 ^ places := by positivity
  cases leftIs with
  | infinite =>
    rw [infinite_mul positive rightIs]
    exact .infinite false
  | finite leftValue _ leftNonneg =>
    rw [reaches_iff_le leftValue leftNonneg] at reaches
    refine (rounds_mul format leftValue rightIs).reaches_of_le sound normal inRange ?_
    rw [zpow_add₀ two_ne_zero]
    gcongr

end Nonnegative

end Binary

end ScriptLexer
