import Mathlib.Algebra.Order.Field.Power
import Mathlib.Algebra.Order.Ring.Rat
import Mathlib.Data.Nat.Cast.Order.Field
import Mathlib.Tactic.FieldSimp
import Mathlib.Tactic.Linarith
import Mathlib.Tactic.NormNum
import Mathlib.Tactic.Positivity
import Mathlib.Tactic.Ring
import ScriptLexer.Binary

/-!
# Rounding

What becomes of an exact result. A number of the format is kept as it is. How far another one is moved
is told by the powers of two that it reaches: it reaches one where it is nearer to it than to any number
below, or as near, and it is infinite where it reaches the one behind the greatest number.
-/

namespace ScriptLexer

namespace Binary

/-! ## Shifts as powers -/

section

variable {numerator denominator : ℕ}

theorem cast_shiftLeft_toNat {value : ℕ} {places : ℤ} (nonnegative : 0 ≤ places) :
    ((value <<< places.toNat : ℕ) : ℚ) = value * 2 ^ places := by
  rw [Nat.shiftLeft_eq, Nat.cast_mul, Nat.cast_pow, Nat.cast_ofNat, ← zpow_natCast,
    Int.toNat_of_nonneg nonnegative]

/-- A ratio is shifted on the side where the shift is none to the right. -/
theorem shifted_ratio (numerator denominator : ℕ) (places : ℤ) :
    ((numerator <<< places.toNat : ℕ) : ℚ) / (denominator <<< (-places).toNat : ℕ) =
      numerator / denominator * 2 ^ places := by
  rcases le_total 0 places with left | right
  · have none : (-places).toNat = 0 := by omega
    rw [cast_shiftLeft_toNat left, none, Nat.shiftLeft_zero, mul_div_right_comm]
  · have none : places.toNat = 0 := by omega
    rw [cast_shiftLeft_toNat (by omega : 0 ≤ -places), none, Nat.shiftLeft_zero, zpow_neg,
      div_mul_eq_div_div, div_inv_eq_mul]

theorem shiftLeft_pos {value : ℕ} (positive : 0 < value) (places : ℕ) : 0 < value <<< places := by
  rw [Nat.shiftLeft_eq]
  positivity

theorem shiftLeft_le_shiftLeft_iff (positive : 0 < denominator) (places : ℤ) :
    denominator <<< places.toNat ≤ numerator <<< (-places).toNat ↔
      (2 : ℚ) ^ places ≤ numerator / denominator := by
  have shifted := shifted_ratio numerator denominator (-places)
  have below : (0 : ℚ) < (denominator <<< places.toNat : ℕ) := by
    exact_mod_cast shiftLeft_pos positive _
  rw [neg_neg] at shifted
  rw [← Nat.cast_le (α := ℚ), ← one_le_div below, shifted, zpow_neg, ← div_eq_mul_inv,
    one_le_div (by positivity)]

theorem log2_bounds {value : ℕ} (positive : 0 < value) :
    (2 : ℚ) ^ (value.log2 : ℤ) ≤ value ∧ (value : ℚ) < 2 ^ ((value.log2 : ℤ) + 1) := by
  constructor
  · rw [zpow_natCast]
    exact_mod_cast Nat.log2_self_le positive.ne'
  · rw [← Nat.cast_succ, zpow_natCast]
    exact_mod_cast Nat.lt_log2_self

/-- The lengths of its terms leave two leading exponents for a ratio. -/
theorem ratio_bounds (numerator_pos : 0 < numerator) (denominator_pos : 0 < denominator) :
    (2 : ℚ) ^ ((numerator.log2 : ℤ) - denominator.log2 - 1) ≤ numerator / denominator ∧
      (numerator / denominator : ℚ) < 2 ^ ((numerator.log2 : ℤ) - denominator.log2 + 1) := by
  rcases log2_bounds numerator_pos with ⟨numerator_ge, numerator_lt⟩
  rcases log2_bounds denominator_pos with ⟨denominator_ge, denominator_lt⟩
  have positive : (0 : ℚ) < denominator := by exact_mod_cast denominator_pos
  constructor
  · rw [le_div_iff₀ positive]
    calc (2 : ℚ) ^ ((numerator.log2 : ℤ) - denominator.log2 - 1) * denominator
        ≤ 2 ^ ((numerator.log2 : ℤ) - denominator.log2 - 1) *
          2 ^ ((denominator.log2 : ℤ) + 1) := by gcongr
      _ = 2 ^ (numerator.log2 : ℤ) := by
        rw [← zpow_add₀ two_ne_zero]
        congr 1
        omega
      _ ≤ numerator := numerator_ge
  · rw [div_lt_iff₀ positive]
    calc (numerator : ℚ) < 2 ^ ((numerator.log2 : ℤ) + 1) := numerator_lt
      _ = 2 ^ ((numerator.log2 : ℤ) - denominator.log2 + 1) * 2 ^ (denominator.log2 : ℤ) := by
        rw [← zpow_add₀ two_ne_zero]
        congr 1
        omega
      _ ≤ 2 ^ ((numerator.log2 : ℤ) - denominator.log2 + 1) * denominator := by gcongr

/-- A ratio is between two powers of two, one of them the double of the other. -/
theorem leadingExponent_spec (numerator_pos : 0 < numerator) (denominator_pos : 0 < denominator) :
    (2 : ℚ) ^ leadingExponent numerator denominator ≤ numerator / denominator ∧
      (numerator / denominator : ℚ) < 2 ^ (leadingExponent numerator denominator + 1) := by
  rcases ratio_bounds numerator_pos denominator_pos with ⟨below, above⟩
  unfold leadingExponent
  simp only [shiftLeft_le_shiftLeft_iff denominator_pos]
  split
  · next reached => exact ⟨reached, above⟩
  · next missed =>
    rw [sub_add_cancel]
    exact ⟨below, not_le.mp missed⟩

/-! ## The nearest integer -/

theorem roundToEven_le_iff (positive : 0 < denominator) (count : ℕ) :
    roundToEven numerator denominator ≤ count ↔
      2 * numerator < (2 * count + 1) * denominator ∨
        2 * numerator = (2 * count + 1) * denominator ∧ Even count := by
  have parts := Nat.div_add_mod numerator denominator
  have rest := Nat.mod_lt numerator positive
  set quotient := numerator / denominator with quotient_eq
  set remainder := numerator % denominator with remainder_eq
  have rounded : roundToEven numerator denominator =
      if 2 * remainder < denominator ∨ 2 * remainder = denominator ∧ quotient % 2 = 0 then quotient
      else quotient + 1 := rfl
  rw [rounded, ← parts, Nat.even_iff]
  rcases lt_trichotomy quotient count with less | equal | greater
  · rcases Nat.exists_eq_add_of_lt less with ⟨distance, rfl⟩
    have small : 2 * (denominator * quotient + remainder) <
        (2 * (quotient + distance + 1) + 1) * denominator := by nlinarith
    refine iff_of_true ?_ (.inl small)
    split <;> omega
  · rw [equal]
    have shifted : (2 * count + 1) * denominator = 2 * (denominator * count) + denominator := by ring
    rw [shifted]
    split <;> omega
  · rcases Nat.exists_eq_add_of_lt greater with ⟨distance, equal⟩
    have large : (2 * count + 1) * denominator < 2 * (denominator * quotient + remainder) := by
      rw [equal]
      nlinarith
    refine iff_of_false ?_ ?_
    · split <;> omega
    · rintro (less | ⟨equal, -⟩)
      · exact absurd less (by omega)
      · exact absurd equal (by omega)

end

/-! ## The nearest number

A format has numbers whose last place is as fine as their leading place allows. -/

/-- The place that is the last one of numbers with that leading place. -/
def lastPlace (format : BinaryFormat) (leading : ℤ) : ℤ :=
  max (leading + 1 - format.precision) format.leastExponent

/-- Of the numbers around the exact one, the nearest is `count` times the last place. -/
structure Nearest (format : BinaryFormat) (exact : ℚ) (leading : ℤ) (count : ℕ) : Prop where
  leading_le : 2 ^ leading ≤ exact
  lt_leading : exact < 2 ^ (leading + 1)
  le_iff : ∀ other : ℕ, count ≤ other ↔
    exact < (other + 1 / 2) * 2 ^ lastPlace format leading ∨
      exact = (other + 1 / 2) * 2 ^ lastPlace format leading ∧ Even other

/-- What makes a format one: there is a digit at least, and a place for it. -/
structure Sound (format : BinaryFormat) : Prop where
  precision_pos : 0 < format.precision
  ordered : format.leastExponent ≤ format.greatestExponent

theorem sound_double : Sound .double where
  precision_pos := by decide
  ordered := by decide

theorem exists_pow_eq {place power : ℤ} (coarse : place ≤ power) :
    ∃ places : ℕ, (2 : ℚ) ^ power = places * 2 ^ place := by
  rcases Int.le.dest coarse with ⟨places, equal⟩
  refine ⟨2 ^ places, ?_⟩
  rw [← equal, zpow_add₀ two_ne_zero, zpow_natCast, mul_comm]
  push_cast
  rfl

namespace Nearest

variable {format : BinaryFormat} {exact : ℚ} {leading : ℤ} {count : ℕ}

theorem le_of_le (nearest : Nearest format exact leading count) {other : ℕ}
    (le : exact ≤ other * 2 ^ lastPlace format leading) : count ≤ other := by
  have place : (0 : ℚ) < 2 ^ lastPlace format leading := by positivity
  exact (nearest.le_iff other).mpr (.inl (by linarith))

theorem le_of_ge (nearest : Nearest format exact leading count) {other : ℕ}
    (ge : other * 2 ^ lastPlace format leading ≤ exact) : other ≤ count := by
  have place : (0 : ℚ) < 2 ^ lastPlace format leading := by positivity
  apply Nat.le_of_not_lt
  intro less
  cases other with
  | zero => exact Nat.not_lt_zero _ less
  | succ other =>
    push_cast at ge
    rcases (nearest.le_iff other).mp (Nat.le_of_lt_succ less) with below | ⟨half, -⟩
    · linarith
    · linarith

/-- Powers of two that are no finer than the last place are not passed. -/
theorem pow_le_value (nearest : Nearest format exact leading count) {power : ℤ}
    (coarse : lastPlace format leading ≤ power) (le : 2 ^ power ≤ exact) :
    (2 : ℚ) ^ power ≤ count * 2 ^ lastPlace format leading := by
  rcases exists_pow_eq coarse with ⟨places, split⟩
  have count_ge : places ≤ count := nearest.le_of_ge (split ▸ le)
  rw [split]
  gcongr

theorem value_le_pow (nearest : Nearest format exact leading count) {power : ℤ}
    (coarse : lastPlace format leading ≤ power) (le : exact ≤ 2 ^ power) :
    count * 2 ^ lastPlace format leading ≤ (2 : ℚ) ^ power := by
  rcases exists_pow_eq coarse with ⟨places, split⟩
  have count_le : count ≤ places := nearest.le_of_le (split ▸ le)
  rw [split]
  gcongr

theorem count_le (nearest : Nearest format exact leading count) :
    count ≤ 2 ^ format.precision := by
  apply nearest.le_of_le
  push_cast
  rw [← zpow_natCast, ← zpow_add₀ two_ne_zero]
  refine nearest.lt_leading.le.trans (zpow_le_zpow_right₀ one_le_two ?_)
  unfold lastPlace
  omega

/-- All digits are there, but for the numbers at the finest place. -/
theorem count_ge (nearest : Nearest format exact leading count) (sound : Sound format) :
    lastPlace format leading = format.leastExponent ∨ 2 ^ (format.precision - 1) ≤ count := by
  rcases max_choice (leading + 1 - format.precision) format.leastExponent with normal | least
  · right
    apply nearest.le_of_ge
    have precision_pos := sound.precision_pos
    push_cast
    rw [lastPlace, normal, ← zpow_natCast, ← zpow_add₀ two_ne_zero]
    refine le_trans (zpow_le_zpow_right₀ one_le_two ?_) nearest.leading_le
    omega
  · exact .inl least

/-- A number of the format is nearest to itself. -/
theorem value_eq (nearest : Nearest format exact leading count) {significand : ℕ} {exponent : ℤ}
    (digits : significand < 2 ^ format.precision) (least : format.leastExponent ≤ exponent)
    (equal : exact = significand * 2 ^ exponent) :
    count * 2 ^ lastPlace format leading = exact := by
  have below : (2 : ℚ) ^ leading < 2 ^ ((format.precision : ℤ) + exponent) := by
    refine nearest.leading_le.trans_lt ?_
    rw [equal, zpow_add₀ two_ne_zero, zpow_natCast]
    have bound : (significand : ℚ) < 2 ^ format.precision := by exact_mod_cast digits
    gcongr
  have leading_lt := (zpow_lt_zpow_iff_right₀ one_lt_two).mp below
  have fine : lastPlace format leading ≤ exponent := by
    unfold lastPlace
    omega
  rcases Int.le.dest fine with ⟨places, split⟩
  have whole : exact = (significand * 2 ^ places : ℕ) * 2 ^ lastPlace format leading := by
    rw [equal, ← split, zpow_add₀ two_ne_zero, zpow_natCast]
    push_cast
    ring
  have count_eq : count = significand * 2 ^ places :=
    Nat.le_antisymm (nearest.le_of_le whole.le) (nearest.le_of_ge whole.ge)
  rw [count_eq, whole]

/-- All digits are used up from half of the last place below that on, since the count below is odd. -/
theorem full_iff (nearest : Nearest format exact leading count) (sound : Sound format) :
    2 ^ format.precision ≤ count ↔
      (2 ^ format.precision - 1 / 2) * 2 ^ lastPlace format leading ≤ exact := by
  have positive : 0 < 2 ^ format.precision := by positivity
  have odd : ¬ Even (2 ^ format.precision - 1) := by
    rw [Nat.not_even_iff_odd]
    refine Nat.Even.sub_odd positive ?_ odd_one
    exact Nat.even_pow.mpr ⟨even_two, sound.precision_pos.ne'⟩
  have below : (((2 ^ format.precision - 1 : ℕ) : ℚ) + 1 / 2) = 2 ^ format.precision - 1 / 2 := by
    rw [Nat.cast_pred positive]
    push_cast
    ring
  have le_iff := nearest.le_iff (2 ^ format.precision - 1)
  simp only [below, odd, and_false, or_false] at le_iff
  rw [← not_lt (a := exact), ← le_iff]
  omega

/-- The power that is behind the last number with the leading place. -/
theorem reaches_next_iff (nearest : Nearest format exact leading count) (sound : Sound format)
    {power : ℤ} (normal : format.leastExponent + format.precision ≤ power)
    (next : power = leading + 1) :
    (2 : ℚ) ^ power ≤ count * 2 ^ lastPlace format leading ↔
      (2 : ℚ) ^ power - 2 ^ (power - format.precision - 1) ≤ exact := by
  have place : lastPlace format leading = power - format.precision := by
    unfold lastPlace
    omega
  have split : (2 : ℚ) ^ power = 2 ^ format.precision * 2 ^ (power - format.precision) := by
    rw [← zpow_natCast, ← zpow_add₀ two_ne_zero]
    congr 1
    omega
  have place_pos : (0 : ℚ) < 2 ^ (power - format.precision) := by positivity
  have half : (2 : ℚ) ^ (power - format.precision - 1) = 2 ^ (power - format.precision) / 2 :=
    zpow_sub_one₀ two_ne_zero _
  have full := nearest.full_iff sound
  rw [place, sub_mul, ← split, one_div_mul_eq_div, ← half, ← Nat.cast_le (α := ℚ)] at full
  push_cast at full
  rw [place, split, mul_le_mul_iff_left₀ place_pos, ← split, full]

/-- A power of two is reached from half of the last place below it on, where the last place is that of
the numbers below. -/
theorem reaches_iff (nearest : Nearest format exact leading count) (sound : Sound format) {power : ℤ}
    (normal : format.leastExponent + format.precision ≤ power) :
    (2 : ℚ) ^ power ≤ count * 2 ^ lastPlace format leading ↔
      (2 : ℚ) ^ power - 2 ^ (power - format.precision - 1) ≤ exact := by
  have precision_pos := sound.precision_pos
  have half_pos : (0 : ℚ) < 2 ^ (power - format.precision - 1) := by positivity
  rcases lt_trichotomy power (leading + 1) with below | here | above
  · -- The exact number is above the power already.
    have le : (2 : ℚ) ^ power ≤ 2 ^ leading := zpow_le_zpow_right₀ one_le_two (by omega)
    have coarse : lastPlace format leading ≤ leading := by
      unfold lastPlace
      omega
    have reached := nearest.pow_le_value coarse nearest.leading_le
    have leading_le := nearest.leading_le
    exact iff_of_true (le.trans reached) (by linarith)
  · exact nearest.reaches_next_iff sound normal here
  · -- Nothing with this leading place comes near to it.
    have double : (2 : ℚ) ^ power = 2 * 2 ^ (power - 1) := by
      rw [zpow_sub_one₀ two_ne_zero]
      ring
    have half_le : (2 : ℚ) ^ (power - format.precision - 1) ≤ 2 ^ (power - 1) :=
      zpow_le_zpow_right₀ one_le_two (by omega)
    have exact_lt : exact < 2 ^ (power - 1) :=
      nearest.lt_leading.trans_le (zpow_le_zpow_right₀ one_le_two (by omega))
    have coarse : lastPlace format leading ≤ power - 1 := by
      unfold lastPlace
      omega
    have value_le := nearest.value_le_pow coarse exact_lt.le
    have power_pos : (0 : ℚ) < 2 ^ (power - 1) := by positivity
    exact iff_of_false (by linarith) (by linarith)

end Nearest

/-! ## What rounding gives -/

/-- A finite number without its sign. -/
structure Within (format : BinaryFormat) (significand : ℕ) (exponent : ℤ) : Prop where
  digits : significand < 2 ^ format.precision
  least : format.leastExponent ≤ exponent
  greatest : exponent ≤ format.greatestExponent

theorem Within.lt {format : BinaryFormat} {significand : ℕ} {exponent : ℤ}
    (within : Within format significand exponent) :
    (significand * 2 ^ exponent : ℚ) < 2 ^ (format.greatestExponent + format.precision) := by
  have digits : (significand : ℚ) < 2 ^ format.precision := by exact_mod_cast within.digits
  have exponent_le : (2 : ℚ) ^ exponent ≤ 2 ^ format.greatestExponent :=
    zpow_le_zpow_right₀ one_le_two within.greatest
  calc (significand * 2 ^ exponent : ℚ) < 2 ^ format.precision * 2 ^ exponent := by gcongr
    _ ≤ 2 ^ format.precision * 2 ^ format.greatestExponent := by gcongr
    _ = 2 ^ (format.greatestExponent + format.precision) := by
      rw [zpow_add₀ two_ne_zero, zpow_natCast, mul_comm]

/-- The number that is so many times the place, which has one digit less where the count is full. -/
def assemble (format : BinaryFormat) (negative : Bool) (count : ℕ) (place : ℤ) : Binary :=
  let (significand, exponent) :=
    if count = 1 <<< format.precision then (format.unit, place + 1) else (count, place)
  if format.greatestExponent < exponent then infinite negative
  else finite negative significand exponent

/-- A result of this sign and magnitude. There is no finite number from there on where all digits of the
greatest place are used up. -/
inductive Stands (format : BinaryFormat) (negative : Bool) (magnitude : ℚ) : Binary → Prop
  | infinite (large : 2 ^ (format.greatestExponent + format.precision) ≤ magnitude) :
      Stands format negative magnitude (infinite negative)
  | finite {significand : ℕ} {exponent : ℤ} (within : Within format significand exponent)
      (value : (significand * 2 ^ exponent : ℚ) = magnitude) :
      Stands format negative magnitude (finite negative significand exponent)

section

variable {format : BinaryFormat} (sound : Sound format)
include sound

/-- A number behind the greatest exponent has its first digit, so it is too large. -/
theorem stands_of_lt {negative : Bool} {significand : ℕ} {exponent : ℤ}
    (digits : significand < 2 ^ format.precision) (least : format.leastExponent ≤ exponent)
    (leads : exponent = format.leastExponent ∨ 2 ^ (format.precision - 1) ≤ significand) :
    Stands format negative (significand * 2 ^ exponent)
      (if format.greatestExponent < exponent then .infinite negative
        else .finite negative significand exponent) := by
  have precision_pos := sound.precision_pos
  have ordered := sound.ordered
  split
  · next beyond =>
    have notLeast : exponent ≠ format.leastExponent := by omega
    have significand_ge : ((2 ^ (format.precision - 1) : ℕ) : ℚ) ≤ significand := by
      exact_mod_cast leads.resolve_left notLeast
    apply Stands.infinite
    calc (2 : ℚ) ^ (format.greatestExponent + format.precision)
        ≤ 2 ^ (((format.precision - 1 : ℕ) : ℤ) + exponent) :=
          zpow_le_zpow_right₀ one_le_two (by omega)
      _ = (2 ^ (format.precision - 1) : ℕ) * 2 ^ exponent := by
          rw [zpow_add₀ two_ne_zero, zpow_natCast]
          push_cast
          rfl
      _ ≤ significand * 2 ^ exponent := by gcongr
  · next small => exact .finite ⟨digits, least, not_lt.mp small⟩ rfl

theorem stands_assemble {negative : Bool} {count : ℕ} {place : ℤ}
    (count_le : count ≤ 2 ^ format.precision) (least : format.leastExponent ≤ place)
    (leads : place = format.leastExponent ∨ 2 ^ (format.precision - 1) ≤ count) :
    Stands format negative (count * 2 ^ place) (assemble format negative count place) := by
  have full_eq : 1 <<< format.precision = 2 ^ format.precision := Nat.one_shiftLeft _
  have unit_eq : format.unit = 2 ^ (format.precision - 1) := Nat.one_shiftLeft _
  rw [assemble, full_eq]
  rcases count_le.eq_or_lt with full | notFull
  · have precision_pos := sound.precision_pos
    have digits : format.unit < 2 ^ format.precision := by
      rw [unit_eq]
      exact Nat.pow_lt_pow_right one_lt_two (by omega)
    have value : (count * 2 ^ place : ℚ) = format.unit * 2 ^ (place + 1) := by
      rw [full, unit_eq, Nat.cast_pow, Nat.cast_pow, Nat.cast_ofNat, ← zpow_natCast, ← zpow_natCast,
        ← zpow_add₀ two_ne_zero, ← zpow_add₀ two_ne_zero]
      congr 1
      omega
    rw [if_pos full, value]
    exact stands_of_lt sound digits (by omega) (.inr unit_eq.ge)
  · rw [if_neg notFull.ne]
    exact stands_of_lt sound notFull least leads

omit sound in
theorem exists_nearest {numerator denominator : ℕ} (numerator_pos : 0 < numerator)
    (denominator_pos : 0 < denominator) (negative : Bool) (scale : ℤ) :
    ∃ leading count, Nearest format (numerator / denominator * 2 ^ scale) leading count ∧
      round format negative numerator denominator scale =
        assemble format negative count (lastPlace format leading) := by
  let leading := leadingExponent numerator denominator + scale
  let place := lastPlace format leading
  have spec := leadingExponent_spec numerator_pos denominator_pos
  have scale_pos : (0 : ℚ) < 2 ^ scale := by positivity
  have place_pos : (0 : ℚ) < 2 ^ place := by positivity
  have below := shiftLeft_pos denominator_pos (place - scale).toNat
  have below_pos : (0 : ℚ) < (denominator <<< (place - scale).toNat : ℕ) := by exact_mod_cast below
  have ratio : ((numerator <<< (scale - place).toNat : ℕ) : ℚ) /
      (denominator <<< (place - scale).toNat : ℕ) * 2 ^ place =
        numerator / denominator * 2 ^ scale := by
    rw [← neg_sub scale place, shifted_ratio, mul_assoc, ← zpow_add₀ two_ne_zero, sub_add_cancel]
  refine ⟨leading, roundToEven (numerator <<< (scale - place).toNat)
    (denominator <<< (place - scale).toNat), ⟨?_, ?_, fun other => ?_⟩, ?_⟩
  · rw [zpow_add₀ two_ne_zero]
    gcongr
    exact spec.1
  · rw [add_right_comm, zpow_add₀ two_ne_zero]
    gcongr
    exact spec.2
  · rw [roundToEven_le_iff below, ← ratio, mul_lt_mul_iff_left₀ place_pos,
      mul_left_inj' place_pos.ne', div_lt_iff₀ below_pos, div_eq_iff below_pos.ne',
      ← Nat.cast_lt (α := ℚ), ← Nat.cast_inj (R := ℚ)]
    push_cast
    refine or_congr ?_ (and_congr_left fun _ => ?_)
    · constructor <;> intro <;> linarith
    · constructor <;> intro <;> linarith
  · rw [round, if_neg numerator_pos.ne']
    rfl

end

end Binary

end ScriptLexer
