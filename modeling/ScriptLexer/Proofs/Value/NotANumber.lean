import ScriptLexer.Proofs.Value.Hexadecimal

/-!
# Where a text stands for no number

Besides the word for it there is one other way: hexadecimal digits before the point that are infinite
on their own, multiplied by a power of two that is zero on its own. How many digits that takes is
followed from the front: a power of sixteen is reached with one more digit just where the power below it
is reached without.
-/

namespace ScriptLexer

namespace Numeral

open Digits Binary

/-! ## Digits before the point -/

section

variable {value : Binary} {digit : ℕ} {power : ℤ}

theorem nonnegative_shiftIn (isNonnegative : Nonnegative .double value) (digit : ℕ) :
    Nonnegative .double (shiftIn value digit) := by
  have sixteen := toRat?_ofNat (by norm_num : 16 < 2 ^ 53)
  have product := isNonnegative.mul sound_double (by norm_num) sixteen
  have term := (rounds_ofNat .double digit).nonnegative sound_double (by positivity)
  exact product.add sound_double term

theorem nonnegative_hexadecimalWhole (digits : List ℕ) :
    Nonnegative .double (hexadecimalWhole digits) := by
  induction digits using List.reverseRecOn with
  | nil =>
    have representable : Representable .double 0 := by
      exact_mod_cast representable_nat (by norm_num : 0 < 2 ^ 53)
    exact .finite (toRat?_zero .double false) representable le_rfl
  | append_singleton digits digit induction =>
    rw [hexadecimalWhole_concat]
    exact nonnegative_shiftIn induction digit

/-- Sixteen times a number and a digit. -/
theorem reaches_shiftIn (isNonnegative : Nonnegative .double value) (digit : ℕ)
    (normal : -1025 ≤ power) (inRange : power ≤ 1020) (reaches : Reaches (2 ^ power) value) :
    Reaches (2 ^ (power + 4)) (shiftIn value digit) := by
  have normal : (-1074 : ℤ) + (53 : ℕ) ≤ power + 4 := by omega
  have inRange : power + 4 ≤ (971 : ℤ) + (53 : ℕ) := by omega
  have sixteen : (Binary.ofNat .double 16).toRat? = some (2 ^ (4 : ℤ)) := by
    rw [toRat?_ofNat (by norm_num)]
    norm_num
  have product := isNonnegative.reaches_mul sound_double sixteen normal inRange reaches
  have term := (rounds_ofNat .double digit).nonnegative sound_double (by positivity)
  exact (isNonnegative.mul sound_double (by positivity) sixteen).reaches_add sound_double term normal
    inRange product

/-- Sixteen times a number has the same digits, if it is not too large. -/
theorem representable_mul_sixteen {number : ℚ} (representable : Representable .double number)
    (nonnegative : 0 ≤ number) (lt : number < 2 ^ (1020 : ℤ)) :
    Representable .double (number * 16) := by
  have sixteen : (16 : ℚ) = 2 ^ (4 : ℤ) := by norm_num
  rw [sixteen]
  refine representable.mul_zpow sound_double (by norm_num) ?_
  rw [abs_of_nonneg (by positivity)]
  calc number * 2 ^ (4 : ℤ) < 2 ^ (1020 : ℤ) * 2 ^ (4 : ℤ) := by gcongr
    _ = 2 ^ ((971 : ℤ) + (53 : ℕ)) := by
      rw [← zpow_add₀ two_ne_zero]
      congr 1

/-- Behind many digits the last one is too light to make up for what is missing. -/
theorem reaches_shiftIn_iff (isNonnegative : Nonnegative .double value) (small : digit < 16)
    (many : 56 ≤ power) (inRange : power ≤ 1020) :
    Reaches (2 ^ (power + 4)) (shiftIn value digit) ↔ Reaches (2 ^ power) value := by
  refine ⟨fun reaches => ?_, reaches_shiftIn isNonnegative digit (by omega) inRange⟩
  cases isNonnegative with
  | infinite => exact .infinite false
  | @finite _ number toRat representable nonnegative =>
    rw [reaches_iff_le toRat nonnegative]
    by_contra less
    rw [not_le] at less
    have gap : number ≤ 2 ^ power - 2 ^ (power - 53) := by
      have abs_le := representable.abs_le ((abs_of_nonneg nonnegative).trans_lt less)
      rwa [abs_of_nonneg nonnegative] at abs_le
    have step_ge : (8 : ℚ) ≤ 2 ^ (power - 53) := by
      calc (8 : ℚ) = 2 ^ (3 : ℤ) := by norm_num
        _ ≤ 2 ^ (power - 53) := zpow_le_zpow_right₀ one_le_two (by omega)
    have split : (2 : ℚ) ^ (power + 4) = 2 ^ power * 16 := by
      rw [zpow_add₀ two_ne_zero]
      norm_num
    have room := representable_mul_sixteen representable nonnegative
      (less.trans_le (zpow_le_zpow_right₀ one_le_two inRange))
    have rounds := rounds_shiftIn toRat room (by omega : digit < 2 ^ 53)
    rw [rounds.reaches_iff sound_double (show (-1074 : ℤ) + (53 : ℕ) ≤ _ by omega)
      (show _ ≤ (971 : ℤ) + (53 : ℕ) by omega), abs_of_nonneg (by positivity), split] at reaches
    have half : (2 : ℚ) ^ (power + 4 - (53 : ℕ) - 1) = 2 ^ (power - 53) * 8 := by
      rw [show power + 4 - (53 : ℕ) - 1 = power - 53 + 3 by omega, zpow_add₀ two_ne_zero]
      norm_num
    have digit_le : (digit : ℚ) ≤ 15 := by exact_mod_cast Nat.le_of_lt_succ small
    have reaches : 2 ^ power * 16 - 2 ^ (power - 53) * 8 ≤ number * 16 + digit := half ▸ reaches
    linarith

/-! Up to 52 bits all digits are exact, and there the last one counts. -/

theorem rounds_hexadecimalWhole_concat {digits : List ℕ} (below : toNat 16 digits < 2 ^ 53)
    (small : digit < 16) :
    Rounds .double (toNat 16 (digits ++ [digit])) (hexadecimalWhole (digits ++ [digit])) := by
  have lt : (toNat 16 digits : ℚ) < 2 ^ (1020 : ℤ) :=
    calc (toNat 16 digits : ℚ) < 2 ^ (53 : ℤ) := by exact_mod_cast below
      _ ≤ 2 ^ (1020 : ℤ) := zpow_le_zpow_right₀ one_le_two (by norm_num)
  have room := representable_mul_sixteen (representable_nat below) (Nat.cast_nonneg _) lt
  have rounds := rounds_shiftIn (toRat?_hexadecimalWhole below) room (by omega : digit < 2 ^ 53)
  rw [hexadecimalWhole_concat, toNat_concat]
  exact_mod_cast rounds

theorem reaches_hexadecimalWhole_of_ge {digits : List ℕ} (below : ∀ digit ∈ digits, digit < 16)
    (ge : 2 ^ 52 ≤ toNat 16 digits) : Reaches (2 ^ (52 : ℤ)) (hexadecimalWhole digits) := by
  induction digits using List.reverseRecOn with
  | nil => exact absurd ge (by decide)
  | append_singleton digits digit induction =>
    rw [List.forall_mem_append, List.forall_mem_singleton] at below
    rcases lt_or_ge (toNat 16 digits) (2 ^ 52) with short | long
    · have rounds := rounds_hexadecimalWhole_concat (short.trans (by norm_num)) below.2
      refine rounds.reaches_of_le sound_double (by decide) (by decide) ?_
      exact_mod_cast ge
    · have reaches := reaches_shiftIn (nonnegative_hexadecimalWhole digits) digit (by norm_num)
        (by norm_num) (induction below.1 long)
      rw [hexadecimalWhole_concat]
      exact reaches.mono (zpow_le_zpow_right₀ one_le_two (by norm_num))

/-- The first power of sixteen with digits that are rounded is reached by what is nearest to it. -/
theorem reaches_concat_iff {digits : List ℕ} (below : ∀ digit ∈ digits, digit < 16)
    (small : digit < 16) :
    Reaches (2 ^ (56 : ℤ)) (hexadecimalWhole (digits ++ [digit])) ↔
      2 ^ 56 ≤ toNat 16 (digits ++ [digit]) + 2 ^ 2 := by
  rcases lt_or_ge (toNat 16 digits) (2 ^ 52) with short | long
  · have rounds := rounds_hexadecimalWhole_concat (short.trans (by norm_num)) small
    have reaches_iff := rounds.reaches_iff sound_double
      (show (-1074 : ℤ) + (53 : ℕ) ≤ 56 by norm_num) (show 56 ≤ (971 : ℤ) + (53 : ℕ) by norm_num)
    have half : (2 : ℚ) ^ (56 - ((53 : ℕ) : ℤ) - 1) = 2 ^ 2 := by norm_num
    rw [abs_of_nonneg (by positivity), sub_le_iff_le_add] at reaches_iff
    refine reaches_iff.trans ?_
    change (2 : ℚ) ^ (56 : ℤ) ≤ _ + 2 ^ (56 - ((53 : ℕ) : ℤ) - 1) ↔ 2 ^ 56 ≤ _
    rw [half]
    exact_mod_cast Iff.rfl
  · have reaches := reaches_shiftIn (nonnegative_hexadecimalWhole digits) digit (by norm_num)
      (by norm_num) (reaches_hexadecimalWhole_of_ge below long)
    rw [hexadecimalWhole_concat, toNat_concat]
    exact iff_of_true reaches (by omega)

private theorem reaches_nil_iff (more : ℕ) :
    Reaches (2 ^ (56 + 4 * more : ℤ)) (hexadecimalWhole []) ↔
      2 ^ (56 + 4 * more) ≤ toNat 16 [] + 2 ^ (2 + 4 * more) := by
  have less : 2 ^ (2 + 4 * more) < 2 ^ (56 + 4 * more) :=
    Nat.pow_lt_pow_right one_lt_two (by omega)
  rw [reaches_iff_le (toRat?_hexadecimalWhole (by decide)) (by positivity)]
  refine iff_of_false (not_le.mpr ?_) (not_le.mpr ?_)
  · exact lt_of_eq_of_lt Nat.cast_zero (by positivity)
  · exact (Nat.zero_add _).trans_lt less

/-- With 14 digits and any further number of them a power of sixteen is reached from half of a last
place below it on. -/
theorem reaches_hexadecimalWhole_iff (more : ℕ) (inRange : more ≤ 242) {digits : List ℕ}
    (below : ∀ digit ∈ digits, digit < 16) :
    Reaches (2 ^ (56 + 4 * more : ℤ)) (hexadecimalWhole digits) ↔
      2 ^ (56 + 4 * more) ≤ toNat 16 digits + 2 ^ (2 + 4 * more) := by
  -- The last digit is taken away and the power with it, down to the first power.
  induction more generalizing digits with
  | zero =>
    rcases digits.eq_nil_or_concat' with rfl | ⟨front, digit, rfl⟩
    · exact reaches_nil_iff 0
    rw [List.forall_mem_append, List.forall_mem_singleton] at below
    simpa using reaches_concat_iff below.1 below.2
  | succ more induction =>
    rcases digits.eq_nil_or_concat' with rfl | ⟨front, digit, rfl⟩
    · exact reaches_nil_iff (more + 1)
    rw [List.forall_mem_append, List.forall_mem_singleton] at below
    have shifted (bits : ℕ) : 2 ^ (bits + 4 * (more + 1)) = 2 ^ (bits + 4 * more) * 16 := by
      rw [mul_add, ← add_assoc, pow_add]
      norm_num
    have step := reaches_shiftIn_iff (nonnegative_hexadecimalWhole front) below.2
      (by omega : (56 : ℤ) ≤ 56 + 4 * more) (by omega)
    have before := induction (by omega) below.1
    rw [hexadecimalWhole_concat, toNat_concat, shifted, shifted, Nat.cast_succ, mul_add_one,
      ← add_assoc]
    refine step.trans (before.trans ?_)
    omega

/-- Digits before the point are infinite from half of a last place behind the greatest number on. -/
theorem hexadecimalWhole_eq_infinite_iff {digits : List ℕ} (below : ∀ digit ∈ digits, digit < 16) :
    hexadecimalWhole digits = .infinite false ↔ 2 ^ 1024 ≤ toNat 16 digits + 2 ^ 970 := by
  rcases (⟨242, rfl⟩ : ∃ more, more = 242) with ⟨more, all⟩
  have reaches_iff := reaches_hexadecimalWhole_iff more all.le below
  rw [(by omega : (56 + 4 * more : ℤ) = 971 + (53 : ℕ)), (by omega : 56 + 4 * more = 1024),
    (by omega : 2 + 4 * more = 970)] at reaches_iff
  exact (nonnegative_hexadecimalWhole digits).eq_infinite_iff.trans reaches_iff

end

/-! ## Digits behind the point -/

/-- The weight of a digit behind the point. -/
def Light (weight : Binary) : Prop :=
  ∃ number, weight.toRat? = some number ∧ 0 ≤ number ∧ number ≤ 1 / 16

theorem light_sixteenth : Light (.twoPow .double (-4)) :=
  ⟨_, toRat?_sixteenth, by norm_num, le_rfl⟩

theorem Light.mul_sixteenth {weight : Binary} (light : Light weight) :
    Light (weight.mul .double (.twoPow .double (-4))) := by
  rcases light with ⟨number, weightIs, nonnegative, small⟩
  have rounds := rounds_mul .double weightIs toRat?_sixteenth
  have below : number * (1 / 16) < 2 ^ (-4 : ℤ) - 2 ^ (-4 - ((53 : ℕ) : ℤ) - 1) := by
    have bound : (1 / 256 : ℚ) < 2 ^ (-4 : ℤ) - 2 ^ (-4 - ((53 : ℕ) : ℤ) - 1) := by norm_num
    linarith
  rcases rounds.exists_lt sound_double (by decide) (by decide) (by positivity) below with
    ⟨product, productIs, product_nonneg, product_lt⟩
  have sixteenth : (2 : ℚ) ^ (-4 : ℤ) = 1 / 16 := by norm_num
  exact ⟨product, productIs, product_nonneg, (sixteenth ▸ product_lt).le⟩

/-- A digit behind the point is less than one. -/
theorem Light.exists_term {weight : Binary} (light : Light weight) {digit : ℕ} (small : digit < 16) :
    ∃ term, (Binary.mul .double (.ofNat .double digit) weight).toRat? = some term ∧
      0 ≤ term ∧ term < 1 := by
  rcases light with ⟨number, weightIs, nonnegative, number_le⟩
  have rounds := rounds_mul .double (toRat?_ofNat (by omega : digit < 2 ^ 53)) weightIs
  have below : digit * number < 2 ^ (0 : ℤ) - 2 ^ (0 - ((53 : ℕ) : ℤ) - 1) := by
    have digit_le : (digit : ℚ) ≤ 15 := by exact_mod_cast Nat.le_of_lt_succ small
    have bound : (15 / 16 : ℚ) < 2 ^ (0 : ℤ) - 2 ^ (0 - ((53 : ℕ) : ℤ) - 1) := by norm_num
    calc digit * number ≤ 15 * (1 / 16) := by gcongr
      _ = 15 / 16 := by norm_num
      _ < _ := bound
  exact rounds.exists_lt sound_double (by decide) (by decide) (by positivity) below

/-- A finite number is so much below infinity that less than one does not matter. -/
theorem add_ne_infinite {sum digit : Binary} {number term : ℚ} (sumIs : sum.toRat? = some number)
    (representable : Representable .double number) (nonnegative : 0 ≤ number)
    (digitIs : digit.toRat? = some term) (term_nonneg : 0 ≤ term) (term_lt : term < 1) :
    sum.add .double digit ≠ .infinite false := by
  have rounds := rounds_add .double sumIs digitIs
  have number_le : number ≤ 2 ^ (1024 : ℤ) - 2 ^ (970 : ℤ) * 2 := by
    have abs_le := representable.abs_le representable.abs_lt
    rw [abs_of_nonneg nonnegative] at abs_le
    rw [← zpow_add_one₀ two_ne_zero]
    exact abs_le
  have below : number + term < 2 ^ (1024 : ℤ) - 2 ^ (970 : ℤ) := by
    have large : (1 : ℚ) ≤ 2 ^ (970 : ℤ) := one_le_zpow₀ one_le_two (by decide)
    generalize (2 : ℚ) ^ (1024 : ℤ) = limit at *
    generalize (2 : ℚ) ^ (970 : ℤ) = place at *
    linarith
  have finite : ∃ result, _ ∧ 0 ≤ result ∧ result < (2 : ℚ) ^ (1024 : ℤ) :=
    rounds.exists_lt sound_double (by decide) (by decide) (by positivity) below
  rcases finite with ⟨result, resultIs, -, -⟩
  exact ne_infinite resultIs false

/-- What is added behind the point does not make a number infinite. -/
structure Follows (value : Binary) (state : Binary × Binary) : Prop where
  nonnegative : Nonnegative .double state.1
  infinite_iff : state.1 = .infinite false ↔ value = .infinite false
  light : Light state.2

theorem Follows.addWeighted {value : Binary} {state : Binary × Binary} (follows : Follows value state)
    {digit : ℕ} (small : digit < 16) : Follows value (addWeighted state digit) := by
  rcases state with ⟨sum, weight⟩
  rcases follows with ⟨nonnegative, infinite_iff, light⟩
  rcases light.exists_term small with ⟨term, termIs, term_nonneg, term_lt⟩
  cases nonnegative with
  | infinite =>
    have stays : (Numeral.addWeighted (.infinite false, weight) digit).1 = .infinite false :=
      infinite_add termIs false
    refine ⟨?_, iff_of_true stays (infinite_iff.mp rfl), light.mul_sixteenth⟩
    rw [stays]
    exact .infinite
  | finite sumIs representable sum_nonneg =>
    have sum_ne := mt infinite_iff.mpr (ne_infinite sumIs false)
    have next_ne := add_ne_infinite sumIs representable sum_nonneg termIs term_nonneg term_lt
    exact ⟨(rounds_add .double sumIs termIs).nonnegative sound_double (by positivity),
      iff_of_false next_ne sum_ne, light.mul_sixteenth⟩

theorem follows_foldl {value : Binary} (isNonnegative : Nonnegative .double value) {digits : List ℕ}
    (below : ∀ digit ∈ digits, digit < 16) :
    Follows value (digits.foldl addWeighted (value, .twoPow .double (-4))) := by
  induction digits using List.reverseRecOn with
  | nil => exact ⟨isNonnegative, Iff.rfl, light_sixteenth⟩
  | append_singleton digits digit induction =>
    rw [List.forall_mem_append, List.forall_mem_singleton] at below
    rw [List.foldl_append]
    exact (induction below.1).addWeighted below.2

/-! ## The exponent -/

theorem scale_eq_nan_iff {value : Binary} (isNonnegative : Nonnegative .double value)
    (exponent : SignedDigits) :
    scale value (some exponent) = .nan ↔ value = .infinite false ∧ exponent.toInt ≤ -1024 := by
  rw [← boundedPower_le_iff]
  by_cases isZero : value.isZero = true
  · rw [scale, if_pos isZero]
    refine iff_of_false isNonnegative.ne_nan ?_
    rintro ⟨rfl, -⟩
    cases isZero
  have positive {number : ℚ} (valueIs : value.toRat? = some number) (nonnegative : 0 ≤ number) :
      0 < number := by
    refine nonnegative.lt_of_ne' fun zero => isZero ?_
    rw [isZero_iff, valueIs, zero]
  have scaled : scale value (some exponent) =
      .mul .double value (.twoPow .double (boundedPower exponent)) := if_neg isZero
  rw [scaled]
  rcases le_or_gt (boundedPower exponent) (-1024) with small | notSmall
  · rw [twoPow_eq_zero small]
    cases isNonnegative with
    | infinite => exact iff_of_true rfl ⟨rfl, small⟩
    | finite valueIs _ nonnegative =>
      rw [mul_zero_eq (positive valueIs nonnegative) valueIs]
      exact iff_of_false (zero_ne_nan _ _) fun both => ne_infinite valueIs false both.1
  · refine iff_of_false ?_ fun both => absurd both.2 (not_le.mpr notSmall)
    rcases le_or_gt 1024 (boundedPower exponent) with large | notLarge
    · rw [twoPow_eq_infinite large]
      cases isNonnegative with
      | infinite => exact infinite_ne_nan _
      | finite valueIs _ nonnegative =>
        rw [mul_infinite (positive valueIs nonnegative) valueIs]
        exact infinite_ne_nan _
    · have powerIs := toRat?_twoPow_double (abs_lt.mpr ⟨notSmall, notLarge⟩)
      exact (isNonnegative.mul sound_double (by positivity) powerIs).ne_nan

/-! ## The number in a text -/

section

variable {whole fraction : List ℕ}

/-- The digits are infinite and their power of two is zero. -/
def Cancels (whole : List ℕ) (exponent : Option SignedDigits) : Prop :=
  2 ^ 1024 ≤ Nat.ofDigits 16 whole.reverse + 2 ^ 970 ∧ power exponent ≤ -1024

theorem hexadecimal_eq_nan_iff (below : ∀ digit ∈ whole ++ fraction, digit < 16)
    (exponent : Option SignedDigits) :
    (hexadecimal whole fraction exponent).value = .nan ↔ Cancels whole exponent := by
  rw [List.forall_mem_append] at below
  have follows := follows_foldl (nonnegative_hexadecimalWhole whole) below.2
  rw [Cancels, ← toNat_eq, ← hexadecimalWhole_eq_infinite_iff below.1, ← follows.infinite_iff]
  cases exponent with
  | none => exact iff_of_false follows.nonnegative.ne_nan fun both => absurd both.2 (by decide)
  | some exponent => exact scale_eq_nan_iff follows.nonnegative exponent

theorem Spelled.value_eq_nan_iff {body : List Char} {numeral : Numeral}
    (spelled : Spelled body numeral) :
    numeral.value = .nan ↔ numeral = .notANumber ∨ ∃ whole fraction exponent,
      numeral = .hexadecimal whole fraction exponent ∧ Cancels whole exponent := by
  cases spelled with
  | infinity => exact iff_of_false nofun (by simp)
  | notANumber => exact iff_of_true rfl (.inl rfl)
  | hexadecimal _ isMantissa _ =>
    rw [hexadecimal_eq_nan_iff isMantissa.digits]
    simp
  | decimal => exact iff_of_false (ofDecimal_ne_nan _ _ _) (by simp)

end

theorem ofText_eq_nan_iff {text : String} {numeral : Numeral} {rest : List Char}
    (found : split? (splitSign (Blank.trimStart text.toList)).2 = some (numeral, rest)) :
    ofText text = .nan ↔ numeral.value = .nan := by
  simp only [ofText, found]
  split
  · exact neg_eq_nan_iff
  · rfl

/-- A text stands for no number if it begins with the word for that, behind blanks and a sign, or with a
hexadecimal numeral whose digits are infinite on their own while its power of two is zero. -/
theorem nan_only_if_spelled_or_cancelled (text : String) :
    let trimmed := Blank.trimStart text.toList
    ofText text = .nan ↔
      (∃ sign negative word rest, trimmed = sign ++ (word ++ rest) ∧ Sign sign negative ∧
        word.map Char.toLower = "nan".toList) ∨
      ∃ part negative whole fraction exponent, Longest trimmed part ∧
        SpelledSigned part negative (hexadecimal whole fraction exponent) ∧
        Cancels whole exponent := by
  intro trimmed
  constructor
  · intro isNan
    cases found : split? (splitSign trimmed).2 with
    | none =>
      simp only [ofText, found, trimmed, zero] at isNan
      cases isNan
    | some taken =>
      rcases taken with ⟨numeral, rest⟩
      rw [ofText_eq_nan_iff found] at isNan
      rcases exists_longest_of_split? found with ⟨part, parts, spelledSigned, longest⟩
      rcases spelledSigned with ⟨isSign, spelled⟩
      rcases spelled.value_eq_nan_iff.mp isNan with rfl | ⟨whole, fraction, exponent, rfl, cancels⟩
      · cases spelled with
        | notANumber isWord =>
          exact .inl ⟨_, _, _, rest, parts.trans (List.append_assoc _ _ _), isSign, isWord⟩
      · exact .inr ⟨_, _, _, _, _, longest, .intro isSign spelled, cancels⟩
  · rintro (⟨sign, negative, word, rest, parts, isSign, isWord⟩ |
      ⟨part, negative, whole, fraction, exponent, longest, spelled, cancels⟩)
    · have unsigned := (Spelled.notANumber isWord).unsigned rest
      have found : split? (splitSign trimmed).2 = some (notANumber, rest) := by
        rw [parts, splitSign_append isSign fun _ => unsigned, split?_eq,
          splitWord?_append_notANumber isWord, Option.some_or]
      exact (ofText_eq_nan_iff found).mpr rfl
    · rcases (longest.split?_eq spelled).2 with ⟨rest, found⟩
      rcases spelled with ⟨-, spelled⟩
      exact (ofText_eq_nan_iff found).mpr
        (spelled.value_eq_nan_iff.mpr (.inr ⟨_, _, _, rfl, cancels⟩))

/-- One and 256 zeros, which are infinite on their own, though with this exponent they spell one. -/
theorem cancelled_without_word :
    let text := String.ofList ("0x1".toList ++ (List.replicate 256 '0' ++ "p-1024".toList))
    (¬ ∃ sign negative word rest, Blank.trimStart text.toList = sign ++ (word ++ rest) ∧
        Sign sign negative ∧ word.map Char.toLower = "nan".toList) ∧
      ofText text = .nan := by
  intro text
  have begins : Blank.trimStart text.toList =
      '0' :: ("x1".toList ++ (List.replicate 256 '0' ++ "p-1024".toList)) := by
    rw [String.toList_ofList]
    exact List.dropWhile_cons_of_neg (by decide)
  constructor
  · rintro ⟨sign, negative, word, rest, parts, isSign, isWord⟩
    rw [begins] at parts
    cases isSign with
    | none =>
      rcases List.map_eq_cons_iff.mp (show word.map Char.toLower = 'n' :: ['a', 'n'] from isWord)
        with ⟨first, later, rfl, letter, -⟩
      rw [← (List.cons.inj parts).1] at letter
      exact absurd letter (by decide)
    | plus | minus => exact absurd (List.cons.inj parts).1 (by decide)
  · have found : split? (splitSign (Blank.trimStart text.toList)).2 =
        some (hexadecimal (1 :: List.replicate 256 0) []
          (some { negative := true, digits := [1, 0, 2, 4] }), []) := by
      rw [begins]
      decide +kernel
    have cancels : Cancels (1 :: List.replicate 256 0)
        (some { negative := true, digits := [1, 0, 2, 4] }) :=
      ⟨by decide +kernel, by decide⟩
    exact (ofText_eq_nan_iff found).mpr ((hexadecimal_eq_nan_iff (by decide +kernel) _).mpr cancels)

end Numeral

end ScriptLexer
