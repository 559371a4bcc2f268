import ScriptLexer.Proofs.Machine.Parts
import ScriptLexer.Proofs.Value.Numeral

/-!
# No conversion fails on a machine

A number is found without a fault, or else a part of the text is handed over, which is the longest
numeral that the text begins with and a decimal one. A reader that takes all of these is never at a
loss.
-/

namespace ScriptLexer

namespace Machine

open Digits Utf8

/-! ## Words and openers -/

theorem stripPrefix?_bytes {word : List Char} (ascii : ∀ letter ∈ word, letter.toNat < 0x80)
    (text : List Char) :
    stripPrefix? (bytes word) (bytes text) =
      if word <+: text then some (bytes (text.drop word.length)) else none := by
  rw [stripPrefix?]
  simp only [List.isPrefixOf_iff_prefix, bytes_prefix_iff ascii]
  split
  · next begins =>
    rcases begins with ⟨rest, rfl⟩
    rw [bytes_append, List.drop_left, List.drop_left]
  · rfl

/-- The opener of hexadecimal digits, whose letter is in either case. -/
theorem opens_hexadecimal_iff {text rest : List Char} :
    Numeral.afterWord? "0x" text = some rest ↔
      text = "0x".toList ++ rest ∨ text = "0X".toList ++ rest := by
  constructor
  · intro found
    rcases Numeral.afterWord?_eq_some_iff.mp found with ⟨characters, rfl, opens⟩
    rcases List.map_eq_cons_iff.mp (show characters.map Char.toLower = '0' :: ['x'] from opens)
      with ⟨zero, _, rfl, isZero, behind⟩
    rcases List.map_eq_singleton_iff.mp behind with ⟨letter, rfl, isX⟩
    have zero_eq : zero = '0' := by simpa using (toLower_eq_iff (by decide)).mp isZero
    subst zero_eq
    rcases (toLower_eq_iff (by decide)).mp isX with rfl | rfl
    · exact .inl rfl
    · exact .inr rfl
  · rintro (rfl | rfl)
    · exact Numeral.afterWord?_append rfl rest
    · exact Numeral.afterWord?_append (by decide) rest

theorem opener_bytes (text : List Char) :
    (stripPrefix? (encode "0x") (bytes text)).or (stripPrefix? (encode "0X") (bytes text)) =
      (Numeral.afterWord? "0x" text).map bytes := by
  have lower := stripPrefix?_bytes (ascii_of_all (by decide : "0x".toList.all _ = true)) text
  have upper := stripPrefix?_bytes (ascii_of_all (by decide : "0X".toList.all _ = true)) text
  rw [encode_eq, encode_eq, lower, upper]
  by_cases isLower : "0x".toList <+: text
  · rcases isLower with ⟨rest, rfl⟩
    rw [opens_hexadecimal_iff.mpr (.inl rfl), if_pos (List.prefix_append _ _), List.drop_left]
    rfl
  by_cases isUpper : "0X".toList <+: text
  · rcases isUpper with ⟨rest, rfl⟩
    rw [opens_hexadecimal_iff.mpr (.inr rfl), if_neg isLower, if_pos (List.prefix_append _ _),
      List.drop_left]
    rfl
  have none : Numeral.afterWord? "0x" text = none := by
    rw [Option.eq_none_iff_forall_ne_some]
    intro rest found
    rcases opens_hexadecimal_iff.mp found with rfl | rfl
    · exact isLower (List.prefix_append _ _)
    · exact isUpper (List.prefix_append _ _)
  rw [if_neg isLower, if_neg isUpper, none]
  rfl

theorem isSome_afterWord?_iff {word : String} {text : List Char} :
    (Numeral.afterWord? word text).isSome = true ↔ word.toList <+: text.map Char.toLower := by
  rw [Option.isSome_iff_exists]
  constructor
  · rintro ⟨rest, found⟩
    rcases Numeral.afterWord?_eq_some_iff.mp found with ⟨characters, rfl, spelled⟩
    rw [List.map_append, spelled]
    exact List.prefix_append _ _
  · rintro ⟨behind, parts⟩
    rcases List.map_eq_append_iff.mp parts.symm with ⟨characters, rest, rfl, spelled, -⟩
    exact ⟨rest, Numeral.afterWord?_append spelled rest⟩

/-- No word is longer than what is looked at. -/
theorem prefix_bytes_iff {word : String} (ascii : ∀ letter ∈ word.toList, letter.toNat < 0x80)
    (short : word.toList.length ≤ 8) (text : List Char) :
    (encode word).isPrefixOf (((sliceTo? (bytes text) 8).getD (bytes text)).map lowerByte) = true ↔
      (Numeral.afterWord? word text).isSome = true := by
  have length : (encode word).length ≤ 8 := by
    rw [encode_eq, bytes_eq_map ascii, List.length_map]
    exact short
  have whole : encode word <+: (bytes text).map lowerByte ↔
      (Numeral.afterWord? word text).isSome = true := by
    rw [map_lowerByte_bytes, encode_eq, bytes_prefix_iff ascii, isSome_afterWord?_iff]
  rw [List.isPrefixOf_iff_prefix, ← whole, sliceTo?]
  split
  · rw [Option.getD_some, List.map_take, List.prefix_take_iff]
    exact and_iff_left length
  · rw [Option.getD_none]

theorem special?_bytes (text : List Char) :
    special? (bytes text) = (Numeral.splitWord? text).map (·.1.value) := by
  rw [special?]
  simp only [Bool.or_eq_true,
    prefix_bytes_iff (ascii_of_all (by decide : "infinity".toList.all _ = true)) (by decide),
    prefix_bytes_iff (ascii_of_all (by decide : "inf".toList.all _ = true)) (by decide),
    prefix_bytes_iff (ascii_of_all (by decide : "nan".toList.all _ = true)) (by decide),
    Numeral.splitWord?_eq]
  cases Numeral.afterWord? "infinity" text <;> cases Numeral.afterWord? "inf" text <;>
    cases Numeral.afterWord? "nan" text <;> rfl

theorem hexadecimal_bytes (text : List Char) :
    hexadecimal (bytes text) = .ok ((Numeral.splitHexadecimal? text).map (·.1.value)) := by
  rw [hexadecimal, opener_bytes, Numeral.splitHexadecimal?]
  cases Numeral.afterWord? "0x" text with
  | none => rfl
  | some behind =>
    rcases exists_around (by decide : 16 ≤ 16) behind with
      ⟨front, rest, whole, fraction, rfl, around⟩
    simp only [Option.map_some, hexadecimalMantissa_bytes around, around.splitMantissa?_eq le_rfl,
      Option.bind_eq_bind, Option.bind_some]
    split
    · rfl
    · rw [scaled_bytes, ok_bind]
      rfl

/-! ## Numbers -/

theorem decimal_bytes (sign rest : List Char) :
    (Numeral.splitDecimal? rest = none ∧
      decimal (bytes (sign ++ rest)) (bytes rest) = .ok (.number (.zero .double false))) ∨
    ∃ front behind whole fraction exponent, rest = front ++ behind ∧
      Numeral.Spelled front (.decimal whole fraction exponent) ∧
      Numeral.splitDecimal? rest = some (.decimal whole fraction exponent, behind) ∧
      decimal (bytes (sign ++ rest)) (bytes rest) = .ok (.part (bytes (sign ++ front))) := by
  have signLength : difference (bytes (sign ++ rest)).length (bytes rest).length =
      .ok (bytes sign).length := by
    rw [bytes_append, List.length_append, difference_eq (Nat.le_add_left _ _),
      Nat.add_sub_cancel_right]
  rcases exists_around (by decide : 10 ≤ 16) rest with
    ⟨front, behind, whole, fraction, rfl, around⟩
  rw [Numeral.splitDecimal?, around.splitMantissa?_eq (by decide), decimal, signLength, ok_bind,
    decimalMantissa_bytes around, ok_bind]
  have empty_iff : (whole.isEmpty && fraction.isEmpty) = true ↔
      whole.length + fraction.length = 0 := by simp
  by_cases empty : (whole.isEmpty && fraction.isEmpty) = true
  · refine .inl ⟨by rw [if_pos empty]; rfl, ?_⟩
    dsimp only
    rw [if_pos (empty_iff.mp empty)]
    rfl
  · rcases exponentEnd_bytes front behind with ⟨taken, parts, isExponent, stop⟩
    have cut := sliceTo_bytes (sign ++ (front ++ taken)) (Numeral.splitExponent 'e' behind).2
    rw [bytes_append sign, List.length_append, List.append_assoc, List.append_assoc, ← parts] at cut
    refine .inr ⟨front ++ taken, (Numeral.splitExponent 'e' behind).2, whole, fraction, _, ?_,
      .decimal (around.mantissa empty) isExponent, ?_, ?_⟩
    · rw [List.append_assoc, ← parts]
    · rw [if_neg empty]
      rfl
    · dsimp only
      rw [if_neg (mt empty_iff.mpr empty), stop, ok_bind, cut, ok_bind, bytes_append sign]
      rfl

/-- A number is found on the spot, or a decimal numeral is handed over that is the longest one. -/
theorem float_cases (text : String) :
    float text = .ok (.number (Numeral.ofText text)) ∨
      ∃ part negative whole fraction exponent, float text = .ok (.part (bytes part)) ∧
        Numeral.Longest (Blank.trimStart text.toList) part ∧
        Numeral.SpelledSigned part negative (.decimal whole fraction exponent) := by
  rcases exists_splitSign (Blank.trimStart text.toList) with ⟨sign, parts, isSign, -⟩
  have signed := splitSign_bytes (Blank.trimStart text.toList)
  rcases sorted : Digits.splitSign (Blank.trimStart text.toList) with ⟨negative, rest⟩
  rw [sorted] at parts isSign signed
  have split?_eq := Numeral.split?_eq rest
  rw [float, trimmed, signed, ok_bind]
  simp only [special?_bytes, hexadecimal_bytes, ok_bind]
  cases word : Numeral.splitWord? rest with
  | some taken =>
    rw [word, Option.some_or] at split?_eq
    simp only [Numeral.ofText, sorted, split?_eq]
    exact .inl rfl
  | none =>
    rw [word, Option.none_or] at split?_eq
    cases hexadecimal : Numeral.splitHexadecimal? rest with
    | some taken =>
      rw [hexadecimal, Option.some_or] at split?_eq
      simp only [Numeral.ofText, sorted, split?_eq]
      exact .inl rfl
    | none =>
      rw [hexadecimal, Option.none_or] at split?_eq
      rcases parts ▸ decimal_bytes sign rest with ⟨none, zero⟩ |
        ⟨front, behind, whole, fraction, exponent, rest_eq, spelled, found, part⟩
      · rw [none] at split?_eq
        simp only [Numeral.ofText, sorted, split?_eq]
        exact .inl zero
      · have taken : Numeral.split? (Digits.splitSign (Blank.trimStart text.toList)).2 =
            some (.decimal whole fraction exponent, behind) := by rw [sorted, split?_eq, found]
        rcases Numeral.exists_longest_of_split? taken with ⟨taken, takenParts, -, longest⟩
        have taken_eq : sign ++ front = taken := by
          rw [rest_eq, ← List.append_assoc] at parts
          exact List.append_cancel_right (parts.symm.trans takenParts)
        refine .inr ⟨sign ++ front, _, _, _, _, part, ?_, .intro isSign spelled⟩
        rw [taken_eq]
        exact longest

/-- No slice of a text is out of range or cut inside of a character, no word overflows, and what is
handed over to be read as a number is the longest numeral of the text, which is a decimal one. -/
theorem conversions_never_fail (text : String) (parse : Bytes → Option Binary)
    (accepts : ∀ part negative whole fraction exponent,
      Numeral.SpelledSigned part negative (.decimal whole fraction exponent) →
        parse (encode (.ofList part)) ≠ none) :
    (∃ word, integer text = .ok word ∧ word.toInt = Integer.ofText text) ∧
      startsInteger text = .ok (Integer.startsText text) ∧
      truth text = .ok (Truth.ofText text) ∧
      hexadecimal (encode text) =
        .ok ((Numeral.splitHexadecimal? text.toList).map (·.1.value)) ∧
      ∃ outcome, float text = .ok outcome ∧
        (outcome = .number (Numeral.ofText text) ∨
          ∃ part negative whole fraction exponent, outcome = .part (encode (.ofList part)) ∧
            Numeral.Longest (Blank.trimStart text.toList) part ∧
            Numeral.SpelledSigned part negative (.decimal whole fraction exponent)) ∧
        ∃ value, outcome.resolve parse = .ok value := by
  refine ⟨integer_eq text, startsInteger_eq text, truth_eq text, hexadecimal_bytes _, ?_⟩
  rcases float_cases text with found |
    ⟨part, negative, whole, fraction, exponent, found, longest, spelled⟩
  · exact ⟨_, found, .inl rfl, _, rfl⟩
  · rcases Option.ne_none_iff_exists'.mp (accepts part _ _ _ _ spelled) with ⟨value, read⟩
    rw [encode_ofList] at read
    refine ⟨_, found, .inr ⟨part, _, _, _, _, ?_, longest, spelled⟩, value, ?_⟩
    · rw [encode_ofList]
    · rw [Outcome.resolve, read]
      rfl

/-- A reader of all of a text as a word or a decimal numeral. -/
def parse? (text : Bytes) : Option Binary :=
  let (negative, rest) := Digits.splitSign (decode text).toList
  match (Numeral.splitWord? rest).or (Numeral.splitDecimal? rest) with
  | some (numeral, []) => some (if negative then numeral.value.neg else numeral.value)
  | _ => none

/-- Decimal numerals have no letter that a word begins with. -/
theorem splitWord?_decimal {mantissa : List Char} {whole fraction : List Nat}
    (isMantissa : Numeral.Mantissa 10 mantissa whole fraction) (following : List Char) :
    Numeral.splitWord? (mantissa ++ following) = none := by
  rcases isMantissa.exists_cons (by decide) with ⟨first, later, rfl, begins⟩
  have letters : ∀ letter ∈ '.' :: lowerCase.take 10, letter ∉ ['i', 'n'] :=
    List.all_iff_forall_prop.mp (by decide)
  exact Numeral.splitWord?_eq_none (letters _ begins) _

theorem parse?_ne_none (part : List Char) (negative : Bool) (whole fraction : List Nat)
    (exponent : Option SignedDigits)
    (spelled : Numeral.SpelledSigned part negative (.decimal whole fraction exponent)) :
    parse? (encode (.ofList part)) ≠ none := by
  rcases spelled with ⟨isSign, spelled⟩
  have unsigned := spelled.unsigned []
  rw [List.append_nil] at unsigned
  rw [parse?, decode_encode, String.toList_ofList, splitSign_append isSign fun _ => unsigned]
  cases spelled with
  | decimal isMantissa isExponent =>
    rcases Numeral.splitDecimal?_append isMantissa isExponent [] with
      ⟨other, rest, found, suffix, -⟩
    rw [List.append_nil, List.suffix_nil.mp suffix] at found
    dsimp only
    rw [splitWord?_decimal isMantissa, found]
    exact Option.some_ne_none _

/-- The first eight bytes behind this sign end inside of a character. -/
theorem conversions_never_fail_multibyte :
    (∀ part negative whole fraction exponent,
      Numeral.SpelledSigned part negative (.decimal whole fraction exponent) →
        parse? (encode (.ofList part)) ≠ none) ∧
      float " -1.5e+30é" = .ok (.part (encode "-1.5e+30")) ∧
      ∃ value, (Outcome.part (encode "-1.5e+30")).resolve parse? = .ok value := by
  have handed : float " -1.5e+30é" = .ok (.part (encode "-1.5e+30")) := by decide +kernel
  rcases (conversions_never_fail " -1.5e+30é" parse? parse?_ne_none).2.2.2.2 with
    ⟨outcome, found, -, resolved⟩
  cases handed.symm.trans found
  exact ⟨parse?_ne_none, handed, resolved⟩

end Machine

end ScriptLexer
