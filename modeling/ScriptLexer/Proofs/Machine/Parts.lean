import ScriptLexer.Proofs.Machine.Integers
import ScriptLexer.Proofs.Value.Parts

/-!
# The parts of a number on a machine

Each index that a machine adds up is the length of what the grammar has in front of it. So it is between
two characters, whatever the text goes on with.
-/

namespace ScriptLexer

namespace Machine

open Digits Utf8

/-! ## Mantissas -/

theorem isDigit_ascii {base : Nat} {character : Char} (admitted : base ≤ 16)
    (digit : isDigit base character = true) : character.toNat < 0x80 := by
  have small : value character < 16 := Nat.lt_of_lt_of_le (of_decide_eq_true digit) admitted
  have below {greatest : Char} (ascii : greatest.toNat < 0x80) (le : character ≤ greatest) :
      character.toNat < 0x80 := Nat.lt_of_le_of_lt le ascii
  revert small
  unfold value
  split
  · next range => exact fun _ => below (by decide) range.2
  split
  · next range => exact fun _ => below (by decide) range.2
  split
  · next range => exact fun _ => below (by decide) range.2
  · exact fun none => absurd none (Nat.lt_irrefl 16)

/-- Digits around an optional point as far as they go, and what follows them. There may be no digits. -/
inductive Around (base : Nat) : List Char → List Char → List Nat → List Nat → Prop
  | plain {front rest : List Char} {whole : List Nat} (spells : Spells base front whole)
      (ended : Ended base rest) (noPoint : ∀ behind, rest ≠ '.' :: behind) :
      Around base front rest whole []
  | pointed {before behind rest : List Char} {whole fraction : List Nat}
      (spellsWhole : Spells base before whole) (spellsFraction : Spells base behind fraction)
      (ended : Ended base rest) : Around base (before ++ '.' :: behind) rest whole fraction

section

variable {base : Nat} {front rest : List Char} {whole fraction : List Nat}

theorem Around.mantissa (around : Around base front rest whole fraction)
    (nonempty : ¬ (whole.isEmpty && fraction.isEmpty) = true) :
    Numeral.Mantissa base front whole fraction := by
  cases around with
  | plain spells _ _ => exact .plain spells (by simpa using nonempty)
  | pointed spellsWhole spellsFraction _ =>
    refine .pointed spellsWhole spellsFraction ?_
    simpa [Classical.or_iff_not_imp_left] using nonempty

variable (admitted : base ≤ 16)
include admitted

theorem exists_around (text : List Char) :
    ∃ front rest whole fraction, text = front ++ rest ∧ Around base front rest whole fraction := by
  rcases exists_split admitted text with ⟨before, parts, spellsWhole, ended⟩
  by_cases point : ∃ behind, (split base text).2 = '.' :: behind
  · rcases point with ⟨behind, point⟩
    rcases exists_split admitted behind with ⟨fraction, behindParts, spellsFraction, behindEnded⟩
    refine ⟨before ++ '.' :: fraction, _, _, _, ?_, .pointed spellsWhole spellsFraction behindEnded⟩
    rw [List.append_assoc, List.cons_append, ← behindParts, ← point, ← parts]
  · exact ⟨before, _, _, [], parts,
      .plain spellsWhole ended fun behind equal => point ⟨behind, equal⟩⟩

theorem Around.splitMantissa?_eq (around : Around base front rest whole fraction) :
    Numeral.splitMantissa? base (front ++ rest) =
      if whole.isEmpty && fraction.isEmpty then none else some (whole, fraction, rest) := by
  cases around with
  | plain spells ended noPoint =>
    rw [Numeral.splitMantissa?_of_no_point (split_spells admitted spells ended) noPoint]
    simp
  | @pointed before behind _ _ _ spellsWhole spellsFraction ended =>
    have digits := split_spells admitted spellsWhole (ended_point admitted (behind ++ rest))
    rw [List.append_assoc, List.cons_append, Numeral.splitMantissa?_of_point digits,
      split_spells admitted spellsFraction ended]

end

section

variable {front rest : List Char} {whole fraction : List Nat}

theorem ascii_of_spells {characters : List Char} {digits : List Nat} {base : Nat}
    (admitted : base ≤ 16) (spells : Spells base characters digits) :
    ∀ character ∈ characters, character.toNat < 0x80 :=
  fun character member =>
    isDigit_ascii admitted (((spells_iff admitted).mp spells).1 character member)

theorem length_of_spells {characters : List Char} {digits : List Nat} {base : Nat}
    (admitted : base ≤ 16) (spells : Spells base characters digits) :
    (bytes characters).length = digits.length := by
  rw [bytes_eq_map (ascii_of_spells admitted spells), List.length_map,
    List.Forall₂.length_eq spells]

theorem head?_point (rest : List Char) :
    (bytes ('.' :: rest)).head? = some (letterByte '.') :=
  (head?_bytes_iff (by decide)).mpr ⟨rest, rfl⟩

theorem head?_ne_point (noPoint : ∀ behind, rest ≠ '.' :: behind) :
    (bytes rest).head? ≠ some (letterByte '.') :=
  fun point => ((head?_bytes_iff (by decide)).mp point).elim noPoint

theorem decimalMantissa_bytes (around : Around 10 front rest whole fraction) :
    decimalMantissa (bytes (front ++ rest)) =
      .ok (whole.length, fraction.length, (bytes front).length) := by
  have decimal : (10 : Nat) ≤ 16 := by decide
  cases around with
  | plain spells ended noPoint =>
    have length := length_of_spells decimal spells
    rw [decimalMantissa, digitRun_bytes spells ended]
    dsimp only
    rw [← length, getElem?_bytes, if_neg (head?_ne_point noPoint)]
    rfl
  | @pointed before behind _ _ _ spellsWhole spellsFraction ended =>
    have run := digitRun_bytes spellsWhole (ended_point decimal (behind ++ rest))
    have length := length_of_spells decimal spellsWhole
    have lengthFraction := length_of_spells decimal spellsFraction
    rw [List.append_assoc, List.cons_append, decimalMantissa, run]
    dsimp only
    rw [← length, getElem?_bytes, if_pos (head?_point _), sliceFrom_letter _ _ (by decide),
      ok_bind, digitRun_bytes spellsFraction ended, bytes_append, bytes_cons (by decide),
      List.length_append, List.length_cons, lengthFraction, pure_eq_ok]
    congr 3
    omega

theorem takeWhile_hexadecimal {characters : List Char} {digits : List Nat}
    (spells : Spells 16 characters digits) (ended : Ended 16 rest) :
    (bytes (characters ++ rest)).takeWhile isHexadecimalByte = bytes characters := by
  have hexadecimal : (16 : Nat) ≤ 16 := by decide
  refine (takeWhile_bytes (fun _ => isDigit_ascii hexadecimal) _).trans (congrArg bytes ?_)
  rw [List.takeWhile_append_of_pos ((spells_iff hexadecimal).mp spells).1]
  have stops := (ended_iff hexadecimal).mp ended
  cases rest with
  | nil => exact List.append_nil _
  | cons character rest =>
    rw [List.takeWhile_cons_of_neg (by simpa using stops character rfl), List.append_nil]

theorem map_digitValue {characters : List Char} {digits : List Nat}
    (spells : Spells 16 characters digits) : (bytes characters).map digitValue = digits := by
  have hexadecimal : (16 : Nat) ≤ 16 := by decide
  have ascii := ascii_of_spells hexadecimal spells
  rw [bytes_eq_map ascii, List.map_map, ← ((spells_iff hexadecimal).mp spells).2]
  refine List.map_congr_left fun character member => ?_
  exact congrArg value (ofNat_letterByte (ascii character member))

theorem hexadecimalMantissa_bytes (around : Around 16 front rest whole fraction) :
    hexadecimalMantissa (bytes (front ++ rest)) = (whole, fraction, (bytes front).length) := by
  cases around with
  | plain spells ended noPoint =>
    rw [hexadecimalMantissa, takeWhile_hexadecimal spells ended]
    dsimp only
    rw [getElem?_bytes, if_neg (head?_ne_point noPoint), map_digitValue spells]
  | @pointed before behind _ _ _ spellsWhole spellsFraction ended =>
    have run := takeWhile_hexadecimal spellsWhole (ended_point (by decide) (behind ++ rest))
    have dropped : (bytes (before ++ '.' :: (behind ++ rest))).drop ((bytes before).length + 1) =
        bytes (behind ++ rest) := by
      rw [bytes_append, List.drop_length_add_append, bytes_cons (by decide)]
      rfl
    rw [List.append_assoc, List.cons_append, hexadecimalMantissa, run]
    dsimp only
    rw [getElem?_bytes, if_pos (head?_point _), dropped,
      takeWhile_hexadecimal spellsFraction ended, map_digitValue spellsWhole,
      map_digitValue spellsFraction, bytes_append before, bytes_cons (by decide), List.length_append,
      List.length_cons]
    congr 2
    omega

end

/-! ## Exponents -/

theorem bytes_of_spells {characters : List Char} {digits : List Nat}
    (spells : Spells 10 characters digits) : bytes characters = digits.map Integer.digitByte := by
  rw [bytes_eq_map (ascii_of_spells (by decide) spells)]
  induction spells with
  | nil => rfl
  | cons isDigit _ induction =>
    rw [List.map_cons, List.map_cons, induction, letterByte, (isDigit_decimal_iff.mp isDigit).2]
    rfl

theorem toInt_word {characters : List Char} {digits : List Nat}
    (spells : Spells 10 characters digits) :
    ((word? (bytes characters)).getD Int32.maxValue).toInt =
      (min (toNat 10 digits) Numeral.exponentCeiling : Nat) := by
  have ceiling : Numeral.exponentCeiling = 0x7FFFFFFF := rfl
  have values : (bytes characters).map (fun byte => byte.toNat - 0x30) = digits := by
    rw [bytes_of_spells spells, List.map_map]
    refine (List.map_congr_left fun digit member => ?_).trans (List.map_id' digits)
    have byte := Integer.toNat_digitByte (lt_of_spells spells digit member)
    simp [byte]
  rw [word?, values, ceiling]
  split
  · next small =>
    rw [Option.getD_some, Int32.toInt_ofNat_of_lt (Nat.lt_succ_of_le small), Nat.min_eq_left small]
  · next large =>
    rw [Option.getD_none, Nat.min_eq_right (Nat.le_of_not_le large)]
    rfl

/-- The power of two is at most the greatest word, which has a negation. -/
theorem exists_power (negative : Bool) {characters : List Char} {digits : List Nat}
    (spells : Spells 10 characters digits) :
    ∃ power, orFault .overflow
        (if negative then negatedWord? ((word? (bytes characters)).getD Int32.maxValue)
          else some ((word? (bytes characters)).getD Int32.maxValue)) = .ok power ∧
      power.toInt = if negative then -((min (toNat 10 digits) Numeral.exponentCeiling : Nat) : Int)
        else (min (toNat 10 digits) Numeral.exponentCeiling : Nat) := by
  have toInt := toInt_word spells
  generalize (word? (bytes characters)).getD Int32.maxValue = word at *
  have ceiling : Numeral.exponentCeiling = 0x7FFFFFFF := rfl
  cases negative with
  | false => exact ⟨word, rfl, toInt⟩
  | true =>
    have notLeast : word ≠ Int32.minValue := by
      rintro rfl
      exact absurd toInt.symm (by rw [Int32.toInt_minValue]; omega)
    refine ⟨-word, by rw [if_pos rfl, negatedWord?, if_neg notLeast]; rfl, ?_⟩
    rw [if_pos rfl, Int32.toInt_neg, toInt]
    exact Int.bmod_eq_of_le (by omega) (by omega)

/-- The letters in a number that are no digits, and the zero in front of one of them. -/
def marks : List Char :=
  ['e', 'p', 'x', '0']

theorem ascii_marks : ∀ mark ∈ marks, mark.toNat < 0x80 ∧ mark.toUpper.toNat < 0x80 :=
  List.all_iff_forall_prop.mp (by decide)

theorem toLower_eq_iff {mark letter : Char} (member : mark ∈ marks) :
    letter.toLower = mark ↔ letter = mark ∨ letter = mark.toUpper := by
  rcases Nat.lt_or_ge letter.toNat 0x80 with small | foreign
  · have letters : ∀ mark ∈ marks, ∀ code < 0x80, (Char.ofNat code).toLower = mark ↔
        Char.ofNat code = mark ∨ Char.ofNat code = mark.toUpper :=
      List.all_iff_forall_prop.mp (by decide)
    rw [← Char.ofNat_toNat letter]
    exact letters mark member _ small
  · have bounds := ascii_marks mark member
    rw [toLower_foreign foreign]
    refine ⟨.inl, fun either => either.resolve_right ?_⟩
    rintro rfl
    exact absurd bounds.2 (Nat.not_lt.mpr foreign)

theorem isMark_bytes {mark : Char} (member : mark ∈ marks) (front behind : List Char) :
    isMark mark (bytes (front ++ behind)) (bytes front).length = true ↔
      ∃ letter rest, behind = letter :: rest ∧ letter.toLower = mark := by
  have ascii := ascii_marks mark member
  rw [isMark, decide_eq_true_iff, getElem?_bytes, head?_bytes_iff ascii.1, head?_bytes_iff ascii.2]
  simp only [toLower_eq_iff member]
  constructor
  · rintro (⟨rest, rfl⟩ | ⟨rest, rfl⟩)
    · exact ⟨_, rest, rfl, .inl rfl⟩
    · exact ⟨_, rest, rfl, .inr rfl⟩
  · rintro ⟨letter, rest, rfl, rfl | rfl⟩
    · exact .inl ⟨rest, rfl⟩
    · exact .inr ⟨rest, rfl⟩

theorem toNat_lt_of_toLower {mark letter : Char} (member : mark ∈ marks)
    (lower : letter.toLower = mark) : letter.toNat < 0x80 := by
  rcases (toLower_eq_iff member).mp lower with rfl | rfl
  · exact (ascii_marks _ member).1
  · exact (ascii_marks _ member).2

theorem splitExponent_none {mark : Char} {behind : List Char}
    (noMark : ¬ ∃ letter rest, behind = letter :: rest ∧ letter.toLower = mark) :
    Numeral.splitExponent mark behind = (none, behind) := by
  rcases Numeral.splitExponent_cases mark behind with none | ⟨letter, rest, rfl, lower, -⟩
  · exact none
  · exact absurd ⟨letter, rest, rfl, lower⟩ noMark

theorem splitExponent_cons {mark letter : Char} (lower : letter.toLower = mark) (more : List Char) :
    Numeral.splitExponent mark (letter :: more) =
      if 0 < (SignedDigits.split more).1.digits.length then
        (some (SignedDigits.split more).1, (SignedDigits.split more).2)
      else (none, letter :: more) := by
  rw [Numeral.splitExponent]
  dsimp only
  simp only [lower, true_and, List.length_pos_iff]

section

variable (front behind : List Char)

/-- The length of the sign is not counted: it is found from what is left with and without it. -/
theorem signLength_bytes (sign exponent : List Char) {letter : Char}
    (ascii : letter.toNat < 0x80) :
    (do
      let behindMark ← difference (bytes (front ++ letter :: (sign ++ exponent))).length
        ((bytes front).length + 1)
      difference behindMark (bytes exponent).length) = .ok (bytes sign).length := by
  have whole : (bytes (front ++ letter :: (sign ++ exponent))).length =
      (bytes front).length + 1 + ((bytes sign).length + (bytes exponent).length) := by
    rw [bytes_append, bytes_cons ascii, bytes_append sign, List.length_append, List.length_cons,
      List.length_append]
    omega
  rw [whole, difference_eq (Nat.le_add_right _ _), ok_bind, Nat.add_sub_cancel_left,
    difference_eq (Nat.le_add_left _ _), Nat.add_sub_cancel_right]

/-- Where an exponent ends. -/
theorem exponentEnd_bytes :
    ∃ taken, behind = taken ++ (Numeral.splitExponent 'e' behind).2 ∧
      Numeral.Exponent 'e' taken (Numeral.splitExponent 'e' behind).1 ∧
      exponentEnd (bytes (front ++ behind)) (bytes front).length =
        .ok (bytes (front ++ taken)).length := by
  by_cases mark : isMark 'e' (bytes (front ++ behind)) (bytes front).length = true
  · rcases (isMark_bytes (by decide) front behind).mp mark with ⟨letter, more, rfl, lower⟩
    have ascii := toNat_lt_of_toLower (by decide) lower
    rcases exists_signedDigits more with ⟨sign, characters, parts, isSign, spells, signed, run⟩
    rw [splitExponent_cons lower, exponentEnd, if_pos mark, sliceFrom_letter _ _ ascii, ok_bind,
      signed, ok_bind]
    dsimp only
    rw [run]
    split
    · next some =>
      have length := signLength_bytes front sign (characters ++ (SignedDigits.split more).2) ascii
      have taken : (bytes (front ++ letter :: (sign ++ characters))).length =
          (bytes front).length + 1 + (bytes sign).length +
            (SignedDigits.split more).1.digits.length := by
        rw [bytes_append, bytes_cons ascii, bytes_append, List.length_append, List.length_cons,
          List.length_append, length_of_spells (by decide) spells]
        omega
      refine ⟨letter :: (sign ++ characters), ?_,
        .marked lower isSign spells (List.length_pos_iff.mp some), ?_⟩
      · rw [List.cons_append, List.append_assoc, ← parts]
      · rw [← parts] at length
        rw [← bind_assoc, length, ok_bind, taken]
        rfl
    · exact ⟨[], rfl, .none, by rw [List.append_nil]; rfl⟩
  · have noMark := mt (isMark_bytes (by decide) front behind).mpr mark
    rw [splitExponent_none noMark, exponentEnd, if_neg mark]
    exact ⟨[], rfl, .none, by rw [List.append_nil]; rfl⟩

theorem scaled_bytes (number : Binary) :
    scaled (bytes (front ++ behind)) (bytes front).length number =
      .ok (Numeral.scale number (Numeral.splitExponent 'p' behind).1) := by
  by_cases mark : isMark 'p' (bytes (front ++ behind)) (bytes front).length = true
  · rcases (isMark_bytes (by decide) front behind).mp mark with ⟨letter, more, rfl, lower⟩
    have ascii := toNat_lt_of_toLower (by decide) lower
    rcases exists_signedDigits more with ⟨sign, characters, parts, isSign, spells, signed, run⟩
    have cut := sliceTo_bytes characters (SignedDigits.split more).2
    rw [length_of_spells (by decide) spells] at cut
    rcases exists_power (SignedDigits.split more).1.negative spells with ⟨power, found, power_eq⟩
    rw [splitExponent_cons lower, scaled, if_pos mark, sliceFrom_letter _ _ ascii, ok_bind, signed,
      ok_bind]
    dsimp only
    rw [run]
    by_cases some : 0 < (SignedDigits.split more).1.digits.length
    · rw [if_pos some, Numeral.scale]
      by_cases zero : number.isZero = true
      · rw [if_neg (by simp [zero]), if_pos zero]
        rfl
      · rw [if_pos ⟨some, zero⟩, if_neg zero, cut, ok_bind, found, ok_bind, power_eq]
        rfl
    · rw [if_neg some, if_neg fun both => some both.1]
      rfl
  · have noMark := mt (isMark_bytes (by decide) front behind).mpr mark
    rw [splitExponent_none noMark, scaled, if_neg mark]
    rfl

end

end Machine

end ScriptLexer
