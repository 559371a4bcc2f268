import ScriptLexer.Proofs.Value.Digits

/-!
# The parts of a numeral are found as the grammar has them

Every reader of a part is told by two facts. What it takes is spelled by what it took. And where a text
begins with a spelling it takes that, or else something that goes on behind it, never less.
-/

namespace ScriptLexer

namespace Numeral

open Digits

/-! ## Words -/

theorem afterWord?_eq_some_iff {word : String} {text rest : List Char} :
    afterWord? word text = some rest ↔
      ∃ characters, text = characters ++ rest ∧ characters.map Char.toLower = word.toList := by
  unfold afterWord?
  dsimp only
  constructor
  · intro found
    split at found
    · next spelled =>
      cases found
      exact ⟨_, (List.take_append_drop _ _).symm, spelled⟩
    · cases found
  · rintro ⟨characters, rfl, spelled⟩
    have length : word.toList.length = characters.length := by rw [← spelled, List.length_map]
    rw [length, List.take_left, if_pos spelled, List.drop_left]

theorem afterWord?_append {word : String} {characters : List Char}
    (spelled : characters.map Char.toLower = word.toList) (following : List Char) :
    afterWord? word (characters ++ following) = some following :=
  afterWord?_eq_some_iff.mpr ⟨characters, rfl, spelled⟩

/-- A text does not begin with a word if its first character is another one. -/
theorem afterWord?_eq_none {word : String} {first : Char} {rest : List Char}
    (other : word.toList.head? ≠ some first.toLower) (nonempty : word.toList ≠ []) :
    afterWord? word (first :: rest) = none := by
  rw [Option.eq_none_iff_forall_ne_some]
  intro following found
  rcases afterWord?_eq_some_iff.mp found with ⟨characters, parts, spelled⟩
  rcases characters with _ | ⟨character, later⟩
  · exact nonempty spelled.symm
  · cases parts
    rw [← spelled] at other
    exact other rfl

/-! ## Mantissas -/

section

variable {base : Nat} {text : List Char}

theorem splitMantissa?_of_point {whole : List Nat} {rest : List Char}
    (digits : split base text = (whole, '.' :: rest)) :
    splitMantissa? base text =
      if whole.isEmpty && (split base rest).1.isEmpty then none
      else some (whole, split base rest) := by
  simp only [splitMantissa?, digits]

theorem splitMantissa?_of_no_point {whole : List Nat} {rest : List Char}
    (digits : split base text = (whole, rest)) (noPoint : ∀ behind, rest ≠ '.' :: behind) :
    splitMantissa? base text = if whole.isEmpty then none else some (whole, [], rest) := by
  simp [splitMantissa?, digits]

variable (admitted : base ≤ 16)
include admitted

theorem exists_splitMantissa? {whole fraction : List Nat} {rest : List Char}
    (found : splitMantissa? base text = some (whole, fraction, rest)) :
    ∃ characters, text = characters ++ rest ∧ Mantissa base characters whole fraction := by
  rcases exists_split admitted text with ⟨before, parts, spellsWhole, -⟩
  rcases digits : split base text with ⟨wholeDigits, behindWhole⟩
  simp only [digits] at parts spellsWhole
  by_cases point : ∃ behindPoint, behindWhole = '.' :: behindPoint
  · rcases point with ⟨behindPoint, rfl⟩
    rcases exists_split admitted behindPoint with ⟨behind, behindParts, spellsFraction, -⟩
    rw [splitMantissa?_of_point digits] at found
    rcases fractionDigits : split base behindPoint with ⟨fractionDigits, behindFraction⟩
    simp only [fractionDigits] at behindParts spellsFraction found
    split at found
    · cases found
    · next nonempty =>
      cases found
      refine ⟨before ++ '.' :: behind, ?_, .pointed spellsWhole spellsFraction ?_⟩
      · rw [parts, behindParts, List.append_assoc, List.cons_append]
      · simpa [Classical.or_iff_not_imp_left] using nonempty
  · rw [splitMantissa?_of_no_point digits fun behind equal => point ⟨behind, equal⟩] at found
    split at found
    · cases found
    · next nonempty =>
      cases found
      exact ⟨before, parts, .plain spellsWhole (by simpa using nonempty)⟩

theorem Mantissa.toLower_mem {characters : List Char} {whole fraction : List Nat}
    (mantissa : Mantissa base characters whole fraction) :
    ∀ character ∈ characters, character.toLower ∈ '.' :: lowerCase.take base := by
  cases mantissa with
  | plain spells _ =>
    exact fun character member =>
      List.mem_cons_of_mem _ (toLower_mem_of_spells admitted spells character member)
  | pointed spellsWhole spellsFraction _ =>
    intro character member
    rcases List.mem_append.mp member with before | behind
    · exact List.mem_cons_of_mem _ (toLower_mem_of_spells admitted spellsWhole character before)
    rcases List.mem_cons.mp behind with rfl | behind
    · exact List.mem_cons_self
    · exact List.mem_cons_of_mem _ (toLower_mem_of_spells admitted spellsFraction character behind)

theorem Mantissa.exists_cons {characters : List Char} {whole fraction : List Nat}
    (mantissa : Mantissa base characters whole fraction) :
    ∃ first later, characters = first :: later ∧ first.toLower ∈ '.' :: lowerCase.take base := by
  cases mantissa with
  | plain spells nonempty =>
    cases spells with
    | nil => exact (nonempty rfl).elim
    | cons first _ => exact ⟨_, _, rfl, List.mem_cons_of_mem _ (Digits.toLower_mem admitted first)⟩
  | pointed spellsWhole _ _ =>
    cases spellsWhole with
    | nil => exact ⟨'.', _, rfl, List.mem_cons_self⟩
    | cons first _ => exact ⟨_, _, rfl, List.mem_cons_of_mem _ (Digits.toLower_mem admitted first)⟩

theorem splitMantissa?_append {characters : List Char} {whole fraction : List Nat}
    (mantissa : Mantissa base characters whole fraction) (following : List Char) :
    ∃ otherWhole otherFraction rest,
      splitMantissa? base (characters ++ following) = some (otherWhole, otherFraction, rest) ∧
      rest <:+ following ∧
      (rest = following → otherWhole = whole ∧ otherFraction = fraction) := by
  cases mantissa with
  | plain spells nonempty =>
    rcases exists_split_append admitted spells following with ⟨more, rest, digits, suffix, all⟩
    have notEmpty : (whole ++ more).isEmpty = false := by simp [nonempty]
    by_cases point : ∃ behind, rest = '.' :: behind
    · -- A point behind the digits is taken too, so something of what follows is.
      rcases point with ⟨behind, rfl⟩
      have shorter : (split base behind).2 <:+ behind := List.dropWhile_suffix _
      rw [splitMantissa?_of_point digits, notEmpty]
      refine ⟨whole ++ more, (split base behind).1, (split base behind).2, rfl,
        shorter.trans ((List.suffix_cons _ _).trans suffix), fun equal => ?_⟩
      have lengths := suffix.length_le
      have shorterLengths := shorter.length_le
      rw [equal] at shorterLengths
      rw [List.length_cons] at lengths
      omega
    · rw [splitMantissa?_of_no_point digits fun behind equal => point ⟨behind, equal⟩, notEmpty]
      exact ⟨_, _, _, rfl, suffix, fun equal => ⟨by rw [all equal, List.append_nil], rfl⟩⟩
  | @pointed before behind _ _ spellsWhole spellsFraction nonempty =>
    have digits := split_spells admitted spellsWhole (ended_point admitted (behind ++ following))
    rcases exists_split_append admitted spellsFraction following with
      ⟨more, rest, fractionDigits, suffix, all⟩
    have notEmpty : (whole.isEmpty && (fraction ++ more).isEmpty) = false := by
      rcases nonempty with nonempty | nonempty
      · simp [nonempty]
      · simp [nonempty]
    rw [List.append_assoc, List.cons_append, splitMantissa?_of_point digits, fractionDigits,
      notEmpty]
    exact ⟨_, _, _, rfl, suffix, fun equal => ⟨rfl, by rw [all equal, List.append_nil]⟩⟩

/-- A character that no mantissa has is where one ends. -/
theorem splitMantissa?_append_cons {characters : List Char} {whole fraction : List Nat}
    (mantissa : Mantissa base characters whole fraction) {letter : Char}
    (other : letter.toLower ∉ '.' :: lowerCase.take base) (following : List Char) :
    splitMantissa? base (characters ++ letter :: following) =
      some (whole, fraction, letter :: following) := by
  rcases splitMantissa?_append admitted mantissa (letter :: following) with
    ⟨otherWhole, otherFraction, rest, found, suffix, all⟩
  rcases List.suffix_cons_iff.mp suffix with equal | shorter
  · rcases all equal with ⟨rfl, rfl⟩
    rw [found, equal]
  · -- Otherwise the character would be among those taken.
    rcases exists_splitMantissa? admitted found with ⟨taken, parts, isMantissa⟩
    rcases shorter with ⟨between, rfl⟩
    have equal : characters ++ letter :: between = taken :=
      List.append_cancel_right (by simpa using parts)
    have member : letter ∈ taken := equal ▸ List.mem_append_right _ List.mem_cons_self
    exact (other (isMantissa.toLower_mem admitted letter member)).elim

end

/-! ## Exponents -/

section

variable {mark : Char}

/-- Without digits behind the mark nothing is taken at all. -/
theorem splitExponent_cases (mark : Char) (text : List Char) :
    splitExponent mark text = (none, text) ∨
      ∃ letter rest, text = letter :: rest ∧ letter.toLower = mark ∧
        (SignedDigits.split rest).1.digits ≠ [] ∧
        splitExponent mark text =
          (some (SignedDigits.split rest).1, (SignedDigits.split rest).2) := by
  rcases text with _ | ⟨letter, rest⟩
  · exact .inl rfl
  · by_cases taken : letter.toLower = mark ∧ (SignedDigits.split rest).1.digits ≠ []
    · exact .inr ⟨letter, rest, rfl, taken.1, taken.2, if_pos taken⟩
    · exact .inl (if_neg taken)

theorem exists_splitExponent (mark : Char) (text : List Char) :
    ∃ characters, text = characters ++ (splitExponent mark text).2 ∧
      Exponent mark characters (splitExponent mark text).1 := by
  rcases splitExponent_cases mark text with nothing | ⟨letter, rest, rfl, isMark, nonempty, found⟩
  · rw [nothing]
    exact ⟨[], rfl, .none⟩
  · rw [found]
    rcases SignedDigits.exists_split rest with ⟨sign, characters, parts, isSign, -, spells, -⟩
    refine ⟨letter :: (sign ++ characters), ?_, .marked isMark isSign spells nonempty⟩
    rw [List.cons_append, List.append_assoc, ← parts]

theorem Exponent.eq_none {exponent : Option SignedDigits} (isExponent : Exponent mark [] exponent) :
    exponent = .none := by
  cases isExponent
  rfl

theorem splitExponent_append {characters : List Char} {exponent : Option SignedDigits}
    (isExponent : Exponent mark characters exponent) (following : List Char) :
    ∃ other rest, splitExponent mark (characters ++ following) = (other, rest) ∧
      rest <:+ following ∧ (rest = following → other = exponent) := by
  cases isExponent with
  | none =>
    rcases exists_splitExponent mark following with ⟨taken, parts, isExponent⟩
    refine ⟨(splitExponent mark following).1, (splitExponent mark following).2, rfl,
      ⟨taken, parts.symm⟩, fun all => ?_⟩
    rw [all] at parts
    rw [List.self_eq_append_left.mp parts] at isExponent
    exact isExponent.eq_none
  | @marked letter sign characters negative digits isMark isSign spells nonempty =>
    rcases SignedDigits.exists_split_append isSign spells nonempty following with
      ⟨more, rest, found, suffix, all⟩
    refine ⟨some { negative, digits := digits ++ more }, rest, ?_, suffix, fun equal => ?_⟩
    · have some : letter.toLower = mark ∧ digits ++ more ≠ [] := ⟨isMark, by simp [nonempty]⟩
      rw [List.cons_append, List.append_assoc, splitExponent, found]
      exact if_pos some
    · rw [all equal, List.append_nil]

theorem Exponent.toLower_mem {characters : List Char} {exponent : Option SignedDigits}
    (isExponent : Exponent mark characters exponent) :
    ∀ character ∈ characters, character.toLower ∈ mark :: '+' :: '-' :: lowerCase.take 10 := by
  cases isExponent with
  | none => exact List.forall_mem_nil _
  | @marked _ sign _ _ _ isMark isSign spells _ =>
    have signs : ∀ character ∈ sign, character.toLower ∈ ['+', '-'] := by
      cases isSign <;> exact List.all_iff_forall_prop.mp (by decide)
    intro character member
    rcases List.mem_cons.mp member with rfl | member
    · rw [isMark]
      exact List.mem_cons_self
    rcases List.mem_append.mp member with sign | digit
    · exact List.mem_cons_of_mem _ (List.mem_append_left _ (signs character sign))
    · exact List.mem_cons_of_mem _ (List.mem_append_right ['+', '-']
        (toLower_mem_of_spells (by decide) spells character digit))

/-- A mantissa and what may be its exponent are found together, as its mark is no part of a mantissa. -/
theorem splitMantissa?_append_exponent {base : Nat} (admitted : base ≤ 16)
    (other : mark ∉ '.' :: lowerCase.take base) {mantissa characters : List Char}
    {whole fraction : List Nat} {exponent : Option SignedDigits}
    (isMantissa : Mantissa base mantissa whole fraction)
    (isExponent : Exponent mark characters exponent) (following : List Char) :
    ∃ otherWhole otherFraction behind,
      splitMantissa? base (mantissa ++ (characters ++ following)) =
        some (otherWhole, otherFraction, behind) ∧
      (splitExponent mark behind).2 <:+ following ∧
      ((splitExponent mark behind).2 = following →
        otherWhole = whole ∧ otherFraction = fraction ∧
          (splitExponent mark behind).1 = exponent) := by
  cases isExponent with
  | none =>
    rcases splitMantissa?_append admitted isMantissa following with
      ⟨otherWhole, otherFraction, behind, found, suffix, all⟩
    rcases splitExponent_append (.none : Exponent mark [] none) behind with
      ⟨other, rest, foundExponent, restSuffix, allRest⟩
    rw [List.nil_append] at foundExponent
    refine ⟨otherWhole, otherFraction, behind, found, ?_, ?_⟩
    · rw [foundExponent]
      exact restSuffix.trans suffix
    · rw [foundExponent]
      rintro rfl
      have equal : behind = rest := suffix.eq_of_length_le restSuffix.length_le
      exact ⟨(all equal).1, (all equal).2, allRest equal.symm⟩
  | @marked letter sign characters negative digits isMark isSign spells nonempty =>
    rcases splitExponent_append (.marked isMark isSign spells nonempty) following with
      ⟨otherExponent, rest, found, suffix, all⟩
    refine ⟨whole, fraction, _,
      splitMantissa?_append_cons admitted isMantissa (isMark ▸ other) _, ?_, ?_⟩
    · exact found ▸ suffix
    · exact found ▸ fun equal => ⟨rfl, rfl, all equal⟩

end

end Numeral

end ScriptLexer
