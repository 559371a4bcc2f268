import ScriptLexer.Proofs.Json.Strings

/-!
# Numbers are read to their end

A number is read whatever its size, up to the character behind it. That is a mark or a blank, which
goes on with no number.
-/

namespace ScriptLexer

namespace Json

open Digits

/-- What ends a value in a list or an object. -/
def marks : List Char :=
  [',', ']', '\x7d']

/-- What may follow a value: nothing, a mark or a blank. -/
def Ends (rest : List Char) : Prop :=
  ∀ character ∈ rest.head?, character ∈ marks ++ blankCharacters

theorem ends_cons {mark : Char} (isMark : mark ∈ marks) (rest : List Char) :
    Ends (mark :: rest) := by
  rintro character ⟨⟩
  exact List.mem_append_left _ isMark

theorem ends_append {blanks rest : List Char} (blank : Blanks blanks) (ends : Ends rest) :
    Ends (blanks ++ rest) := by
  intro character head
  rcases blanks with _ | ⟨first, blanks⟩
  · exact ends character head
  · cases head
    exact List.mem_append_right _ (blank character List.mem_cons_self)

namespace Number

variable {rest : List Char}

/-! ## Where digits end -/

theorem ended_cons {first : Char} (notDigit : isDigit 10 first = false) (rest : List Char) :
    Ended 10 (first :: rest) := by
  refine (ended_iff (by decide)).mpr fun character head => ?_
  cases head
  exact notDigit

theorem ended_of_ends (ends : Ends rest) : Ended 10 rest := by
  have noDigit : ∀ character ∈ marks ++ blankCharacters, isDigit 10 character = false :=
    List.all_iff_forall_prop.mp (by decide)
  exact (ended_iff (by decide)).mpr fun character head => noDigit character (ends character head)

theorem ended_exponent {exponent : List Char} (isExponent : IsExponent exponent) (ends : Ends rest) :
    Ended 10 (exponent ++ rest) := by
  rcases isExponent with _ | ⟨isMark, -, -, -⟩
  · exact ended_of_ends ends
  · rcases isMark with rfl | rfl
    · exact ended_cons (by decide) _
    · exact ended_cons (by decide) _

theorem ended_fraction {fraction following : List Char} (isFraction : IsFraction fraction)
    (ended : Ended 10 following) : Ended 10 (fraction ++ following) := by
  rcases isFraction with _ | ⟨-, -⟩
  · exact ended
  · exact ended_cons (by decide) _

/-! ## The parts of a number -/

variable (unfinished : Fault)

theorem readDigits_spelled {characters : List Char} {digits : List Nat}
    (spells : Spells 10 characters digits) (nonempty : digits ≠ []) (ended : Ended 10 rest) :
    ∃ shorter, readDigits unfinished (characters ++ rest) = .ok (digits, ⟨rest, shorter⟩) := by
  rcases Prod.mk.inj (split_spells (by decide) spells ended) with ⟨values, left⟩
  have counted : 0 < characters.length := by
    rw [spells.length_eq]
    exact List.length_pos_iff.mpr nonempty
  have shorter : rest.length < (characters ++ rest).length := by
    rw [List.length_append]
    omega
  refine ⟨shorter, ?_⟩
  simp only [readDigits, values, left]
  exact dif_pos shorter

theorem readWhole_spelled {whole : List Char} (isWhole : IsWhole whole) (ended : Ended 10 rest) :
    ∃ digits shorter, readWhole unfinished (whole ++ rest) = .ok (digits, ⟨rest, shorter⟩) := by
  rcases isWhole with _ | @⟨_, first, others, spells, nonzero⟩
  · have zero : Spells 10 ['0'] [0] := .cons ⟨by decide, .inl rfl⟩ .nil
    rcases readDigits_spelled unfinished zero (List.cons_ne_nil _ _) ended with ⟨shorter, read⟩
    rw [readWhole, read]
    exact ⟨_, _, rfl⟩
  · rcases readDigits_spelled unfinished spells (List.cons_ne_nil _ _) ended with ⟨shorter, read⟩
    rw [readWhole, read]
    refine ⟨first :: others, shorter, ?_⟩
    exact if_neg fun zeros => nonzero (Option.some.inj zeros.1)

theorem readFraction_spelled {fraction : List Char} (isFraction : IsFraction fraction)
    (ended : Ended 10 rest) (noPoint : rest.head? ≠ some '.') :
    ∃ digits bound, readFraction unfinished (fraction ++ rest) = .ok (digits, ⟨rest, bound⟩) := by
  rcases isFraction with _ | ⟨spells, nonempty⟩
  · rw [List.nil_append, readFraction.eq_def]
    refine ⟨[], Nat.le_refl _, ?_⟩
    split
    · exact (noPoint rfl).elim
    · rfl
  · rcases readDigits_spelled unfinished spells nonempty ended with ⟨shorter, read⟩
    rw [List.cons_append, readFraction, read]
    exact ⟨_, _, rfl⟩

theorem readExponent_spelled {exponent : List Char} (isExponent : IsExponent exponent)
    (ends : Ends rest) :
    ∃ digits bound, readExponent unfinished (exponent ++ rest) = .ok (digits, ⟨rest, bound⟩) := by
  rcases isExponent with _ | @⟨_, sign, characters, negative, _, isMark, isSign, spells, nonempty⟩
  · rcases rest with _ | ⟨first, rest⟩
    · exact ⟨none, Nat.le_refl _, rfl⟩
    · have noMark : ∀ character ∈ marks ++ blankCharacters,
          ¬ (character = 'e' ∨ character = 'E') := List.all_iff_forall_prop.mp (by decide)
      rw [List.nil_append, readExponent, if_neg (noMark first (ends first rfl))]
      exact ⟨none, Nat.le_refl _, rfl⟩
  · have unsigned := unsigned_append (by decide) spells nonempty rest
    have behind : (splitSign (sign ++ characters ++ rest)).2 = characters ++ rest := by
      rw [List.append_assoc, splitSign_append isSign fun _ => unsigned]
    have read := readDigits_spelled unfinished spells nonempty (ended_of_ends ends)
    rw [← behind] at read
    rcases read with ⟨shorter, read⟩
    rw [List.cons_append, readExponent, if_pos isMark, read]
    exact ⟨_, _, rfl⟩

/-! ## The whole number -/

theorem head?_exponent_ne_point {exponent : List Char} (isExponent : IsExponent exponent)
    (ends : Ends rest) : (exponent ++ rest).head? ≠ some '.' := by
  intro point
  rcases isExponent with _ | ⟨isMark, -, -, -⟩
  · exact absurd (ends '.' point) (by decide)
  · cases point
    exact absurd isMark (by decide)

theorem readUnsigned_spelled {whole fraction exponent : List Char} (isWhole : IsWhole whole)
    (isFraction : IsFraction fraction) (isExponent : IsExponent exponent) (ends : Ends rest) :
    ∃ number shorter, readUnsigned unfinished (whole ++ (fraction ++ (exponent ++ rest))) =
      .ok (number, ⟨rest, shorter⟩) := by
  have ended := ended_exponent isExponent ends
  rcases readWhole_spelled unfinished isWhole (ended_fraction isFraction ended) with
    ⟨digits, shorter, readWhole⟩
  rcases readFraction_spelled unfinished isFraction ended
    (head?_exponent_ne_point isExponent ends) with ⟨behind, bound, readFraction⟩
  rcases readExponent_spelled unfinished isExponent ends with ⟨raised, boundLast, readExponent⟩
  rw [readUnsigned, readWhole, ok_bind]
  dsimp only
  rw [readFraction, ok_bind]
  dsimp only
  rw [readExponent, ok_bind]
  exact ⟨_, _, rfl⟩

theorem exists_digit {whole : List Char} (isWhole : IsWhole whole) :
    ∃ first others, whole = first :: others ∧ isDigit 10 first = true := by
  rcases isWhole with _ | ⟨spells, -⟩
  · exact ⟨'0', [], rfl, by decide⟩
  · cases spells with
    | cons first _ => exact ⟨_, _, rfl, ((isDigit_iff (by decide)).mp first).1⟩

theorem read_spelled {text : List Char} (isNumber : IsNumber text) (ends : Ends rest) :
    ∃ number shorter, read unfinished (text ++ rest) = .ok (number, ⟨rest, shorter⟩) := by
  rcases isNumber with ⟨sign, isWhole, isFraction, isExponent⟩
  rcases readUnsigned_spelled unfinished isWhole isFraction isExponent ends with
    ⟨number, shorter, spelled⟩
  rw [List.append_assoc, List.append_assoc, List.append_assoc]
  rcases sign with rfl | rfl
  · rcases exists_digit isWhole with ⟨first, others, rfl, isDigit⟩
    rw [List.nil_append, read]
    · exact ⟨number, shorter, spelled⟩
    · rintro rest ⟨⟩
      exact absurd isDigit (by decide)
  · rw [List.cons_append, List.nil_append, read, spelled]
    exact ⟨_, _, rfl⟩

/-- A number is told by its first character. -/
theorem exists_start {text : List Char} (isNumber : IsNumber text) :
    ∃ first others, text = first :: others ∧ isNumberStart first = true := by
  rcases isNumber with ⟨sign, isWhole, -, -⟩
  rcases exists_digit isWhole with ⟨first, others, rfl, isDigit⟩
  rcases sign with rfl | rfl
  · exact ⟨first, _, rfl, Bool.or_eq_true_iff.mpr (.inr isDigit)⟩
  · exact ⟨'-', _, rfl, by decide⟩

end Number

end Json

end ScriptLexer
