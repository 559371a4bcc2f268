import ScriptLexer.Proofs.Value.Parts

/-!
# The longest numeral is read

Words, hexadecimal and decimal numerals are tried in this order, and the first one that a text begins
with is the longest one. What stands for a text is what its longest numeral stands for. Nothing behind
that numeral has an effect.
-/

namespace ScriptLexer

namespace Numeral

open Digits

/-! ## Words -/

theorem splitWord?_eq (text : List Char) :
    splitWord? text =
      ((afterWord? "infinity" text).map (infinity, ·)).or
        (((afterWord? "inf" text).map (infinity, ·)).or
          ((afterWord? "nan" text).map (notANumber, ·))) := by
  simp only [splitWord?, List.findSome?_cons, List.findSome?_nil]
  cases afterWord? "infinity" text <;> cases afterWord? "inf" text <;>
    cases afterWord? "nan" text <;> rfl

theorem splitWord?_eq_none {first : Char} (other : first.toLower ∉ ['i', 'n'])
    (rest : List Char) : splitWord? (first :: rest) = none := by
  have noWord : ∀ word ∈ ["infinity", "inf", "nan"], afterWord? word (first :: rest) = none := by
    intro word member
    have heads : ∀ word ∈ ["infinity", "inf", "nan"],
        word.toList ≠ [] ∧ word.toList.head? ∈ ['i', 'n'].map some := by decide
    rcases heads word member with ⟨nonempty, head⟩
    refine afterWord?_eq_none (fun equal => other ?_) nonempty
    rw [equal] at head
    rcases List.mem_map.mp head with ⟨letter, member, same⟩
    exact Option.some.inj same ▸ member
  rw [splitWord?_eq, noWord "infinity" (by decide), noWord "inf" (by decide),
    noWord "nan" (by decide)]
  rfl

theorem exists_splitWord? {text rest : List Char} {numeral : Numeral}
    (found : splitWord? text = some (numeral, rest)) :
    ∃ body, text = body ++ rest ∧ Spelled body numeral := by
  rcases List.exists_of_findSome?_eq_some found with ⟨⟨word, value⟩, member, taken⟩
  rcases Option.map_eq_some_iff.mp taken with ⟨_, isWord, equal⟩
  rcases afterWord?_eq_some_iff.mp isWord with ⟨body, parts, spelled⟩
  cases equal
  refine ⟨body, parts, ?_⟩
  simp only [List.mem_cons, Prod.mk.injEq, List.not_mem_nil, or_false] at member
  rcases member with ⟨rfl, rfl⟩ | ⟨rfl, rfl⟩ | ⟨rfl, rfl⟩
  · exact .infinity (.inl spelled)
  · exact .infinity (.inr spelled)
  · exact .notANumber spelled

/-- The long word for an infinity begins with the short one. -/
theorem splitWord?_append_infinity {word : List Char}
    (isWord : word.map Char.toLower = "infinity".toList ∨ word.map Char.toLower = "inf".toList)
    (following : List Char) :
    ∃ rest, splitWord? (word ++ following) = some (infinity, rest) ∧ rest <:+ following := by
  rw [splitWord?_eq]
  rcases isWord with long | short
  · rw [afterWord?_append long]
    exact ⟨following, rfl, List.suffix_rfl⟩
  · rw [afterWord?_append short]
    cases long : afterWord? "infinity" (word ++ following) with
    | none => exact ⟨following, rfl, List.suffix_rfl⟩
    | some rest =>
      rcases afterWord?_eq_some_iff.mp long with ⟨characters, parts, spelled⟩
      refine ⟨rest, rfl, List.suffix_of_suffix_length_le ⟨characters, parts.symm⟩
        (List.suffix_append word following) ?_⟩
      have shortLength := congrArg List.length short
      have longLength := congrArg List.length spelled
      have lengths := congrArg List.length parts
      simp only [List.length_map, List.length_append, String.reduceToList, List.length_cons,
        List.length_nil] at shortLength longLength lengths
      omega

theorem splitWord?_append_notANumber {word : List Char}
    (isWord : word.map Char.toLower = "nan".toList) (following : List Char) :
    splitWord? (word ++ following) = some (notANumber, following) := by
  have after := afterWord?_append isWord following
  rcases List.map_eq_cons_iff.mp (show word.map Char.toLower = 'n' :: ['a', 'n'] from isWord) with
    ⟨first, rest, rfl, isN, -⟩
  have others : ∀ word ∈ ["infinity", "inf"],
      afterWord? word (first :: (rest ++ following)) = none := by
    intro word member
    have heads : ∀ word ∈ ["infinity", "inf"], word.toList ≠ [] ∧ word.toList.head? ≠ some 'n' := by
      decide
    exact afterWord?_eq_none (isN ▸ (heads word member).2) (heads word member).1
  rw [List.cons_append] at after ⊢
  rw [splitWord?_eq, others "infinity" (by decide), others "inf" (by decide), after]
  rfl

/-! ## Hexadecimal and decimal numerals -/

theorem exists_splitHexadecimal? {text rest : List Char} {numeral : Numeral}
    (found : splitHexadecimal? text = some (numeral, rest)) :
    ∃ opener body, text = opener ++ (body ++ rest) ∧ opener.map Char.toLower = "0x".toList ∧
      Spelled (opener ++ body) numeral := by
  simp only [splitHexadecimal?, Option.bind_eq_bind, Option.bind_eq_some_iff] at found
  rcases found with ⟨behindOpener, opened, ⟨whole, fraction, behind⟩, mantissaFound, result⟩
  rcases afterWord?_eq_some_iff.mp opened with ⟨opener, openerParts, opens⟩
  rcases exists_splitMantissa? (by decide) mantissaFound with ⟨mantissa, parts, isMantissa⟩
  rcases exists_splitExponent 'p' behind with ⟨exponent, exponentParts, isExponent⟩
  cases result
  refine ⟨opener, mantissa ++ exponent, ?_, opens, .hexadecimal opens isMantissa isExponent⟩
  rw [openerParts, parts, List.append_assoc, ← exponentParts]

theorem exists_splitDecimal? {text rest : List Char} {numeral : Numeral}
    (found : splitDecimal? text = some (numeral, rest)) :
    ∃ body, text = body ++ rest ∧ Spelled body numeral := by
  simp only [splitDecimal?, Option.bind_eq_bind, Option.bind_eq_some_iff] at found
  rcases found with ⟨⟨whole, fraction, behind⟩, mantissaFound, result⟩
  rcases exists_splitMantissa? (by decide) mantissaFound with ⟨mantissa, parts, isMantissa⟩
  rcases exists_splitExponent 'e' behind with ⟨exponent, exponentParts, isExponent⟩
  cases result
  refine ⟨mantissa ++ exponent, ?_, .decimal isMantissa isExponent⟩
  rw [parts, List.append_assoc, ← exponentParts]

section

variable {mantissa exponent : List Char} {whole fraction : List Nat}
  {spelledExponent : Option SignedDigits}

theorem splitHexadecimal?_append {opener : List Char}
    (opens : opener.map Char.toLower = "0x".toList)
    (isMantissa : Mantissa 16 mantissa whole fraction)
    (isExponent : Exponent 'p' exponent spelledExponent) (following : List Char) :
    ∃ other rest,
      splitHexadecimal? (opener ++ (mantissa ++ exponent) ++ following) = some (other, rest) ∧
      rest <:+ following ∧
      (rest = following → other = hexadecimal whole fraction spelledExponent) := by
  rcases splitMantissa?_append_exponent (by decide) (by decide) isMantissa isExponent following with
    ⟨otherWhole, otherFraction, behind, found, suffix, all⟩
  refine ⟨hexadecimal otherWhole otherFraction (splitExponent 'p' behind).1, _, ?_, suffix, ?_⟩
  · rw [List.append_assoc, List.append_assoc, splitHexadecimal?, afterWord?_append opens]
    simp only [Option.bind_eq_bind, Option.bind_some, found]
    rfl
  · intro equal
    rcases all equal with ⟨rfl, rfl, rfl⟩
    rfl

theorem splitDecimal?_append (isMantissa : Mantissa 10 mantissa whole fraction)
    (isExponent : Exponent 'e' exponent spelledExponent) (following : List Char) :
    ∃ other rest, splitDecimal? (mantissa ++ exponent ++ following) = some (other, rest) ∧
      rest <:+ following ∧ (rest = following → other = decimal whole fraction spelledExponent) := by
  rcases splitMantissa?_append_exponent (by decide) (by decide) isMantissa isExponent following with
    ⟨otherWhole, otherFraction, behind, found, suffix, all⟩
  refine ⟨decimal otherWhole otherFraction (splitExponent 'e' behind).1, _, ?_, suffix, ?_⟩
  · rw [List.append_assoc, splitDecimal?]
    simp only [Option.bind_eq_bind, Option.bind_some, found]
    rfl
  · intro equal
    rcases all equal with ⟨rfl, rfl, rfl⟩
    rfl

end

private theorem exists_opener {opener : List Char} (opens : opener.map Char.toLower = "0x".toList) :
    ∃ zero letter, opener = [zero, letter] ∧ zero.toLower = '0' ∧ letter.toLower = 'x' := by
  rcases List.map_eq_cons_iff.mp (show opener.map Char.toLower = '0' :: ['x'] from opens) with
    ⟨zero, _, rfl, isZero, behind⟩
  rcases List.map_eq_singleton_iff.mp behind with ⟨letter, rfl, isX⟩
  exact ⟨zero, letter, rfl, isZero, isX⟩

/-- No decimal numeral has an x, so a hexadecimal one in its place is longer. -/
theorem suffix_of_splitHexadecimal? {body following rest : List Char} {numeral : Numeral}
    (noX : ∀ character ∈ body, character.toLower ≠ 'x')
    (found : splitHexadecimal? (body ++ following) = some (numeral, rest)) :
    rest <:+ following ∧ rest ≠ following := by
  rcases exists_splitHexadecimal? found with ⟨opener, more, parts, opens, -⟩
  rcases exists_opener opens with ⟨zero, letter, rfl, -, isX⟩
  have longer : ∀ first front, first :: (front ++ rest) = following →
      rest <:+ following ∧ rest ≠ following := by
    rintro first front rfl
    refine ⟨⟨first :: front, rfl⟩, fun equal => ?_⟩
    have nothing : first :: front = [] := List.self_eq_append_left.mp equal
    cases nothing
  rcases body with _ | ⟨first, _ | ⟨second, later⟩⟩
  · exact longer zero (letter :: more) parts.symm
  · exact longer letter more (List.cons.inj parts).2.symm
  · have same : second = letter := (List.cons.inj (List.cons.inj parts).2).1
    exact (noX second (by simp) (same ▸ isX)).elim

private theorem toLower_ne_x {mantissa exponent : List Char} {whole fraction : List Nat}
    {spelledExponent : Option SignedDigits} (isMantissa : Mantissa 10 mantissa whole fraction)
    (isExponent : Exponent 'e' exponent spelledExponent) :
    ∀ character ∈ mantissa ++ exponent, character.toLower ≠ 'x' := by
  intro character member
  rcases List.mem_append.mp member with inMantissa | inExponent
  · have letters : ∀ letter ∈ '.' :: lowerCase.take 10, letter ≠ 'x' :=
      List.all_iff_forall_prop.mp (by decide)
    exact letters _ (isMantissa.toLower_mem (by decide) character inMantissa)
  · have letters : ∀ letter ∈ 'e' :: '+' :: '-' :: lowerCase.take 10, letter ≠ 'x' :=
      List.all_iff_forall_prop.mp (by decide)
    exact letters _ (isExponent.toLower_mem character inExponent)

/-! ## Any numeral -/

theorem split?_eq (text : List Char) :
    split? text = (splitWord? text).or ((splitHexadecimal? text).or (splitDecimal? text)) := by
  simp only [split?, Option.orElse_eq_orElse, Option.orElse_eq_or]

theorem exists_split? {text rest : List Char} {numeral : Numeral}
    (found : split? text = some (numeral, rest)) :
    ∃ body, text = body ++ rest ∧ Spelled body numeral := by
  rw [split?_eq, Option.or_eq_some_iff, Option.or_eq_some_iff] at found
  rcases found with word | ⟨-, hexadecimal | ⟨-, decimal⟩⟩
  · exact exists_splitWord? word
  · rcases exists_splitHexadecimal? hexadecimal with ⟨opener, body, parts, -, spelled⟩
    exact ⟨opener ++ body, by rw [parts, List.append_assoc], spelled⟩
  · exact exists_splitDecimal? decimal

theorem split?_append {body : List Char} {numeral : Numeral} (spelled : Spelled body numeral)
    (following : List Char) :
    ∃ other rest, split? (body ++ following) = some (other, rest) ∧ rest <:+ following ∧
      (rest = following → other = numeral) := by
  cases spelled with
  | infinity isWord =>
    rcases splitWord?_append_infinity isWord following with ⟨rest, found, suffix⟩
    exact ⟨infinity, rest, by rw [split?_eq, found, Option.some_or], suffix, fun _ => rfl⟩
  | notANumber isWord =>
    have found := splitWord?_append_notANumber isWord following
    exact ⟨notANumber, following, by rw [split?_eq, found, Option.some_or], List.suffix_rfl,
      fun _ => rfl⟩
  | @hexadecimal opener mantissa exponent _ _ _ opens isMantissa isExponent =>
    rcases splitHexadecimal?_append opens isMantissa isExponent following with
      ⟨other, rest, found, suffix, all⟩
    have noWord : splitWord? (opener ++ (mantissa ++ exponent) ++ following) = none := by
      rcases exists_opener opens with ⟨zero, letter, rfl, isZero, -⟩
      exact splitWord?_eq_none (by rw [isZero]; decide) _
    refine ⟨other, rest, ?_, suffix, all⟩
    rw [split?_eq, noWord, found, Option.none_or, Option.some_or]
  | @decimal mantissa exponent _ _ _ isMantissa isExponent =>
    rcases splitDecimal?_append isMantissa isExponent following with
      ⟨other, rest, found, suffix, all⟩
    have noWord : splitWord? (mantissa ++ exponent ++ following) = none := by
      rcases isMantissa.exists_cons (by decide) with ⟨first, later, rfl, begins⟩
      have letters : ∀ letter ∈ '.' :: lowerCase.take 10, letter ∉ ['i', 'n'] :=
        List.all_iff_forall_prop.mp (by decide)
      exact splitWord?_eq_none (letters _ begins) _
    cases hexadecimalFound : splitHexadecimal? (mantissa ++ exponent ++ following) with
    | none =>
      refine ⟨other, rest, ?_, suffix, all⟩
      rw [split?_eq, noWord, hexadecimalFound, found, Option.none_or, Option.none_or]
    | some longer =>
      rcases suffix_of_splitHexadecimal? (toLower_ne_x isMantissa isExponent) hexadecimalFound with
        ⟨suffix, different⟩
      refine ⟨longer.1, longer.2, ?_, suffix, fun equal => (different equal).elim⟩
      rw [split?_eq, noWord, hexadecimalFound, Option.none_or, Option.some_or]

/-! ## A sign in front

A numeral itself begins neither with a sign nor with a blank.
-/

theorem Spelled.exists_cons {body : List Char} {numeral : Numeral} (spelled : Spelled body numeral) :
    ∃ first later, body = first :: later ∧ first.toLower ∈ "in.0123456789".toList := by
  cases spelled with
  | infinity isWord =>
    rcases isWord with isWord | isWord
    · rcases List.map_eq_cons_iff.mp isWord with ⟨first, later, rfl, letter, -⟩
      exact ⟨first, later, rfl, by rw [letter]; decide⟩
    · rcases List.map_eq_cons_iff.mp isWord with ⟨first, later, rfl, letter, -⟩
      exact ⟨first, later, rfl, by rw [letter]; decide⟩
  | notANumber isWord =>
    rcases List.map_eq_cons_iff.mp isWord with ⟨first, later, rfl, letter, -⟩
    exact ⟨first, later, rfl, by rw [letter]; decide⟩
  | hexadecimal opens _ _ =>
    rcases exists_opener opens with ⟨zero, letter, rfl, isZero, -⟩
    exact ⟨zero, _, rfl, by rw [isZero]; decide⟩
  | decimal isMantissa _ =>
    rcases isMantissa.exists_cons (by decide) with ⟨first, later, rfl, begins⟩
    exact ⟨first, _, rfl, List.mem_of_mem_drop (i := 2) begins⟩

section

variable {text part body : List Char} {negative : Bool} {numeral : Numeral}

theorem Spelled.unsigned (spelled : Spelled body numeral) (following : List Char) :
    Unsigned (body ++ following) := by
  rcases spelled.exists_cons with ⟨first, later, rfl, letter⟩
  have letters : ∀ letter ∈ "in.0123456789".toList, letter ∉ ['+', '-'] :=
    List.all_iff_forall_prop.mp (by decide)
  exact unsigned_cons (letters _ letter) _

theorem SpelledSigned.trimStart_eq (spelled : SpelledSigned part negative numeral) :
    Blank.trimStart part = part := by
  rcases spelled with ⟨isSign, spelled⟩
  cases isSign with
  | none =>
    rcases spelled.exists_cons with ⟨first, later, rfl, letter⟩
    have letters : ∀ letter ∈ "in.0123456789".toList, ¬ Blank.isBlank letter = true :=
      List.all_iff_forall_prop.mp (by decide)
    refine List.dropWhile_cons_of_neg fun blank => ?_
    rw [Blank.toLower_eq blank] at letter
    exact letters first letter blank
  | plus | minus => exact List.dropWhile_cons_of_neg (by decide)

/-- The reader takes all of a numeral that a text begins with, or more. -/
theorem SpelledSigned.split?_append (spelled : SpelledSigned part negative numeral)
    (following : List Char) :
    (splitSign (part ++ following)).1 = negative ∧
      ∃ other rest, split? (splitSign (part ++ following)).2 = some (other, rest) ∧
        rest <:+ following ∧ (rest = following → other = numeral) := by
  rcases spelled with ⟨isSign, spelled⟩
  rw [List.append_assoc, splitSign_append isSign fun _ => spelled.unsigned following]
  exact ⟨rfl, Numeral.split?_append spelled following⟩

/-- What the reader takes is the longest numeral. -/
theorem exists_longest_of_split? {rest : List Char}
    (found : split? (splitSign text).2 = some (numeral, rest)) :
    ∃ part, text = part ++ rest ∧ SpelledSigned part (splitSign text).1 numeral ∧
      Longest text part := by
  rcases exists_splitSign text with ⟨sign, signed, isSign, -⟩
  rcases exists_split? found with ⟨body, parts, spelled⟩
  have spelledSigned := SpelledSigned.intro isSign spelled
  have whole : text = sign ++ body ++ rest := by rw [signed, parts, List.append_assoc]
  refine ⟨sign ++ body, whole, spelledSigned, ⟨rest, whole.symm⟩, ⟨_, _, spelledSigned⟩, ?_⟩
  rintro other ⟨following, otherParts⟩ ⟨_, _, otherSpelled⟩
  rcases (otherSpelled.split?_append following).2 with ⟨_, _, otherFound, suffix, -⟩
  rw [otherParts, found] at otherFound
  cases otherFound
  have lengths := congrArg List.length (otherParts.trans whole)
  simp only [List.length_append] at lengths ⊢
  have shorter := suffix.length_le
  omega

theorem split?_ne_none (begins : part <+: text) (isNumeral : IsNumeral part) :
    split? (splitSign text).2 ≠ none := by
  rcases begins with ⟨following, rfl⟩
  rcases isNumeral with ⟨_, _, spelled⟩
  rcases (spelled.split?_append following).2 with ⟨_, _, found, -⟩
  rw [found]
  exact Option.some_ne_none _

theorem exists_longest (begins : part <+: text) (isNumeral : IsNumeral part) :
    ∃ longest, Longest text longest := by
  rcases Option.ne_none_iff_exists'.mp (split?_ne_none begins isNumeral) with ⟨_, found⟩
  rcases exists_longest_of_split? found with ⟨longest, -, -, isLongest⟩
  exact ⟨longest, isLongest⟩

theorem Longest.eq {other : List Char} (longest : Longest text part)
    (otherLongest : Longest text other) : part = other := by
  have shorter := otherLongest.longest part longest.begins longest.isNumeral
  have longer := longest.longest other otherLongest.begins otherLongest.isNumeral
  exact (List.prefix_of_prefix_length_le longest.begins otherLongest.begins shorter).eq_of_length_le
    longer

/-- A numeral is its own longest one. -/
theorem longest_self (isNumeral : IsNumeral part) : Longest part part :=
  ⟨List.prefix_rfl, isNumeral, fun _ begins _ => begins.length_le⟩

/-- Nothing behind the longest numeral is taken, so the reader takes just that. -/
theorem Longest.split?_eq (longest : Longest text part)
    (spelled : SpelledSigned part negative numeral) :
    (splitSign text).1 = negative ∧ ∃ rest, split? (splitSign text).2 = some (numeral, rest) := by
  rcases longest.begins with ⟨following, parts⟩
  rcases spelled.split?_append following with ⟨sign, other, rest, found, -, all⟩
  rw [parts] at sign found
  rcases exists_longest_of_split? found with ⟨taken, takenParts, -, takenLongest⟩
  rw [← parts, longest.eq takenLongest] at takenParts
  rw [all (List.append_cancel_left takenParts).symm] at found
  exact ⟨sign, rest, found⟩

end

/-! ## The number in a text -/

theorem ofText_of_longest {text : String} {part : List Char} {negative : Bool} {numeral : Numeral}
    (longest : Longest (Blank.trimStart text.toList) part)
    (spelled : SpelledSigned part negative numeral) :
    ofText text = if negative then numeral.value.neg else numeral.value := by
  rcases longest.split?_eq spelled with ⟨sign, rest, found⟩
  simp only [ofText, found, sign]

/-- The number in a text is that of the longest numeral behind its blanks, and zero if there is none.
What follows the numeral has no effect. -/
theorem float_of_longest_numeral (text : String) :
    let trimmed := Blank.trimStart text.toList
    ((∀ part, part <+: trimmed → ¬ IsNumeral part) → ofText text = .zero .double false) ∧
      ((∃ part, part <+: trimmed ∧ IsNumeral part) →
        ∃ longest, Longest trimmed longest ∧ ofText text = ofText (String.ofList longest) ∧
          ∀ negative numeral, SpelledSigned longest negative numeral →
            ofText text = if negative then numeral.value.neg else numeral.value) := by
  intro trimmed
  constructor
  · intro noNumeral
    cases found : split? (splitSign trimmed).2 with
    | none => simp only [ofText, found, trimmed]
    | some taken =>
      rcases exists_longest_of_split? found with ⟨part, -, -, longest⟩
      exact (noNumeral part longest.begins longest.isNumeral).elim
  · rintro ⟨part, begins, isNumeral⟩
    rcases exists_longest begins isNumeral with ⟨longest, isLongest⟩
    rcases isLongest.isNumeral with ⟨negative, numeral, spelled⟩
    have alone : Longest (Blank.trimStart (String.ofList longest).toList) longest := by
      rw [String.toList_ofList, spelled.trimStart_eq]
      exact longest_self isLongest.isNumeral
    refine ⟨longest, isLongest, ?_, fun _ _ spelled => ofText_of_longest isLongest spelled⟩
    rw [ofText_of_longest isLongest spelled, ofText_of_longest alone spelled]

/-- An exponent alone is no numeral, and without digits it is no part of one. -/
theorem float_of_longest_numeral_cut_short :
    (∀ part, part <+: "e5".toList → ¬ IsNumeral part) ∧ ofText "e5" = .zero .double false ∧
      Longest "-0x.8p+q".toList "-0x.8".toList ∧ ofText " -0x.8p+q" = ofText "-0x.8" := by
  have noNumeral : ∀ part, part <+: "e5".toList → ¬ IsNumeral part :=
    fun part begins isNumeral => split?_ne_none begins isNumeral rfl
  have longest : Longest "-0x.8p+q".toList "-0x.8".toList := by
    have taken : split? (splitSign "-0x.8p+q".toList).2 =
        some (hexadecimal [] [8] none, "p+q".toList) := rfl
    rcases exists_longest_of_split? taken with ⟨part, parts, -, longest⟩
    have equal : "-0x.8".toList = part := List.append_cancel_right parts
    exact equal ▸ longest
  rcases (float_of_longest_numeral " -0x.8p+q").2 ⟨_, longest.begins, longest.isNumeral⟩ with
    ⟨other, otherLongest, same, -⟩
  rw [otherLongest.eq longest, String.ofList_toList] at same
  exact ⟨noNumeral, (float_of_longest_numeral "e5").1 noNumeral, longest, same⟩

end Numeral

end ScriptLexer
