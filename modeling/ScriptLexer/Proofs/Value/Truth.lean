import ScriptLexer.Proofs.Value.Integer
import ScriptLexer.Value.Truth

/-!
# What is false

A text is false if it is empty, if it is one of two words, or if it begins with zero. Nothing else is:
neither a number that begins with zeros, however long it is, nor any other word.
-/

namespace ScriptLexer

open Digits

namespace Truth

theorem sameWord_iff {text word : String} (lower : word.toList.map Char.toLower = word.toList) :
    sameWord text word = true ↔ text.toList.map Char.toLower = word.toList := by
  rw [sameWord, beq_iff_eq, lower]

/-- The text is one of the words for false, in any case of its letters. -/
def NamesFalse (text : String) : Prop :=
  text.toList.map Char.toLower = "no".toList ∨ text.toList.map Char.toLower = "false".toList

theorem namesFalse_iff {text : String} :
    NamesFalse text ↔ sameWord text "no" = true ∨ sameWord text "false" = true := by
  rw [NamesFalse, sameWord_iff rfl, sameWord_iff rfl]

/-- Zero at the start of a text is spelled with zeros. -/
theorem zero_iff {text : String} :
    (Integer.startsText text = true ∧ Integer.ofText text = 0) ↔
      (Integer.split text).digits ≠ [] ∧ ∀ digit ∈ (Integer.split text).digits, digit = 0 := by
  rw [Integer.ofText_eq_zero_iff, Integer.startsText, Bool.not_eq_true', List.isEmpty_eq_false_iff]

theorem ofText_eq_false_iff {text : String} :
    ofText text = false ↔ text = "" ∨ NamesFalse text ∨
      (Integer.split text).digits ≠ [] ∧ ∀ digit ∈ (Integer.split text).digits, digit = 0 := by
  rw [← zero_iff, namesFalse_iff, ofText]
  by_cases excluded : (sameWord text "no" || sameWord text "false" || text.isEmpty) = true
  · rw [if_pos excluded]
    simp only [Bool.or_eq_true, String.isEmpty_iff] at excluded
    rcases excluded with named | empty
    · exact iff_of_true rfl (.inr (.inl named))
    · exact iff_of_true rfl (.inl empty)
  · rw [if_neg excluded]
    simp only [Bool.or_eq_true, String.isEmpty_iff, not_or] at excluded
    rw [or_iff_right excluded.2, or_iff_right (not_or.mpr excluded.1)]
    cases Integer.startsText text with
    | false => simp
    | true => simp

/-- The first letter of either word is no blank, no sign and no digit. -/
theorem digits_of_namesFalse {text : String} (named : NamesFalse text) :
    (Integer.split text).digits = [] := by
  have begins : ∃ first rest, text.toList = first :: rest ∧ first.toLower ∈ ['n', 'f'] := by
    rcases named with named | named
    · rcases List.map_eq_cons_iff.mp named with ⟨first, rest, equal, lower, -⟩
      exact ⟨first, rest, equal, by rw [lower]; decide⟩
    · rcases List.map_eq_cons_iff.mp named with ⟨first, rest, equal, lower, -⟩
      exact ⟨first, rest, equal, by rw [lower]; decide⟩
  rcases begins with ⟨first, rest, text_eq, letter⟩
  have letters : ∀ letter ∈ ['n', 'f'], ¬ Blank.isBlank letter = true ∧ letter ∉ ['+', '-'] ∧
      letter ∉ lowerCase.take 10 := List.all_iff_forall_prop.mp (by decide)
  have trimmed : Blank.trimStart text.toList = first :: rest := by
    rw [text_eq]
    refine List.dropWhile_cons_of_neg fun blank => ?_
    rw [Blank.toLower_eq blank] at letter
    exact (letters first letter).1 blank
  have unsigned : Unsigned (first :: rest) := unsigned_cons (letters _ letter).2.1 rest
  have ended : Ended 10 (first :: rest) := by
    intro character head digit isDigit
    cases head
    exact (letters _ letter).2.2 (toLower_mem (by decide) isDigit)
  have leads := SignedDigits.Leads.intro .none (fun _ => unsigned) .nil ended
  rw [List.nil_append, List.nil_append, ← trimmed] at leads
  exact (congrArg SignedDigits.digits (SignedDigits.leads_iff.mp leads)).symm

/-- Of all texts the empty one, the two words and those that begin with zero are false. So a number with
another digit is true, and so is any other word. -/
theorem truth_decided_by_zero (text : String) :
    ∃ spelled : SignedDigits,
      (∀ other, SignedDigits.Leads (Blank.trimStart text.toList) other ↔ other = spelled) ∧
      (ofText text = false ↔ text = "" ∨ NamesFalse text ∨
        spelled.digits ≠ [] ∧ ∀ digit ∈ spelled.digits, digit = 0) ∧
      ((∃ digit ∈ spelled.digits, digit ≠ 0) → ofText text = true) ∧
      (spelled.digits = [] → text ≠ "" → ¬ NamesFalse text → ofText text = true) := by
  refine ⟨Integer.split text, fun _ => SignedDigits.leads_iff, ofText_eq_false_iff, ?_, ?_⟩
  · rintro ⟨digit, member, nonzero⟩
    rw [← Bool.not_eq_false, ofText_eq_false_iff]
    rintro (rfl | named | zero)
    · cases member
    · rw [digits_of_namesFalse named] at member
      cases member
    · exact nonzero (zero.2 digit member)
  · intro noDigits nonempty notNamed
    rw [← Bool.not_eq_false, ofText_eq_false_iff]
    rintro (empty | named | zero)
    · exact nonempty empty
    · exact notNamed named
    · exact zero.1 noDigits

/-- Signed zeros with a word behind them, a number whose one digit comes late, and a word that only
begins like one for false. -/
theorem truth_decided_by_zero_word :
    ofText "  +000000000000000000000x" = false ∧ ofText "00000000000000000000010" = true ∧
      ofText "nope" = true := by
  rcases truth_decided_by_zero "00000000000000000000010" with ⟨number, unique, -, nonzero, -⟩
  rcases truth_decided_by_zero "nope" with ⟨word, uniqueWord, -, -, other⟩
  have number_eq := (unique _).mp (SignedDigits.leads_iff.mpr rfl)
  have word_eq := (uniqueWord _).mp (SignedDigits.leads_iff.mpr rfl)
  subst number_eq word_eq
  have notNamed : ¬ NamesFalse "nope" := by
    unfold NamesFalse
    decide
  exact ⟨rfl, nonzero ⟨1, by decide, by decide⟩, other rfl (by decide) notNamed⟩

end Truth

end ScriptLexer
