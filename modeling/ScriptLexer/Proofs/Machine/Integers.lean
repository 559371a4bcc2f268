import ScriptLexer.Proofs.Machine.Conversions

/-!
# Integers and truth values on a machine

Signs are cut off and digits are counted in bytes as they are in characters, so a machine comes to the
same integers and truth values, and nothing goes wrong on the way.
-/

namespace ScriptLexer

namespace Machine

open Digits Utf8

/-! ## Slices and signs -/

@[simp] theorem ok_bind {α β : Type} (result : α) (next : α → Except Fault β) :
    (Except.ok result >>= next) = next result :=
  rfl

@[simp] theorem pure_eq_ok {α : Type} (result : α) : (pure result : Except Fault α) = .ok result :=
  rfl

theorem difference_eq {left right : Nat} (le : right ≤ left) :
    difference left right = .ok (left - right) := by
  rw [difference, if_pos le]
  rfl

section

variable (front behind : List Char)

theorem sliceFrom_bytes :
    sliceFrom (bytes (front ++ behind)) (bytes front).length = .ok (bytes behind) := by
  rw [sliceFrom, sliceFrom?_bytes]
  rfl

theorem sliceTo_bytes :
    sliceTo (bytes (front ++ behind)) (bytes front).length = .ok (bytes front) := by
  rw [sliceTo, sliceTo?_bytes]
  rfl

/-- A letter can be passed over. -/
theorem sliceFrom_letter {letter : Char} (ascii : letter.toNat < 0x80) :
    sliceFrom (bytes (front ++ letter :: behind)) ((bytes front).length + 1) =
      .ok (bytes behind) := by
  have sliced := sliceFrom_bytes (front ++ [letter]) behind
  rw [List.append_assoc, bytes_append front [letter], bytes_cons ascii, List.length_append] at sliced
  exact sliced

theorem sliceFrom_one {letter : Char} (ascii : letter.toNat < 0x80) :
    sliceFrom (bytes (letter :: behind)) 1 = .ok (bytes behind) :=
  sliceFrom_letter [] behind ascii

end

theorem splitSign_bytes (text : List Char) :
    splitSign (bytes text) = .ok ((Digits.splitSign text).1, bytes (Digits.splitSign text).2) := by
  rw [splitSign]
  by_cases minus : ∃ rest, text = '-' :: rest
  · rw [if_pos ((head?_bytes_iff (by decide)).mpr minus)]
    rcases minus with ⟨rest, rfl⟩
    rw [sliceFrom_one _ (by decide)]
    rfl
  rw [if_neg (mt (head?_bytes_iff (by decide)).mp minus)]
  by_cases plus : ∃ rest, text = '+' :: rest
  · rw [if_pos ((head?_bytes_iff (by decide)).mpr plus)]
    rcases plus with ⟨rest, rfl⟩
    rw [sliceFrom_one _ (by decide)]
    rfl
  rw [if_neg (mt (head?_bytes_iff (by decide)).mp plus)]
  have none : Digits.splitSign text = (false, text) := by
    unfold Digits.splitSign
    split
    · exact absurd ⟨_, rfl⟩ minus
    · exact absurd ⟨_, rfl⟩ plus
    · rfl
  rw [none]
  rfl

/-! ## Integers and truth values -/

theorem digitRun_bytes {characters rest : List Char} {digits : List Nat}
    (spells : Spells 10 characters digits) (ended : Ended 10 rest) :
    digitRun (bytes (characters ++ rest)) = digits.length := by
  rw [digitRun, ← encode_ofList, Integer.takeWhile_encode spells ended, List.length_map]

/-- What a text begins with as signed digits, in characters and in bytes. -/
theorem exists_signedDigits (text : List Char) :
    ∃ sign characters, text = sign ++ (characters ++ (SignedDigits.split text).2) ∧
      Sign sign (SignedDigits.split text).1.negative ∧
      Spells 10 characters (SignedDigits.split text).1.digits ∧
      splitSign (bytes text) = .ok ((SignedDigits.split text).1.negative,
        bytes (characters ++ (SignedDigits.split text).2)) ∧
      digitRun (bytes (characters ++ (SignedDigits.split text).2)) =
        (SignedDigits.split text).1.digits.length := by
  rcases SignedDigits.exists_split text with
    ⟨sign, characters, parts, isSign, single, spells, ended⟩
  refine ⟨sign, characters, parts, isSign, spells, ?_, digitRun_bytes spells ended⟩
  have sorted := splitSign_append isSign single
  rw [← parts] at sorted
  rw [splitSign_bytes, sorted]

theorem startsInteger_eq (text : String) :
    startsInteger text = .ok (Integer.startsText text) := by
  rcases exists_signedDigits (Blank.trimStart text.toList) with ⟨_, _, -, -, -, signed, run⟩
  have starts : Integer.startsText text = decide (0 < (Integer.split text).digits.length) := by
    rw [Integer.startsText]
    cases (Integer.split text).digits <;> rfl
  rw [startsInteger, trimmed, signed, ok_bind, starts]
  dsimp only
  rw [run]
  rfl

theorem integer_eq (text : String) :
    ∃ word, integer text = .ok word ∧ word.toInt = Integer.ofText text := by
  rcases Integer.machine?_eq text with ⟨word, found, word_eq⟩
  refine ⟨word, ?_, word_eq⟩
  simp only [Integer.machine?, Option.bind_eq_bind, Option.bind_eq_some_iff] at found
  rcases found with ⟨size, added, value, signed, narrow⟩
  rw [encode_ofList] at added
  simp only [integer, trimmed, splitSign_bytes, ok_bind, added, signed, narrow, orFault]

theorem lower_eq_iff (text : String) {word : String}
    (lower : word.toList.map Char.toLower = word.toList) :
    (encode text).map lowerByte = encode word ↔ Truth.sameWord text word = true := by
  rw [Truth.sameWord, beq_iff_eq, lower]
  exact (map_lowerByte_bytes text.toList).congr_left.trans ⟨bytes_injective, congrArg bytes⟩

theorem truth_eq (text : String) : truth text = .ok (Truth.ofText text) := by
  rcases integer_eq text with ⟨word, found, word_eq⟩
  have empty : encode text = [] ↔ text.isEmpty = true := by
    rw [String.isEmpty_iff]
    exact ⟨fun none => encode_injective none, fun none => none ▸ rfl⟩
  have nonzero : decide (word ≠ 0) = (Integer.ofText text != 0) := by
    have zero : word = 0 ↔ Integer.ofText text = 0 := by
      rw [← word_eq, ← Int32.toInt_zero, Int32.toInt_inj]
    rw [Bool.eq_iff_iff, decide_eq_true_iff, bne_iff_ne, ne_eq, ne_eq, zero]
  simp only [truth, Truth.ofText, lower_eq_iff text (rfl : "no".toList.map Char.toLower = _),
    lower_eq_iff text (rfl : "false".toList.map Char.toLower = _), empty, startsInteger_eq, found,
    ok_bind, pure_eq_ok, Bool.or_eq_true, or_assoc, nonzero]
  split
  · rfl
  split <;> rfl

end Machine

end ScriptLexer
