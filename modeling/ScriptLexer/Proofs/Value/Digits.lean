import Mathlib.Data.Bool.AllAny
import ScriptLexer.Proofs.Grammar.Numbers

/-!
# Signs and digits are found as the grammar has them

What the readers of signs and digits take from a text is what the grammar says of the part that they
took, and what they leave does not go on with it.
-/

namespace ScriptLexer

namespace Digits

/-! ## One digit -/

private theorem value_of_written {character : Char} {digit : Nat} (small : digit < 16)
    (written : lowerCase[digit]? = some character ∨ upperCase[digit]? = some character) :
    value character = digit := by
  have lower : ∀ digit < 16, lowerCase[digit]?.map value = some digit := by decide
  have upper : ∀ digit < 16, upperCase[digit]?.map value = some digit := by decide
  rcases written with written | written
  · have equal := lower digit small
    rw [written] at equal
    exact Option.some.inj equal
  · have equal := upper digit small
    rw [written] at equal
    exact Option.some.inj equal

/-- A range of characters is at consecutive places. -/
private theorem written_of_range {table : List Char} {least character : Char} (first count : Nat)
    (places : ∀ offset < count, table[first + offset]? = some (Char.ofNat (least.toNat + offset)))
    (above : least ≤ character) (below : character.toNat < least.toNat + count) :
    table[character.toNat - least.toNat + first]? = some character := by
  have order : least.toNat ≤ character.toNat := above
  have found := places (character.toNat - least.toNat) (by omega)
  rw [Nat.add_sub_cancel' order, Char.ofNat_toNat] at found
  rw [Nat.add_comm, found]

private theorem written_value {character : Char} (small : value character < 16) :
    lowerCase[value character]? = some character ∨
      upperCase[value character]? = some character := by
  revert small
  unfold value
  split
  · next range =>
    exact fun _ => .inl (written_of_range 0 10 (by decide) range.1 (Nat.lt_succ_of_le range.2))
  split
  · next range =>
    exact fun _ => .inl (written_of_range 10 6 (by decide) range.1 (Nat.lt_succ_of_le range.2))
  split
  · next range =>
    exact fun _ => .inr (written_of_range 10 6 (by decide) range.1 (Nat.lt_succ_of_le range.2))
  · exact fun none => (Nat.lt_irrefl 16 none).elim

/-- Decimal digits are a range of characters. -/
theorem isDigit_decimal_iff {character : Char} {digit : Nat} :
    IsDigit 10 character digit ↔ digit < 10 ∧ character.toNat = '0'.toNat + digit := by
  constructor
  · rintro ⟨below, written⟩
    have lower : ∀ digit < 10, lowerCase[digit]?.map Char.toNat = some ('0'.toNat + digit) := by
      decide
    have upper : ∀ digit < 10, upperCase[digit]?.map Char.toNat = some ('0'.toNat + digit) := by
      decide
    have found : some character.toNat = some ('0'.toNat + digit) := by
      rcases written with written | written
      · rw [← lower digit below, written, Option.map_some]
      · rw [← upper digit below, written, Option.map_some]
    exact ⟨below, Option.some.inj found⟩
  · rintro ⟨below, equal⟩
    have least : '0'.toNat ≤ character.toNat := by omega
    have written : lowerCase[character.toNat - '0'.toNat + 0]? = some character :=
      written_of_range 0 10 (by decide) least (by omega)
    rw [equal, Nat.add_sub_cancel_left] at written
    exact ⟨below, .inl written⟩

section

variable {base : Nat} (admitted : base ≤ 16)
include admitted

theorem isDigit_iff {character : Char} {digit : Nat} :
    IsDigit base character digit ↔ isDigit base character = true ∧ value character = digit := by
  rw [isDigit, decide_eq_true_eq]
  constructor
  · rintro ⟨below, written⟩
    have equal := value_of_written (Nat.lt_of_lt_of_le below admitted) written
    exact ⟨equal ▸ below, equal⟩
  · rintro ⟨below, rfl⟩
    exact ⟨below, written_value (Nat.lt_of_lt_of_le below admitted)⟩

/-! ## A run of digits -/

theorem spells_iff {characters : List Char} {digits : List Nat} :
    Spells base characters digits ↔
      (∀ character ∈ characters, isDigit base character = true) ∧
        characters.map value = digits := by
  constructor
  · intro spells
    induction spells with
    | nil => exact ⟨List.forall_mem_nil _, rfl⟩
    | cons first _ induction =>
      rcases (isDigit_iff admitted).mp first with ⟨isDigit, value⟩
      exact ⟨List.forall_mem_cons.mpr ⟨isDigit, induction.1⟩, congrArg₂ _ value induction.2⟩
  · rintro ⟨all, rfl⟩
    refine List.forall₂_map_right_iff.mpr (List.forall₂_same.mpr fun character member => ?_)
    exact (isDigit_iff admitted).mpr ⟨all character member, rfl⟩

theorem toLower_mem {character : Char} {digit : Nat} (isDigit : IsDigit base character digit) :
    character.toLower ∈ lowerCase.take base := by
  have lower : ∀ digit < 16, lowerCase[digit]?.map Char.toLower = lowerCase[digit]? := by decide
  have upper : ∀ digit < 16, upperCase[digit]?.map Char.toLower = lowerCase[digit]? := by decide
  have small : digit < 16 := Nat.lt_of_lt_of_le isDigit.below admitted
  apply List.mem_of_getElem?
  rw [List.getElem?_take_of_lt isDigit.below]
  rcases isDigit.written with written | written
  · rw [← lower digit small, written, Option.map_some]
  · rw [← upper digit small, written, Option.map_some]

theorem toLower_mem_of_spells {characters : List Char} {digits : List Nat}
    (spells : Spells base characters digits) :
    ∀ character ∈ characters, character.toLower ∈ lowerCase.take base := by
  induction spells with
  | nil => exact List.forall_mem_nil _
  | cons isDigit _ induction =>
    exact List.forall_mem_cons.mpr ⟨toLower_mem admitted isDigit, induction⟩

omit admitted in
theorem lt_of_spells {characters : List Char} {digits : List Nat}
    (spells : Spells base characters digits) : ∀ digit ∈ digits, digit < base := by
  induction spells with
  | nil => exact List.forall_mem_nil _
  | cons isDigit _ induction => exact List.forall_mem_cons.mpr ⟨isDigit.below, induction⟩

theorem ended_iff {text : List Char} :
    Ended base text ↔ ∀ character ∈ text.head?, isDigit base character = false := by
  refine forall₂_congr fun character _ => ?_
  rw [← Bool.not_eq_true]
  constructor
  · exact fun none isDigit => none _ ((isDigit_iff admitted).mpr ⟨isDigit, rfl⟩)
  · exact fun notDigit digit isDigit => notDigit ((isDigit_iff admitted).mp isDigit).1

/-- Digits in front of a text are taken along with those that it begins with. -/
theorem split_append {characters : List Char} {digits : List Nat}
    (spells : Spells base characters digits) (rest : List Char) :
    split base (characters ++ rest) = (digits ++ (split base rest).1, (split base rest).2) := by
  rcases (spells_iff admitted).mp spells with ⟨all, values⟩
  rw [split, List.takeWhile_append_of_pos all, List.dropWhile_append_of_pos all, List.map_append,
    values]
  rfl

theorem split_ended {rest : List Char} (ended : Ended base rest) : split base rest = ([], rest) := by
  rcases rest with _ | ⟨character, rest⟩
  · rfl
  · have notDigit := (ended_iff admitted).mp ended character rfl
    simp [split, notDigit]

theorem split_spells {characters rest : List Char} {digits : List Nat}
    (spells : Spells base characters digits) (ended : Ended base rest) :
    split base (characters ++ rest) = (digits, rest) := by
  rw [split_append admitted spells, split_ended admitted ended, List.append_nil]

theorem exists_split (text : List Char) :
    ∃ characters, text = characters ++ (split base text).2 ∧
      Spells base characters (split base text).1 ∧ Ended base (split base text).2 := by
  refine ⟨text.takeWhile (isDigit base), List.takeWhile_append_dropWhile.symm, ?_, ?_⟩
  · exact (spells_iff admitted).mpr ⟨List.all_eq_true.mp List.all_takeWhile, rfl⟩
  · refine (ended_iff admitted).mpr fun character first => ?_
    have stopped := List.head?_dropWhile_not (isDigit base) text
    rw [show (text.dropWhile (isDigit base)).head? = some character from first] at stopped
    exact stopped

/-- Of a text that begins with digits those are taken, and more only if what follows them begins with
digits itself. -/
theorem exists_split_append {characters : List Char} {digits : List Nat}
    (spells : Spells base characters digits) (following : List Char) :
    ∃ more rest, split base (characters ++ following) = (digits ++ more, rest) ∧
      rest <:+ following ∧ (rest = following → more = []) := by
  rcases exists_split admitted following with ⟨taken, parts, spellsMore, -⟩
  refine ⟨_, _, split_append admitted spells following, ⟨taken, parts.symm⟩, fun all => ?_⟩
  rw [all] at parts
  rw [List.self_eq_append_left.mp parts] at spellsMore
  exact List.forall₂_nil_left_iff.mp spellsMore

theorem ended_point (rest : List Char) : Ended base ('.' :: rest) := by
  refine (ended_iff admitted).mpr fun character head => ?_
  cases head
  have point : value '.' = 16 := by decide
  rw [isDigit, point, decide_eq_false_iff_not]
  exact Nat.not_lt_of_le admitted

omit admitted in
theorem unsigned_cons {first : Char} (other : first.toLower ∉ ['+', '-']) (rest : List Char) :
    Unsigned (first :: rest) := by
  intro character head
  cases head
  constructor
  · rintro rfl
    exact other (by decide)
  · rintro rfl
    exact other (by decide)

theorem unsigned_append {characters : List Char} {digits : List Nat}
    (spells : Spells base characters digits) (nonempty : digits ≠ []) (following : List Char) :
    Unsigned (characters ++ following) := by
  cases spells with
  | nil => exact (nonempty rfl).elim
  | cons first _ =>
    have letters : ∀ letter ∈ lowerCase, letter ∉ ['+', '-'] :=
      List.all_iff_forall_prop.mp (by decide)
    exact unsigned_cons (letters _ (List.mem_of_mem_take (toLower_mem admitted first))) _

end

/-! ## Signs -/

theorem splitSign_append {sign rest : List Char} {negative : Bool} (isSign : Sign sign negative)
    (single : sign = [] → Unsigned rest) : splitSign (sign ++ rest) = (negative, rest) := by
  cases isSign with
  | none =>
    have unsigned := single rfl
    rw [List.nil_append]
    unfold splitSign
    split
    · exact ((unsigned '-' rfl).2 rfl).elim
    · exact ((unsigned '+' rfl).1 rfl).elim
    · rfl
  | plus | minus => rfl

theorem exists_splitSign (text : List Char) :
    ∃ sign, text = sign ++ (splitSign text).2 ∧ Sign sign (splitSign text).1 ∧
      (sign = [] → Unsigned (splitSign text).2) := by
  unfold splitSign
  split
  · exact ⟨['-'], rfl, .minus, fun none => by cases none⟩
  · exact ⟨['+'], rfl, .plus, fun none => by cases none⟩
  · next noMinus noPlus =>
    refine ⟨[], rfl, .none, fun _ character first => ?_⟩
    rcases text with _ | ⟨head, rest⟩
    · cases first
    · cases first
      constructor
      · rintro rfl
        exact noPlus rest rfl
      · rintro rfl
        exact noMinus rest rfl

end Digits

/-- Blank characters are no letters. -/
theorem Blank.toLower_eq {character : Char} (blank : isBlank character = true) :
    character.toLower = character := by
  have noLetter : ¬ (character.val ≥ 'A'.val ∧ character.val ≤ 'Z'.val) := by
    simp only [isBlank, ranges, List.any_cons, List.any_nil, Bool.or_false, Bool.or_eq_true,
      Bool.and_eq_true, decide_eq_true_eq] at blank
    simp only [ge_iff_le, UInt32.le_iff_toNat_le, Char.toNat_val, Char.reduceVal,
      UInt32.reduceToNat]
    omega
  exact dif_neg noLetter

namespace SignedDigits

open Digits

theorem exists_split (text : List Char) :
    ∃ sign characters, text = sign ++ (characters ++ (split text).2) ∧
      Sign sign (split text).1.negative ∧
      (sign = [] → Unsigned (characters ++ (split text).2)) ∧
      Spells 10 characters (split text).1.digits ∧ Ended 10 (split text).2 := by
  rcases exists_splitSign text with ⟨sign, signed, isSign, single⟩
  rcases Digits.exists_split (by decide : 10 ≤ 16) (splitSign text).2 with
    ⟨characters, parts, spells, ended⟩
  have behind : (splitSign text).2 = characters ++ (split text).2 := parts
  rw [behind] at signed single
  exact ⟨sign, characters, signed, isSign, single, spells, ended⟩

theorem exists_split_append {sign characters : List Char} {negative : Bool} {digits : List Nat}
    (isSign : Sign sign negative) (spells : Spells 10 characters digits) (nonempty : digits ≠ [])
    (following : List Char) :
    ∃ more rest, split (sign ++ (characters ++ following)) =
        ({ negative, digits := digits ++ more }, rest) ∧
      rest <:+ following ∧ (rest = following → more = []) := by
  have decimal : (10 : Nat) ≤ 16 := by decide
  have unsigned := unsigned_append decimal spells nonempty following
  rcases Digits.exists_split_append decimal spells following with ⟨more, rest, found, suffix, all⟩
  refine ⟨more, rest, ?_, suffix, all⟩
  simp only [split, splitSign_append isSign fun _ => unsigned, found]

/-- The reader finds the one spelling that a text begins with. -/
theorem leads_iff {text : List Char} {spelled : SignedDigits} :
    Leads text spelled ↔ spelled = (split text).1 := by
  constructor
  · rintro ⟨isSign, single, spells, ended⟩
    simp only [split, splitSign_append isSign single, split_spells (by decide) spells ended]
  · rintro rfl
    rcases exists_split text with ⟨sign, characters, parts, isSign, single, spells, ended⟩
    have leads := Leads.intro isSign single spells ended
    rw [← parts] at leads
    exact leads

end SignedDigits

end ScriptLexer
