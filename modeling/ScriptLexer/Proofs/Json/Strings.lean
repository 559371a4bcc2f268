import ScriptLexer.Proofs.Grammar.Json
import ScriptLexer.Proofs.Value.Digits

/-!
# Strings are read as the grammar has them

A string is passed over whatever it spells out. It is read just if it spells out characters, and then as
these. What is written for a text is one of the ways to write it.
-/

namespace ScriptLexer

namespace Json

open Digits

theorem ok_bind {α β : Type} (result : α) (next : α → Except Fault β) :
    (Except.ok result >>= next) = next result :=
  rfl

theorem exists_of_map {α β : Type} {change : α → β} {result : Except Fault α} {value : β}
    (changed : change <$> result = .ok value) : ∃ before, result = .ok before ∧ change before = value := by
  cases result with
  | error => cases changed
  | ok before => exact ⟨before, rfl, Except.ok.inj changed⟩

/-! ## Blanks -/

theorem isBlank_iff {character : Char} :
    isBlank character = true ↔ character ∈ blankCharacters := by
  simp only [isBlank, blankCharacters, Bool.or_eq_true, beq_iff_eq, List.mem_cons, List.not_mem_nil, or_false]
  tauto

theorem skipBlanks_of_not_mem {first : Char} (notBlank : first ∉ blankCharacters)
    (rest : List Char) : skipBlanks (first :: rest) = first :: rest :=
  List.dropWhile_cons_of_neg (mt isBlank_iff.mp notBlank)

section

variable {blanks : List Char} (blank : Blanks blanks)
include blank

theorem skipBlanks_append (text : List Char) : skipBlanks (blanks ++ text) = skipBlanks text :=
  List.dropWhile_append_of_pos fun character member => isBlank_iff.mpr (blank character member)

theorem skipBlanks_cons {first : Char} (notBlank : first ∉ blankCharacters)
    (rest : List Char) : skipBlanks (blanks ++ first :: rest) = first :: rest := by
  rw [skipBlanks_append blank, skipBlanks_of_not_mem notBlank]

end

/-- What is done with a text is told by its first character behind the blanks. What is done uses that it
stands there, so the text cannot just be rewritten. -/
theorem match_skipBlanks {α : Type} {text rest : List Char} {first : Char}
    (found : skipBlanks text = first :: rest) (none : skipBlanks text = [] → α)
    (some : (first : Char) → (rest : List Char) → skipBlanks text = first :: rest → α) :
    (match split : skipBlanks text with
      | [] => none split
      | first :: rest => some first rest split) = some first rest found := by
  split
  · next nothing =>
    rw [found] at nothing
    cases nothing
  · next split =>
    rcases List.cons.inj (found.symm.trans split) with ⟨rfl, rfl⟩
    rfl

theorem expect_eq {text rest : List Char} {first : Char} (found : skipBlanks text = first :: rest)
    (mark : Char) :
    expect mark text = if first = mark then .ok (.afterBlanks found) else .error .malformed :=
  match_skipBlanks found _ fun _ _ _ => _

theorem expect_append {blanks : List Char} (blank : Blanks blanks) {mark : Char}
    (notBlank : mark ∉ blankCharacters) (rest : List Char) :
    ∃ shorter, expect mark (blanks ++ mark :: rest) = .ok ⟨rest, shorter⟩ := by
  have found := skipBlanks_cons blank notBlank rest
  refine ⟨(Shorter.afterBlanks found).2, ?_⟩
  rw [expect_eq found, if_pos rfl]
  rfl

theorem finish_blanks {text : List Char} (blank : Blanks text) : finish text = .ok () := by
  have all := skipBlanks_append blank []
  rw [List.append_nil] at all
  rw [finish, all]
  rfl

/-! ## Pieces of a string -/

theorem spellsUnit_iff {digits : List Char} {code : Nat} :
    SpellsUnit digits code ↔ digits.length = 4 ∧ unit? digits = some code := by
  have value (first second third fourth : Nat) : Digits.toNat 16 [first, second, third, fourth] =
      ((first * 16 + second) * 16 + third) * 16 + fourth := by
    simp [Digits.toNat]
  constructor
  · rintro ⟨spells⟩
    rcases (spells_iff (Nat.le_refl 16)).mp spells with ⟨all, values⟩
    rw [unit?, if_pos (List.all_eq_true.mpr all), values, value]
    exact ⟨spells.length_eq, rfl⟩
  · rintro ⟨length, found⟩
    rw [unit?] at found
    split at found
    · next all =>
      match digits, length with
      | [first, second, third, fourth], _ =>
        have spells := (spells_iff (Nat.le_refl 16)).mpr ⟨List.all_eq_true.mp all, rfl⟩
        have unit := SpellsUnit.intro spells
        rw [← value] at unit
        exact Option.some.inj found ▸ unit
    · cases found

instance (digits : List Char) (code : Nat) : Decidable (SpellsUnit digits code) :=
  decidable_of_iff _ spellsUnit_iff.symm

theorem lt_of_spellsUnit {digits : List Char} {code : Nat} (unit : SpellsUnit digits code) :
    code < 0x10000 := by
  rcases unit with ⟨spells⟩
  have below := lt_of_spells spells
  simp only [List.forall_mem_cons] at below
  omega

namespace Pieces

variable (rest : List Char)

theorem ofText_quote : ofText ('"' :: rest) = { pieces := [], stop := .ok rest } := by
  rw [ofText.eq_def]
  exact if_pos rfl

theorem ofText_plain {character : Char} (plain : Plain character) :
    ofText (character :: rest) = cons (.character character) (ofText rest) := by
  rw [ofText.eq_def]
  dsimp only
  rw [if_neg plain.noQuote, if_neg plain.noBackslash, if_neg (Nat.not_lt.mpr plain.noControl)]

theorem ofText_named {letter character : Char} (named : Named letter character) :
    ofText ('\\' :: letter :: rest) = cons (.character character) (ofText rest) := by
  cases named <;> rfl

theorem ofText_unit {digits : List Char} {code : Nat} (unit : SpellsUnit digits code) :
    ofText ('\\' :: 'u' :: (digits ++ rest)) = cons (.unit code) (ofText rest) := by
  rcases spellsUnit_iff.mp unit with ⟨length, found⟩
  match digits, length with
  | [first, second, third, fourth], _ =>
    rw [List.cons_append, List.cons_append, List.cons_append, List.cons_append, List.nil_append,
      ofText.eq_def]
    simp [found]

end Pieces

/-- The pieces that the inside of a string is cut into. They are kept together with it, since whether half
of a pair is joined is told by the piece behind it. -/
inductive Cut : List Char → List Piece → Prop
  | nil : Cut [] []
  | plain {character : Char} {rest : List Char} {pieces : List Piece} (plain : Plain character)
      (later : Cut rest pieces) : Cut (character :: rest) (.character character :: pieces)
  | named {letter character : Char} {rest : List Char} {pieces : List Piece}
      (named : Named letter character) (later : Cut rest pieces) :
      Cut ('\\' :: letter :: rest) (.character character :: pieces)
  | unit {digits rest : List Char} {code : Nat} {pieces : List Piece} (unit : SpellsUnit digits code)
      (later : Cut rest pieces) : Cut ('\\' :: 'u' :: (digits ++ rest)) (.unit code :: pieces)

theorem exists_cut {text : List Char} (inside : Inside text) : ∃ pieces, Cut text pieces := by
  induction inside with
  | nil => exact ⟨_, .nil⟩
  | plain plain _ induction => exact induction.imp' _ fun _ later => .plain plain later
  | named named _ induction => exact induction.imp' _ fun _ later => .named named later
  | unit unit _ induction => exact induction.imp' _ fun _ later => .unit unit later

theorem Cut.ofText_eq {text : List Char} {pieces : List Piece} (cut : Cut text pieces)
    (rest : List Char) : Pieces.ofText (text ++ '"' :: rest) = { pieces, stop := .ok rest } := by
  induction cut with
  | nil => rw [List.nil_append, Pieces.ofText_quote]
  | plain plain _ induction =>
    rw [List.cons_append, Pieces.ofText_plain _ plain, induction]
    rfl
  | named named _ induction =>
    rw [List.cons_append, List.cons_append, Pieces.ofText_named _ named, induction]
    rfl
  | unit unit _ induction =>
    rw [List.cons_append, List.cons_append, List.append_assoc, Pieces.ofText_unit _ unit, induction]
    rfl

/-! ## Passing over a string -/

theorem skipString_cut {text : List Char} {pieces : List Piece} (cut : Cut text pieces)
    (rest : List Char) : ∃ shorter, skipString (text ++ '"' :: rest) = .ok ⟨rest, shorter⟩ := by
  have stop : (Pieces.ofText (text ++ '"' :: rest)).stop = .ok rest := by rw [cut.ofText_eq]
  refine ⟨Pieces.length_stop_lt _ rest stop, ?_⟩
  unfold skipString
  split
  · next fails =>
    rw [stop] at fails
    cases fails
  · next found =>
    rw [stop] at found
    cases found
    rfl

theorem skipString_inside {text : List Char} (inside : Inside text) (rest : List Char) :
    ∃ shorter, skipString (text ++ '"' :: rest) = .ok ⟨rest, shorter⟩ := by
  rcases exists_cut inside with ⟨_, cut⟩
  exact skipString_cut cut rest

/-! ## Joining units -/

theorem isHighUnit_iff {code : Nat} : isHighUnit code = true ↔ 0xD800 ≤ code ∧ code < 0xDC00 := by
  simp only [isHighUnit, Bool.and_eq_true, decide_eq_true_eq]

theorem isLowUnit_iff {code : Nat} : isLowUnit code = true ↔ 0xDC00 ≤ code ∧ code < 0xE000 := by
  simp only [isLowUnit, Bool.and_eq_true, decide_eq_true_eq]

theorem toNat_joinUnits {high low : Nat} (isHigh : 0xD800 ≤ high ∧ high < 0xDC00)
    (isLow : 0xDC00 ≤ low ∧ low < 0xE000) :
    (joinUnits high low).toNat = 0x10000 + (high - 0xD800) * 0x400 + (low - 0xDC00) := by
  have valid : (0x10000 + (high - 0xD800) * 0x400 + (low - 0xDC00)).isValidChar := .inr (by omega)
  rw [joinUnits, Char.ofNat, dif_pos valid]
  rfl

/-- A unit that is no half of a pair is the number of a character. -/
theorem toNat_ofUnit {code : Nat} (notHigh : ¬ isHighUnit code = true) (notLow : ¬ isLowUnit code = true)
    (small : code < 0x10000) : (Char.ofNat code).toNat = code := by
  rw [isHighUnit_iff] at notHigh
  rw [isLowUnit_iff] at notLow
  have valid : code.isValidChar := by
    rw [Nat.isValidChar]
    omega
  rw [Char.ofNat, dif_pos valid]
  rfl

section

variable (fault : Fault) (later : List Piece)

theorem join_character (character : Char) :
    join fault (.character character :: later) = (character :: ·) <$> join fault later := by
  rw [join]

/-- No character has the number of half of a pair. -/
theorem join_unit (character : Char) :
    join fault (.unit character.toNat :: later) = (character :: ·) <$> join fault later := by
  have valid : character.toNat < 0xD800 ∨ 0xDFFF < character.toNat ∧ character.toNat < 0x110000 :=
    character.valid
  have noHigh : ¬ isHighUnit character.toNat = true := by
    rw [isHighUnit_iff]
    omega
  have noLow : ¬ isLowUnit character.toNat = true := by
    rw [isLowUnit_iff]
    omega
  rw [join.eq_def]
  simp only [noHigh, noLow, if_false, Char.ofNat_toNat, Bool.false_eq_true]

theorem join_pair {character : Char} {high low : Nat} (isHigh : 0xD800 ≤ high ∧ high < 0xDC00)
    (isLow : 0xDC00 ≤ low ∧ low < 0xE000)
    (joined : character.toNat = 0x10000 + (high - 0xD800) * 0x400 + (low - 0xDC00)) :
    join fault (.unit high :: .unit low :: later) = (character :: ·) <$> join fault later := by
  have high_eq := isHighUnit_iff.mpr isHigh
  have low_eq := isLowUnit_iff.mpr isLow
  rw [join.eq_def]
  simp only [high_eq, low_eq, if_true, joinUnits, ← joined, Char.ofNat_toNat]

end

/-- A way to write a character is cut into pieces that are joined to it. -/
theorem exists_pieces {character : Char} {text : List Char}
    (spells : SpellsCharacter character text) :
    ∃ front : List Piece,
      (∀ {rest pieces}, Cut rest pieces → Cut (text ++ rest) (front ++ pieces)) ∧
      ∀ fault later, join fault (front ++ later) = (character :: ·) <$> join fault later := by
  cases spells with
  | plain plain =>
    exact ⟨[.character character], .plain plain, fun fault later => join_character fault later character⟩
  | named named =>
    exact ⟨[.character character], .named named, fun fault later => join_character fault later character⟩
  | unit unit =>
    exact ⟨[.unit character.toNat], .unit unit, fun fault later => join_unit fault later character⟩
  | @pair _ highDigits lowDigits high low highUnit isHigh lowUnit isLow joined =>
    refine ⟨[.unit high, .unit low], fun cut => ?_,
      fun fault later => join_pair fault later isHigh isLow joined⟩
    rw [List.cons_append, List.cons_append, List.append_assoc]
    exact .unit highUnit (.unit lowUnit cut)

theorem exists_cut_of_spellsText {characters text : List Char} (spells : SpellsText characters text) :
    ∃ pieces, Cut text pieces ∧ ∀ fault, join fault pieces = .ok characters := by
  induction spells with
  | nil => exact ⟨[], .nil, fun fault => rfl⟩
  | cons first _ induction =>
    rcases exists_pieces first with ⟨front, cut, joined⟩
    rcases induction with ⟨pieces, cutLater, joinedLater⟩
    refine ⟨front ++ pieces, cut cutLater, fun fault => ?_⟩
    rw [joined, joinedLater]
    rfl

/-! ## What is joined -/

/-- Pieces that are joined to characters were cut from a way to write them. -/
theorem spellsText_of_join {fault : Fault} {pieces : List Piece} {characters text : List Char}
    (cut : Cut text pieces) (joined : join fault pieces = .ok characters) :
    SpellsText characters text := by
  fun_induction join fault pieces generalizing characters text with
  | case1 =>
    cases cut
    cases joined
    exact .nil
  | case2 character later induction =>
    rcases exists_of_map joined with ⟨others, joinedLater, rfl⟩
    cases cut with
    | plain plain cutLater => exact .cons (.plain plain) (induction cutLater joinedLater)
    | named named cutLater => exact .cons (.named named) (induction cutLater joinedLater)
  | case3 high isHigh low later isLow induction =>
    rcases exists_of_map joined with ⟨others, joinedLater, rfl⟩
    rcases cut with _ | _ | _ | ⟨highUnit, _ | _ | _ | ⟨lowUnit, cutLater⟩⟩
    rw [isHighUnit_iff] at isHigh
    rw [isLowUnit_iff] at isLow
    have pair := SpellsCharacter.pair highUnit isHigh lowUnit isLow (toNat_joinUnits isHigh isLow)
    have spelled := SpellsText.cons pair (induction cutLater joinedLater)
    rw [List.cons_append, List.cons_append, List.append_assoc] at spelled
    exact spelled
  | case4 => cases joined
  | case5 => cases joined
  | case6 => cases joined
  | case7 => cases joined
  | case8 code later notHigh notLow induction =>
    rcases exists_of_map joined with ⟨others, joinedLater, rfl⟩
    cases cut with
    | unit unit cutLater =>
      have value := toNat_ofUnit notHigh notLow (lt_of_spellsUnit unit)
      exact .cons (.unit (value.symm ▸ unit)) (induction cutLater joinedLater)

/-- Where a string ends, all that can be wrong with its pieces is half of a pair without the other. -/
theorem join_malformed {pieces : List Piece} {fault : Fault}
    (failed : join .malformed pieces = .error fault) : fault = .malformed := by
  have passed {character : Char} {result : Except Fault (List Char)}
      (failed : (character :: ·) <$> result = .error fault) : result = .error fault := by
    cases result with
    | error => cases failed; rfl
    | ok => cases failed
  fun_induction join .malformed pieces with
  | case1 => cases failed
  | case2 _ _ induction => exact induction (passed failed)
  | case3 _ _ _ _ _ induction => exact induction (passed failed)
  | case4 => cases failed; rfl
  | case5 => cases failed; rfl
  | case6 => cases failed; rfl
  | case7 => cases failed; rfl
  | case8 _ _ _ _ induction => exact induction (passed failed)

/-! ## Reading a string -/

theorem readString_cut {text : List Char} {pieces : List Piece} (cut : Cut text pieces)
    (rest : List Char) :
    ∃ shorter, readString (text ++ '"' :: rest) =
      join .malformed pieces >>= fun characters => .ok (.ofList characters, ⟨rest, shorter⟩) := by
  rcases skipString_cut cut rest with ⟨shorter, skipped⟩
  refine ⟨shorter, ?_⟩
  rw [readString, cut.ofText_eq, skipped]
  rfl

/-- A string that spells out characters is read as they are. -/
theorem readString_spelled {characters text : List Char} (spells : SpellsText characters text)
    (rest : List Char) :
    ∃ shorter, readString (text ++ '"' :: rest) = .ok (.ofList characters, ⟨rest, shorter⟩) := by
  rcases exists_cut_of_spellsText spells with ⟨pieces, cut, joined⟩
  rcases readString_cut cut rest with ⟨shorter, read⟩
  rw [joined] at read
  exact ⟨shorter, read⟩

/-- A string that spells out no characters is refused, though it is well formed. -/
theorem readString_half {text : List Char} (inside : Inside text)
    (unspelled : ∀ characters, ¬ SpellsText characters text) (rest : List Char) :
    readString (text ++ '"' :: rest) = .error .malformed := by
  rcases exists_cut inside with ⟨pieces, cut⟩
  rcases readString_cut cut rest with ⟨_, read⟩
  rw [read]
  cases joined : join .malformed pieces with
  | ok characters => exact (unspelled characters (spellsText_of_join cut joined)).elim
  | error fault =>
    rw [join_malformed joined]
    rfl

/-! ## Writing -/

/-- A control character is written as its unit. -/
theorem spellsUnit_control {code : Nat} (small : code < 0x20) :
    SpellsUnit ['0', '0', Nat.digitChar (code / 16), Nat.digitChar (code % 16)] code := by
  have units : ∀ code < 0x20,
      SpellsUnit ['0', '0', Nat.digitChar (code / 16), Nat.digitChar (code % 16)] code := by decide
  exact units code small

theorem spellsCharacter_escape (character : Char) :
    SpellsCharacter character (escape character) := by
  unfold escape
  split_ifs with quote backslash backspace formFeed newline carriageReturn tab control
  · subst quote
    exact .named .quote
  · subst backslash
    exact .named .backslash
  · subst backspace
    exact .named .backspace
  · subst formFeed
    exact .named .formFeed
  · subst newline
    exact .named .newline
  · subst carriageReturn
    exact .named .carriageReturn
  · subst tab
    exact .named .tab
  · exact .unit (spellsUnit_control control)
  · exact .plain ⟨Nat.le_of_not_lt control, quote, backslash⟩

theorem spellsText_escape (characters : List Char) :
    SpellsText characters (characters.flatMap escape) := by
  induction characters with
  | nil => exact .nil
  | cons character rest induction => exact .cons (spellsCharacter_escape character) induction

/-- What is written for a text is a string with its characters. -/
theorem stringText_quote (text : String) : StringText (quote text).toList text := by
  have blank : Blanks [] := List.forall_mem_nil _
  have spelled := StringText.intro blank (spellsText_escape text.toList) blank
  rw [quote, String.toList_ofList]
  exact spelled

/-! ## Strings as values -/

theorem readText_eq {text rest : List Char} {first : Char} (found : skipBlanks text = first :: rest) :
    readText text =
      if first = '"' then do
        let (value, left) ← readString rest
        return (value, (Shorter.afterBlanks found).andThen left.rest)
      else .error (mismatch text) :=
  match_skipBlanks found _ fun _ _ _ => _

theorem readText_spelled {before spelled : List Char} {value : String} (blank : Blanks before)
    (spells : SpellsText value.toList spelled) (rest : List Char) :
    ∃ shorter, readText (before ++ '"' :: (spelled ++ '"' :: rest)) =
      .ok (value, ⟨rest, shorter⟩) := by
  have found := skipBlanks_cons blank (show '"' ∉ _ by decide) (spelled ++ '"' :: rest)
  rcases readString_spelled spells rest with ⟨shorter, read⟩
  refine ⟨((Shorter.afterBlanks found).andThen ⟨rest, Nat.le_of_lt shorter⟩).2, ?_⟩
  rw [readText_eq found, if_pos rfl, read, ok_bind, String.ofList_toList]
  rfl

theorem readText_of_stringText {text : List Char} {value : String} (isString : StringText text value) :
    ∃ rest shorter, readText text = .ok (value, ⟨rest, shorter⟩) ∧ Blanks rest := by
  rcases isString with ⟨blankBefore, spells, blankAfter⟩
  rcases readText_spelled blankBefore spells _ with ⟨shorter, read⟩
  exact ⟨_, shorter, read, blankAfter⟩

end Json

end ScriptLexer
