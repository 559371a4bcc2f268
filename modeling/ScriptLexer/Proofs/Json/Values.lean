import ScriptLexer.Proofs.Json.Numbers

/-!
# Values are passed over to their end

Whatever a value is and however deep it is nested, passing over it comes out behind it, with the same
lists and objects open as before. What follows a value has no bearing on that, as long as it does not
go on with it.
-/

namespace ScriptLexer

namespace Json

/-! ## How values begin -/

/-- A value may begin with the character. -/
def Starts (first : Char) : Prop :=
  first ∈ ['n', 't', 'f', '"', '[', '\x7b'] ∨ isNumberStart first = true

theorem not_mem_of_isNumberStart {first : Char} (isStart : isNumberStart first = true)
    {characters : List Char} (others : characters.any isNumberStart = false) :
    first ∉ characters :=
  fun member => List.any_eq_false.mp others first member isStart

theorem Starts.not_mem {first : Char} (starts : Starts first) :
    first ∉ blankCharacters ∧ first ∉ [']', '\x7d'] := by
  rcases starts with member | isStart
  · have apart : ∀ character ∈ ['n', 't', 'f', '"', '[', '\x7b'],
        character ∉ blankCharacters ∧ character ∉ [']', '\x7d'] :=
      List.all_iff_forall_prop.mp (by decide)
    exact apart first member
  · have apart {characters : List Char} := @not_mem_of_isNumberStart first isStart characters
    exact ⟨apart (by decide), apart (by decide)⟩

theorem exists_letter {word : List Char}
    (isWord : word ∈ words) :
    ∃ first others, word = first :: others ∧ first ∈ ['n', 't', 'f'] ∧
      (first = 't' ∨ first = 'f' → ∃ truth, SpellsTruth word truth) := by
  simp only [words, List.mem_cons, List.not_mem_nil, or_false] at isWord
  rcases isWord with rfl | rfl | rfl
  · exact ⟨'n', _, rfl, by decide, fun letter => absurd letter (by decide)⟩
  · exact ⟨'t', _, rfl, by decide, fun _ => ⟨true, .yes⟩⟩
  · exact ⟨'f', _, rfl, by decide, fun _ => ⟨false, .no⟩⟩

/-- Of all values only the words for truth have their first characters. -/
theorem Form.exists_start {text : List Char} (form : Form .value text) :
    ∃ first others, text = first :: others ∧ Starts first ∧
      (first = 't' ∨ first = 'f' → ∃ truth, SpellsTruth text truth) := by
  have opens (frame : Frame) : Starts frame.opener ∧ ¬ (frame.opener = 't' ∨ frame.opener = 'f') := by
    cases frame
    · exact ⟨.inl (by decide), by decide⟩
    · exact ⟨.inl (by decide), by decide⟩
  cases form with
  | word isWord =>
    rcases exists_letter isWord with ⟨first, others, equal, member, truth⟩
    exact ⟨first, others, equal, .inl (List.mem_append_left ['"', '[', '\x7b'] member), truth⟩
  | number isNumber =>
    rcases Number.exists_start isNumber with ⟨first, others, equal, isStart⟩
    have noLetter : ¬ (first = 't' ∨ first = 'f') := by
      rintro (rfl | rfl) <;> exact absurd isStart (by decide)
    exact ⟨first, others, equal, .inr isStart, fun letter => (noLetter letter).elim⟩
  | string =>
    have noLetter : ¬ ('"' = 't' ∨ '"' = 'f') := by decide
    exact ⟨'"', _, rfl, .inl (by decide), fun letter => (noLetter letter).elim⟩
  | @empty frame => exact ⟨_, _, rfl, (opens frame).1, fun letter => ((opens frame).2 letter).elim⟩
  | @filled frame => exact ⟨_, _, rfl, (opens frame).1, fun letter => ((opens frame).2 letter).elim⟩

/-- Behind blanks there is the first character of an item, which closes nothing. -/
theorem Form.skipBlanks_item {frame : Frame} {text : List Char} (form : Form (.item frame) text)
    (rest : List Char) :
    ∃ first others, skipBlanks (text ++ rest) = first :: others ∧ first ∉ [']', '\x7d'] := by
  cases form with
  | element blankBefore value =>
    rcases value.exists_start with ⟨first, others, rfl, starts, -⟩
    rw [List.append_assoc, List.cons_append, List.cons_append]
    exact ⟨first, _, skipBlanks_cons blankBefore starts.not_mem.1 _, starts.not_mem.2⟩
  | member blankBefore =>
    rw [List.append_assoc, List.cons_append]
    exact ⟨'"', _, skipBlanks_cons blankBefore (by decide) _, by decide⟩

theorem Form.skipBlanks_items {frame : Frame} {text : List Char} (form : Form (.items frame) text)
    (rest : List Char) :
    ∃ first others, skipBlanks (text ++ rest) = first :: others ∧ first ∉ [']', '\x7d'] := by
  cases form with
  | single item => exact item.skipBlanks_item rest
  | more item =>
    rw [List.append_assoc]
    exact item.skipBlanks_item _

/-! ## Words -/

theorem readWord_append (word rest : List Char) :
    ∃ bound, readWord word (word ++ rest) = .ok ⟨rest, bound⟩ := by
  induction word with
  | nil => exact ⟨Nat.le_refl _, rfl⟩
  | cons letter word induction =>
    rcases induction with ⟨bound, read⟩
    rw [List.cons_append, readWord, if_pos rfl, read]
    exact ⟨_, rfl⟩

/-! ## Values without parts -/

section

variable (rest : List Char)

theorem skipScalar_word {first : Char} {others : List Char}
    (isWord : first :: others ∈ words) :
    ∃ bound, skipScalar first (others ++ rest) = .ok ⟨rest, bound⟩ := by
  simp only [words, List.mem_cons, List.not_mem_nil, or_false] at isWord
  rcases isWord with equal | equal | equal
  · rcases List.cons.inj equal with ⟨rfl, rfl⟩
    exact readWord_append ['u', 'l', 'l'] rest
  · rcases List.cons.inj equal with ⟨rfl, rfl⟩
    exact readWord_append ['r', 'u', 'e'] rest
  · rcases List.cons.inj equal with ⟨rfl, rfl⟩
    exact readWord_append ['a', 'l', 's', 'e'] rest

theorem skipScalar_string {text : List Char} (inside : Inside text) :
    ∃ bound, skipScalar '"' (text ++ '"' :: rest) = .ok ⟨rest, bound⟩ := by
  rcases skipString_inside inside rest with ⟨shorter, skipped⟩
  rw [skipScalar, if_pos rfl, skipped]
  exact ⟨_, rfl⟩

variable {rest}

theorem skipScalar_number {first : Char} {others : List Char} (isNumber : IsNumber (first :: others))
    (isStart : isNumberStart first = true) (ends : Ends rest) :
    ∃ bound, skipScalar first (others ++ rest) = .ok ⟨rest, bound⟩ := by
  have noQuote : first ≠ '"' := by
    rintro rfl
    exact absurd isStart (by decide)
  have read := Number.read_spelled .malformed isNumber ends
  rw [List.cons_append] at read
  rcases read with ⟨number, shorter, read⟩
  rw [skipScalar, if_neg noQuote, if_pos isStart, read]
  exact ⟨_, rfl⟩

end

/-! ## Step by step -/

/-- What follows a value that is partly passed over already. -/
def passFrom (stage : Stage) (frames : List Frame) (text : List Char) : Except Fault (List Char) :=
  Subtype.val <$> skipFrom stage frames text

theorem passFrom_done (text : List Char) : passFrom .complete [] text = .ok text := by
  rw [passFrom, skipFrom, if_pos ⟨rfl, rfl⟩]
  rfl

theorem passFrom_eq {stage : Stage} {frames : List Frame}
    (unfinished : ¬ (stage = .complete ∧ frames = [])) (text : List Char) :
    passFrom stage frames text =
      skipPart stage frames text >>= fun (stage, frames, left) => passFrom stage frames left.1 := by
  rw [passFrom, skipFrom, if_neg unfinished]
  rcases skipPart stage frames text with fault | ⟨stage, frames, left⟩
  · rfl
  · rw [ok_bind, ok_bind]
    dsimp only [passFrom]
    cases skipFrom stage frames left.1 <;> rfl

theorem separator_eq {text rest : List Char} {first : Char} (found : skipBlanks text = first :: rest)
    (closer : Char) :
    separator closer text =
      if first = ',' then .ok (true, .afterBlanks found)
      else if first = closer then .ok (false, .afterBlanks found)
      else .error .malformed :=
  match_skipBlanks found _ fun _ _ _ => _

theorem passFrom_separator {frame : Frame} {frames : List Frame} {text rest : List Char} {first : Char}
    (found : skipBlanks text = first :: rest) :
    passFrom .complete (frame :: frames) text =
      if first = ',' then passFrom frame.stage (frame :: frames) rest
      else if first = frame.closer then passFrom .complete frames rest
      else .error .malformed := by
  rw [passFrom_eq (by simp), skipPart, separator_eq found]
  split_ifs <;> rfl

section

variable {frames : List Frame} {before : List Char} (blank : Blanks before)
include blank

/-- Blanks behind a value are passed over along with the mark behind them. -/
theorem passFrom_blanks {frame : Frame} {mark : Char} (notBlank : mark ∉ blankCharacters)
    (rest : List Char) :
    passFrom .complete (frame :: frames) (before ++ mark :: rest) =
      passFrom .complete (frame :: frames) (mark :: rest) := by
  rw [passFrom_separator (skipBlanks_cons blank notBlank rest),
    passFrom_separator (skipBlanks_of_not_mem notBlank rest)]

theorem skipPart_value {first : Char} (notBlank : first ∉ blankCharacters)
    (rest : List Char) :
    skipPart .value frames (before ++ first :: rest) =
      let behind := Shorter.afterBlanks (skipBlanks_cons blank notBlank rest)
      if first = '[' ∨ first = '\x7b' then
        let (stage, frames, left) := openFrame (if first = '[' then .list else .object) frames rest
        .ok (stage, frames, behind.andThen left)
      else do
        let left ← skipScalar first rest
        return (.complete, frames, behind.andThen left) :=
  match_skipBlanks (skipBlanks_cons blank notBlank rest) _ fun _ _ _ => _

theorem passFrom_scalar {first : Char} {text rest : List Char}
    (notBlank : first ∉ blankCharacters) (noOpener : ¬ (first = '[' ∨ first = '\x7b'))
    (skipped : ∃ bound, skipScalar first text = .ok ⟨rest, bound⟩) :
    passFrom .value frames (before ++ first :: text) = passFrom .complete frames rest := by
  rcases skipped with ⟨bound, skipped⟩
  rw [passFrom_eq (fun done => by cases done.1), skipPart_value blank notBlank, if_neg noOpener,
    skipped]
  rfl

theorem passFrom_opener {frame : Frame} {text rest : List Char} {first : Char}
    (found : skipBlanks text = first :: rest) :
    passFrom .value frames (before ++ frame.opener :: text) =
      if first = frame.closer then passFrom .complete frames rest
      else passFrom frame.stage (frame :: frames) text := by
  have notBlank : frame.opener ∉ blankCharacters := by cases frame <;> decide
  have opens : frame.opener = '[' ∨ frame.opener = '\x7b' := by cases frame <;> decide
  have same : (if frame.opener = '[' then Frame.list else .object) = frame := by cases frame <;> decide
  have opened : openFrame frame frames text =
      if first = frame.closer then (.complete, frames, (Shorter.afterBlanks found).rest)
      else (frame.stage, frame :: frames, .all text) := match_skipBlanks found _ fun _ _ _ => _
  rw [passFrom_eq (fun done => by cases done.1), skipPart_value blank notBlank, if_pos opens, same,
    opened]
  split_ifs <;> rfl

theorem passFrom_key {key between : List Char} (inside : Inside key) (blankBetween : Blanks between)
    (text : List Char) :
    passFrom .key frames (before ++ '"' :: (key ++ '"' :: (between ++ ':' :: text))) =
      passFrom .value frames text := by
  rcases expect_append blank (show '"' ∉ _ by decide) (key ++ '"' :: (between ++ ':' :: text)) with
    ⟨shorterQuote, quote⟩
  rcases skipString_inside inside (between ++ ':' :: text) with ⟨shorterKey, skipped⟩
  rcases expect_append blankBetween (show ':' ∉ _ by decide) text with ⟨shorterColon, colon⟩
  rw [passFrom_eq (fun done => by cases done.1), skipPart, quote, ok_bind, skipped, ok_bind, colon]
  rfl

end

/-! ## Whole values -/

/-- Passing over the part leads past it, whatever is open. Behind an item there is a mark, behind all of
them the one that closes what they are in. A member ends like an element of a list, so an item is not
bound to what is open around it. -/
def Passed : Part → List Char → Prop
  | .value, text => ∀ frames before rest, Blanks before → Ends rest →
      passFrom .value frames (before ++ (text ++ rest)) = passFrom .complete frames rest
  | .item frame, text => ∀ outer frames mark rest, mark ∈ marks →
      passFrom frame.stage (outer :: frames) (text ++ mark :: rest) =
        passFrom .complete (outer :: frames) (mark :: rest)
  | .items frame, text => ∀ frames rest,
      passFrom frame.stage (frame :: frames) (text ++ frame.closer :: rest) =
        passFrom .complete frames rest

theorem passed_of_form {part : Part} {text : List Char} (form : Form part text) :
    Passed part text := by
  -- What is open is left free, since a part is passed over with one more list or object open.
  induction form with
  | word isWord =>
    intro frames before rest blank ends
    rcases exists_letter isWord with ⟨first, others, rfl, member, -⟩
    have apart : ∀ letter ∈ ['n', 't', 'f'],
        letter ∉ blankCharacters ∧ ¬ (letter = '[' ∨ letter = '\x7b') :=
      List.all_iff_forall_prop.mp (by decide)
    exact passFrom_scalar blank (apart first member).1 (apart first member).2
      (skipScalar_word rest isWord)
  | number isNumber =>
    intro frames before rest blank ends
    rcases Number.exists_start isNumber with ⟨first, others, rfl, isStart⟩
    have noOpener : ¬ (first = '[' ∨ first = '\x7b') := by
      rintro (rfl | rfl) <;> exact absurd isStart (by decide)
    exact passFrom_scalar blank (not_mem_of_isNumberStart isStart (by decide)) noOpener
      (skipScalar_number isNumber isStart ends)
  | string inside =>
    intro frames before rest blank ends
    rw [List.cons_append, List.append_assoc, List.singleton_append]
    exact passFrom_scalar blank (by decide) (by decide) (skipScalar_string rest inside)
  | @empty frame blanks isBlank =>
    intro frames before rest blank ends
    have found := skipBlanks_cons isBlank (show frame.closer ∉ _ by cases frame <;> decide) rest
    rw [List.cons_append, List.append_assoc, List.singleton_append, passFrom_opener blank found,
      if_pos rfl]
  | @filled frame text items induction =>
    intro frames before rest blank ends
    rcases items.skipBlanks_items (frame.closer :: rest) with ⟨first, others, found, noCloser⟩
    have stays : first ≠ frame.closer := by
      rintro rfl
      exact noCloser (by cases frame <;> decide)
    rw [List.cons_append, List.append_assoc, List.singleton_append, passFrom_opener blank found,
      if_neg stays, induction]
  | @element before text after blankBefore value blankAfter induction =>
    intro outer frames mark rest isMark
    have noBlank : ∀ mark ∈ marks, mark ∉ blankCharacters :=
      List.all_iff_forall_prop.mp (by decide)
    have ends := ends_append blankAfter (ends_cons isMark rest)
    rw [List.append_assoc, List.append_assoc, Frame.stage, induction _ _ _ blankBefore ends,
      passFrom_blanks blankAfter (noBlank mark isMark)]
  | @member before key between text blankBefore inside blankBetween value induction =>
    intro outer frames mark rest isMark
    rw [List.append_assoc, List.cons_append, List.append_assoc, List.cons_append, List.append_assoc,
      List.cons_append, Frame.stage, passFrom_key blankBefore inside blankBetween]
    exact induction outer frames mark rest isMark
  | @single frame text item induction =>
    intro frames rest
    have isMark : frame.closer ∈ marks := by cases frame <;> decide
    have found := skipBlanks_of_not_mem (show frame.closer ∉ _ by cases frame <;> decide) rest
    rw [induction _ _ _ _ isMark, passFrom_separator found, if_neg (by cases frame <;> decide),
      if_pos rfl]
  | @more frame text later item items induction inductionLater =>
    intro frames rest
    have found := skipBlanks_of_not_mem (show ',' ∉ _ by decide) (later ++ frame.closer :: rest)
    rw [List.append_assoc, List.cons_append, induction _ _ _ _ (by decide), passFrom_separator found,
      if_pos rfl, inductionLater]

theorem skipFrom_value (text : List Char) :
    skipFrom .value [] text = Shorter.rest <$> skipValue text := by
  rw [skipFrom, if_neg (fun done => by cases done.1), skipValue]
  simp only [map_bind, map_pure]

theorem skipValue_spelled {before text rest : List Char} (blank : Blanks before)
    (form : Form .value text) (ends : Ends rest) :
    ∃ shorter, skipValue (before ++ (text ++ rest)) = .ok ⟨rest, shorter⟩ := by
  have passed := passed_of_form form [] before rest blank ends
  rw [passFrom, skipFrom_value, passFrom_done] at passed
  cases skipped : skipValue (before ++ (text ++ rest)) with
  | error =>
    rw [skipped] at passed
    cases passed
  | ok left =>
    rw [skipped] at passed
    have equal : left.1 = rest := Except.ok.inj passed
    have shorter := left.2
    rw [equal] at shorter
    exact ⟨shorter, congrArg _ (Subtype.ext equal)⟩

/-! ## Truth values -/

section

variable {before text : List Char} (blank : Blanks before)
include blank

theorem readTruth_append {first : Char} (notBlank : first ∉ blankCharacters)
    (rest : List Char) :
    readTruth (before ++ first :: rest) =
      if first = 't' ∨ first = 'f' then do
        let left ← readWord ((wordAfter? first).getD []) rest
        return (first = 't', (Shorter.afterBlanks (skipBlanks_cons blank notBlank rest)).andThen left)
      else .error (mismatch (before ++ first :: rest)) :=
  match_skipBlanks (skipBlanks_cons blank notBlank rest) _ fun _ _ _ => _

theorem readTruth_spelled {truth : Bool} (spells : SpellsTruth text truth) (rest : List Char) :
    ∃ shorter, readTruth (before ++ (text ++ rest)) = .ok (truth, ⟨rest, shorter⟩) := by
  cases spells with
  | yes =>
    rcases readWord_append ['r', 'u', 'e'] rest with ⟨bound, read⟩
    have equal := readTruth_append blank (show 't' ∉ _ by decide) (['r', 'u', 'e'] ++ rest)
    rw [if_pos (.inl rfl), show (wordAfter? 't').getD [] = ['r', 'u', 'e'] from rfl, read] at equal
    exact ⟨_, equal⟩
  | no =>
    rcases readWord_append ['a', 'l', 's', 'e'] rest with ⟨bound, read⟩
    have equal := readTruth_append blank (show 'f' ∉ _ by decide) (['a', 'l', 's', 'e'] ++ rest)
    rw [if_pos (.inr rfl), show (wordAfter? 'f').getD [] = ['a', 'l', 's', 'e'] from rfl, read] at equal
    exact ⟨_, equal⟩

/-- Every other value is refused. -/
theorem readTruth_other (form : Form .value text) (other : ¬ ∃ truth, SpellsTruth text truth)
    (rest : List Char) : ∃ fault, readTruth (before ++ (text ++ rest)) = .error fault := by
  rcases form.exists_start with ⟨first, others, rfl, starts, truth⟩
  rw [List.cons_append, readTruth_append blank starts.not_mem.1,
    if_neg fun letter => other (truth letter)]
  exact ⟨_, rfl⟩

end

end Json

end ScriptLexer
