import ScriptLexer.Lexer
import ScriptLexer.Proofs.Cursor.Steps
import ScriptLexer.Proofs.Grammar.Lexemes

/-!
# Reading one token

All that reading a token can come to: either a gap is all that is left, or a lexeme follows the gap.
What is known of a lexer behind a token is derived from these two cases.
-/

namespace ScriptLexer

namespace Lexer

open Grammar

/-! ## Behind a lexeme -/

section

variable (cursor : Cursor) (lexeme : Lexeme)

@[simp] theorem skipLexeme_buffer : (skipLexeme cursor lexeme).buffer = cursor.buffer :=
  cursor.beginToken.skip_buffer lexeme.length

@[simp] theorem skipLexeme_tokenStart :
    (skipLexeme cursor lexeme).tokenStart = cursor.position :=
  cursor.beginToken.skip_tokenStart lexeme.length

theorem skipLexeme_ahead : (skipLexeme cursor lexeme).ahead = cursor.ahead.drop lexeme.length :=
  cursor.beginToken.skip_ahead lexeme.length

theorem skipLexeme_line :
    (skipLexeme cursor lexeme).line =
      cursor.line + (cursor.ahead.dropLast.take lexeme.length).count Byte.newline :=
  cursor.beginToken.skip_line lexeme.length

variable {cursor} (inBuffer : cursor.InBuffer)
include inBuffer

theorem inBuffer_skipLexeme : (skipLexeme cursor lexeme).InBuffer := by
  have begun : cursor.beginToken.InBuffer := inBuffer
  exact begun.skip lexeme.length

theorem skipLexeme_position :
    (skipLexeme cursor lexeme).position =
      cursor.position + (cursor.ahead.take lexeme.length).length := by
  have begun : cursor.beginToken.InBuffer := inBuffer
  exact Cursor.skip_position begun lexeme.length

/-- The end of the token is put where the cursor is, also where the last step parked it. -/
theorem skipLexeme_tokenEnd :
    (skipLexeme cursor lexeme).tokenEnd = (skipLexeme cursor lexeme).position := by
  have behind := inBuffer_skipLexeme lexeme inBuffer
  have position := skipLexeme_position lexeme inBuffer
  have tokenEnd : (skipLexeme cursor lexeme).tokenEnd =
      max (skipLexeme cursor lexeme).tokenStart
        (min (skipLexeme cursor lexeme).position (skipLexeme cursor lexeme).size) := rfl
  rw [Cursor.InBuffer] at behind
  rw [tokenEnd, skipLexeme_tokenStart, Cursor.size_eq]
  omega

end

/-- How a cursor comes over a gap to the start of a lexeme and behind it. -/
structure Passes (cursor : Cursor) (gap : Bytes) (lexeme : Lexeme) (following : Bytes)
    (start behind : Cursor) : Prop where
  start_position : start.position = cursor.position + gap.length
  start_ahead : start.ahead = lexeme.bytes ++ following
  behind_position : behind.position = start.position + lexeme.length
  behind_ahead : behind.ahead = following
  behind_inBuffer : behind.InBuffer
  tokenStart_eq : behind.tokenStart = start.position
  tokenEnd_eq : behind.tokenEnd = behind.position

theorem passes {cursor start behind : Cursor} {gap following : Bytes} {lexeme : Lexeme}
    (inBuffer : cursor.InBuffer) (ahead : cursor.ahead = gap ++ (lexeme.bytes ++ following))
    (start_eq : start = cursor.skip gap.length) (behind_eq : behind = skipLexeme start lexeme) :
    Passes cursor gap lexeme following start behind := by
  subst start_eq behind_eq
  have start_ahead := Cursor.skip_ahead_eq ahead
  have start_inBuffer := inBuffer.skip gap.length
  refine
    { start_position := Cursor.skip_position_eq inBuffer ahead
      start_ahead
      behind_position := ?_
      behind_ahead := ?_
      behind_inBuffer := inBuffer_skipLexeme lexeme start_inBuffer
      tokenStart_eq := skipLexeme_tokenStart _ _
      tokenEnd_eq := skipLexeme_tokenEnd lexeme start_inBuffer }
  · rw [skipLexeme_position lexeme start_inBuffer, start_ahead, Lexeme.length, List.take_left]
  · rw [skipLexeme_ahead, start_ahead, Lexeme.length, List.drop_left]

/-! ## The two cases -/

inductive Scans (lexer : Lexer) : Token → Lexer → Prop
  | finish (isGap : Gap lexer.rules lexer.cursor.ahead []) :
      Scans lexer (.finish (lexer.cursor.skip lexer.cursor.ahead.length).place)
        { lexer with
          cursor := lexer.cursor.skip lexer.cursor.ahead.length
          quoted := false }
  | lexeme {gap following : Bytes} {lexeme : Lexeme} {text : String} {start behind : Cursor}
      (ahead : lexer.cursor.ahead = gap ++ (lexeme.bytes ++ following))
      (isGap : Gap lexer.rules gap (lexeme.bytes ++ following))
      (starts : Starts lexer.rules (lexeme.bytes ++ following))
      (spells : Spells lexer.delimiters lexeme text following)
      (start_eq : start = lexer.cursor.skip gap.length)
      (behind_eq : behind = skipLexeme start lexeme) :
      Scans lexer
        { text
          quoted := lexeme.isQuoted
          span :=
            { start := start.place
              stop := { line := behind.line, offset := behind.tokenEnd } } }
        { lexer with cursor := behind, quoted := lexeme.isQuoted }

theorem scans_next (lexer : Lexer) : lexer.Scans lexer.next.token lexer.next.lexer := by
  have isGap := gap_take_gapLength lexer.rules lexer.cursor.ahead
  have behindGap := starts_drop_gapLength lexer.rules lexer.cursor.ahead
  have parts := List.take_append_drop (gapLength lexer.rules lexer.cursor.ahead) lexer.cursor.ahead
  have within := gapLength_le lexer.rules lexer.cursor.ahead
  have behindGapAhead : lexer.skipGap.ahead =
      lexer.cursor.ahead.drop (gapLength lexer.rules lexer.cursor.ahead) :=
    Cursor.skip_ahead _ _
  change lexer.Scans lexer.scan.1 lexer.scan.2
  rw [← behindGapAhead] at isGap behindGap parts
  unfold scan
  dsimp only
  split
  · next nothing =>
    rw [nothing, List.append_nil] at parts
    rw [nothing, parts] at isGap
    have all : gapLength lexer.rules lexer.cursor.ahead = lexer.cursor.ahead.length := by
      have lengths := congrArg List.length parts
      rw [List.length_take] at lengths
      omega
    unfold Lexer.skipGap
    rw [all]
    exact .finish isGap
  · next first rest ahead =>
    have starts : Starts lexer.rules (first :: rest) := by
      rcases behindGap with nothing | starts
      · rw [ahead] at nothing
        cases nothing
      · exact ahead ▸ starts
    rcases starts.notBlank with ⟨_, _, equal, notBlank⟩
    cases equal
    rcases spells_read lexer.delimiters notBlank rest with ⟨following, read, spells⟩
    rw [ahead, read] at isGap parts
    rw [read] at starts
    refine .lexeme parts.symm isGap starts spells ?_ rfl
    rw [List.length_take, Nat.min_eq_left within]
    rfl

/-- A lexer reads one token only, so a case that can be shown of it is the one that it comes to. -/
theorem Scans.unique {lexer after other : Lexer} {token otherToken : Token}
    (scans : lexer.Scans token after) (otherScans : lexer.Scans otherToken other) :
    token = otherToken ∧ after = other := by
  cases scans with
  | finish isGap =>
    cases otherScans with
    | finish => exact ⟨rfl, rfl⟩
    | lexeme otherAhead otherIsGap otherStarts otherSpells =>
      rw [otherAhead] at isGap
      exact (otherIsGap.not_all otherStarts otherSpells isGap).elim
  | lexeme ahead isGap starts spells start_eq behind_eq =>
    cases otherScans with
    | finish otherIsGap =>
      rw [ahead] at otherIsGap
      exact (isGap.not_all starts spells otherIsGap).elim
    | lexeme otherAhead otherIsGap otherStarts otherSpells otherStart_eq otherBehind_eq =>
      rcases isGap.cut_unique starts spells otherIsGap otherStarts otherSpells
        (ahead.symm.trans otherAhead) with ⟨rfl, rfl, rfl, rfl⟩
      subst start_eq behind_eq otherStart_eq otherBehind_eq
      exact ⟨rfl, rfl⟩

section

variable {lexer after : Lexer} {token : Token} (scans : lexer.Scans token after)
include scans

/-! ## What a token leaves as it was -/

theorem Scans.after_eq :
    after = { lexer with cursor := after.cursor, quoted := after.quoted } := by
  cases scans <;> rfl

theorem Scans.buffer : after.cursor.buffer = lexer.cursor.buffer := by
  cases scans with
  | finish => exact Cursor.skip_buffer _ _
  | lexeme _ _ _ _ start_eq behind_eq =>
    subst start_eq behind_eq
    simp

/-! ## Tokens at the end -/

theorem Scans.quoted : after.quoted = token.quoted := by
  cases scans <;> rfl

theorem Scans.isEnd_iff :
    token.isEnd = true ↔ Gap lexer.rules lexer.cursor.ahead [] := by
  cases scans with
  | finish isGap => exact ⟨fun _ => isGap, fun _ => rfl⟩
  | lexeme ahead isGap starts spells =>
    rw [ahead]
    constructor
    · intro isEnd
      simp only [Token.isEnd, Bool.and_eq_true, String.isEmpty_iff, Bool.not_eq_true'] at isEnd
      rw [spells.isQuoted_of_empty isEnd.1] at isEnd
      cases isEnd.2
    · exact fun all => (isGap.not_all starts spells all).elim

/-! ## Where a token leaves the cursor -/

theorem Scans.inBuffer (inBuffer : lexer.cursor.InBuffer) : after.cursor.InBuffer := by
  cases scans with
  | finish => exact inBuffer.skip _
  | lexeme ahead _ _ _ start_eq behind_eq =>
    exact (passes inBuffer ahead start_eq behind_eq).behind_inBuffer

theorem Scans.position_lt (inBuffer : lexer.cursor.InBuffer) (notEnd : token.isEnd = false) :
    lexer.cursor.position < after.cursor.position := by
  cases scans with
  | finish => cases notEnd
  | @lexeme _ _ lexeme _ _ _ ahead _ _ spells start_eq behind_eq =>
    have passes := passes inBuffer ahead start_eq behind_eq
    have start := passes.start_position
    have behind := passes.behind_position
    have nonempty : 0 < lexeme.length := spells.length_pos
    dsimp only
    omega

theorem Scans.position_le (inBuffer : lexer.cursor.InBuffer) :
    lexer.cursor.position ≤ after.cursor.position := by
  cases scans with
  | finish =>
    dsimp only
    rw [Cursor.skip_position inBuffer]
    exact Nat.le_add_right _ _
  | lexeme ahead _ _ _ start_eq behind_eq =>
    have passes := passes inBuffer ahead start_eq behind_eq
    have start := passes.start_position
    have behind := passes.behind_position
    dsimp only
    omega

theorem Scans.length_ahead_lt (notEnd : token.isEnd = false) :
    after.cursor.ahead.length < lexer.cursor.ahead.length := by
  cases scans with
  | finish => cases notEnd
  | @lexeme gap following lexeme _ _ _ ahead _ _ spells start_eq behind_eq =>
    have nonempty := spells.length_pos
    rw [behind_eq, skipLexeme_ahead, start_eq, Cursor.skip_ahead_eq ahead, ahead]
    simp only [Lexeme.length, List.drop_left, List.length_append]
    omega

end

/-! ## Settings -/

@[simp] theorem next_rules (lexer : Lexer) : lexer.next.lexer.rules = lexer.rules := by
  rw [lexer.scans_next.after_eq]

@[simp] theorem next_delimiters (lexer : Lexer) :
    lexer.next.lexer.delimiters = lexer.delimiters := by
  rw [lexer.scans_next.after_eq]

@[simp] theorem next_name (lexer : Lexer) : lexer.next.lexer.name = lexer.name := by
  rw [lexer.scans_next.after_eq]

/-! ## Reading at the end, and peeking -/

theorem next_of_ahead_nil {lexer : Lexer} (nothing : lexer.cursor.ahead = []) :
    lexer.next.token = .finish lexer.cursor.place ∧
      lexer.next.lexer = { lexer with quoted := false } := by
  have noGap : lexer.skipGap = lexer.cursor := by
    rw [skipGap, nothing, gapLength, Cursor.skip]
  have scan : lexer.scan = (.finish lexer.cursor.place, { lexer with quoted := false }) := by
    unfold Lexer.scan
    dsimp only
    rw [noGap]
    split
    · rfl
    · next ahead =>
      rw [nothing] at ahead
      cases ahead
  exact ⟨congrArg Prod.fst scan, congrArg Prod.snd scan⟩

/-- At the end there is nothing left to read, so reading again changes nothing. -/
theorem Scans.next_of_isEnd {lexer after : Lexer} {token : Token}
    (scans : lexer.Scans token after) (isEnd : token.isEnd = true) :
    after.cursor.ahead = [] ∧ after.quoted = false ∧ token.quoted = false ∧
      after.next.token = token ∧ after.next.lexer = after := by
  cases scans with
  | finish =>
    have nothing := lexer.cursor.skip_all_ahead
    exact ⟨nothing, rfl, rfl, next_of_ahead_nil nothing⟩
  | lexeme ahead isGap starts spells start_eq behind_eq =>
    have all := (Scans.isEnd_iff (.lexeme ahead isGap starts spells start_eq behind_eq)).mp isEnd
    rw [ahead] at all
    exact (isGap.not_all starts spells all).elim

theorem peek_eq (lexer : Lexer) : lexer.peek = (lexer.next.token.text, lexer) := by
  have scans := lexer.scans_next
  have cursor : lexer.next.lexer.cursor.restore lexer.cursor.mark = lexer.cursor :=
    Cursor.restore_eq scans.buffer
  change (lexer.next.token.text,
    { lexer.next.lexer with
      cursor := lexer.next.lexer.cursor.restore lexer.cursor.mark
      quoted := lexer.quoted }) = _
  rw [cursor, scans.after_eq]

end Lexer

end ScriptLexer
