import ScriptLexer.Proofs.Cursor.Lines
import ScriptLexer.Proofs.Lexer.History

/-!
# The lines of tokens

A token starts and stops on the line that the newlines before its offsets tell. One kind of token
stops a line early: a literal without its closing quote that holds the last newline of the input,
since the cursor does not count the last byte.
-/

namespace ScriptLexer

open Grammar

/-- A literal that the input ends in: no quote follows the one that it begins with. -/
def Token.OpenLiteral (token : Token) (buffer : Bytes) : Prop :=
  token.quoted = true ∧ ∃ inner, buffer.drop token.span.start.offset = Byte.quote :: inner ∧
    Byte.quote ∉ inner

structure Token.LinesCounted (token : Token) (buffer : Bytes) : Prop where
  start_eq : token.span.start.line =
    1 + (buffer.take token.span.start.offset).count Byte.newline
  stop_eq : ¬ (token.OpenLiteral buffer ∧ buffer.getLast? = some Byte.newline) →
    token.span.stop.line = 1 + (buffer.take token.span.stop.offset).count Byte.newline
  stop_early : token.OpenLiteral buffer ∧ buffer.getLast? = some Byte.newline →
    token.span.stop.line + 1 = 1 + (buffer.take token.span.stop.offset).count Byte.newline

/-- Behind a buffer that ends in a newline a line is missing. -/
theorem Counted.line_add {buffer : Bytes} {position line : Nat}
    (counted : Counted buffer position line) :
    line + (if position = buffer.length ∧ buffer.getLast? = some Byte.newline then 1 else 0) =
      1 + (buffer.take position).count Byte.newline := by
  have within := counted.within
  rw [counted.line_eq]
  by_cases behind : position = buffer.length
  · subst behind
    rw [List.take_length, Nat.min_eq_right (Nat.sub_le _ _), ← List.dropLast_eq_take]
    rcases List.eq_nil_or_concat buffer with rfl | ⟨initial, last, rfl⟩
    · rfl
    · by_cases newline : last = Byte.newline <;> simp [newline, List.count_append]
      omega
  · have before : min position (buffer.length - 1) = position := by omega
    rw [before, if_neg fun both => behind both.1]
    rfl

/-- The last byte of a lexeme is no newline, but where a literal has no closing quote. -/
theorem Grammar.Spells.unclosed_of_newline {rules : CommentRules} {delimiters : Delimiters}
    {lexeme : Lexeme} {text : String} {following : Bytes}
    (spells : Spells delimiters lexeme text following)
    (starts : Starts rules (lexeme.bytes ++ following))
    (last : lexeme.bytes.getLast? = some Byte.newline) :
    ∃ inner, lexeme = .quoted inner false ∧ Byte.quote ∉ inner := by
  have newline : Blank Byte.newline := by decide
  cases spells with
  | delimiter =>
    rcases starts.notBlank with ⟨_, _, equal, notBlank⟩
    cases equal
    cases last
    exact (notBlank newline).elim
  | closed =>
    rw [Lexeme.bytes, if_pos rfl, List.getLast?_concat] at last
    cases last
  | unclosed _ inside => exact ⟨_, rfl, inside⟩
  | word _ inside => exact ((inside _ (List.mem_of_getLast? last)).1 newline).elim

/-- In a buffer that ends in a newline a lexeme stops at the end if it is an open literal. -/
theorem Grammar.Spells.stop_eq_iff {rules : CommentRules} {delimiters : Delimiters}
    {lexeme : Lexeme} {text : String} {buffer following : Bytes} {start : Nat}
    (spells : Spells delimiters lexeme text following)
    (starts : Starts rules (lexeme.bytes ++ following))
    (input : buffer.drop start = lexeme.bytes ++ following)
    (last : buffer.getLast? = some Byte.newline) :
    start + lexeme.length = buffer.length ↔ lexeme.isQuoted = true ∧
      ∃ inner, buffer.drop start = Byte.quote :: inner ∧ Byte.quote ∉ inner := by
  have lengths := congrArg List.length input
  have positive := spells.length_pos
  rw [List.length_drop, List.length_append] at lengths
  constructor
  · intro atEnd
    rw [Lexeme.length] at atEnd
    -- The lexeme is all that is left, so the last newline is its own last byte.
    have nothing : following = [] := List.eq_nil_of_length_eq_zero (by omega)
    have sameLast : (buffer.drop start).getLast? = some Byte.newline := by
      rw [List.getLast?_drop, if_neg (by omega), last]
    rw [input, nothing, List.append_nil] at sameLast
    rcases spells.unclosed_of_newline starts sameLast with ⟨inner, rfl, inside⟩
    refine ⟨rfl, inner, ?_, inside⟩
    rw [input, nothing]
    simp [Lexeme.bytes]
  · rintro ⟨isQuoted, inner, begins, noQuote⟩
    rw [input] at begins
    cases spells with
    | delimiter => cases isQuoted
    | word => cases isQuoted
    | closed =>
      cases begins
      simp at noQuote
    | unclosed =>
      rw [List.length_nil] at lengths
      rw [Lexeme.length]
      omega

namespace Lexer

theorem Scans.walk {lexer after : Lexer} {token : Token} (scans : lexer.Scans token after)
    {buffer : Bytes} {marks : List Cursor.Mark}
    (walk : Cursor.Walk buffer lexer.cursor marks) : Cursor.Walk buffer after.cursor marks := by
  cases scans with
  | finish => exact walk.skip _
  | lexeme _ _ _ _ start_eq behind_eq =>
    subst start_eq behind_eq
    exact ((walk.skip _).beginToken.skip _).endToken _

/-- All that operations do with a cursor is a walk. -/
theorem Reached.walk {lexer : Lexer} {history : List Token} (reached : Reached lexer history) :
    ∃ marks, Cursor.Walk lexer.cursor.buffer lexer.cursor marks := by
  apply Reached.invariant (motive := fun lexer _ =>
    ∃ marks, Cursor.Walk lexer.cursor.buffer lexer.cursor marks) _ _ _ _ reached
  · exact fun _ => ⟨[], .start⟩
  · exact fun _ _ _ _ => ⟨[], .start⟩
  · intro lexer _ _ ⟨marks, walk⟩
    rw [lexer.scans_next.buffer]
    exact ⟨marks, lexer.scans_next.walk walk⟩
  · exact fun _ _ _ holds => holds

theorem Reached.counted {lexer : Lexer} {history : List Token} (reached : Reached lexer history) :
    Counted lexer.cursor.buffer lexer.cursor.position lexer.cursor.line := by
  rcases reached.walk with ⟨_, walk⟩
  exact walk.counted.2.1

theorem counted_skipLexeme {cursor : Cursor}
    (counted : Counted cursor.buffer cursor.position cursor.line) (lexeme : Lexeme) :
    Counted cursor.buffer (skipLexeme cursor lexeme).position (skipLexeme cursor lexeme).line := by
  have begun : Counted cursor.beginToken.buffer cursor.beginToken.position
      cursor.beginToken.line := counted
  exact Cursor.counted_skip begun lexeme.length

theorem Scans.linesCounted {lexer after : Lexer} {token : Token}
    (scans : lexer.Scans token after)
    (counted : Counted lexer.cursor.buffer lexer.cursor.position lexer.cursor.line)
    (notEnd : token.isEnd = false) : token.LinesCounted lexer.cursor.buffer := by
  cases scans with
  | finish => cases notEnd
  | @lexeme gap following lexeme text start behind ahead isGap starts spells start_eq behind_eq =>
    have passes := passes counted.within ahead start_eq behind_eq
    have buffer : start.buffer = lexer.cursor.buffer := by rw [start_eq, Cursor.skip_buffer]
    have startCounted := Cursor.counted_skip counted gap.length
    rw [← start_eq, ← buffer] at startCounted
    have behindCounted := counted_skipLexeme startCounted lexeme
    rw [← behind_eq] at behindCounted
    have input : start.buffer.drop start.position = lexeme.bytes ++ following := by
      rw [← start.ahead_eq, passes.start_ahead]
    have positive := spells.length_pos
    have lengths := congrArg List.length input
    rw [List.length_drop, List.length_append] at lengths
    have startLine := startCounted.line_add
    have stopLine := behindCounted.line_add
    have stop := spells.stop_eq_iff starts input
    rw [← passes.behind_position, ← passes.tokenEnd_eq] at stop
    rw [if_neg (by omega)] at startLine
    rw [← passes.tokenEnd_eq] at stopLine
    rw [← buffer]
    refine ⟨startLine, fun notOpen => ?_, fun isOpen => ?_⟩
    · rw [if_neg fun both => notOpen ⟨(stop both.2).mp both.1, both.2⟩] at stopLine
      exact stopLine
    · rw [if_pos ⟨(stop isOpen.2).mpr isOpen.1, isOpen.2⟩] at stopLine
      exact stopLine

theorem Reached.linesCounted {lexer : Lexer} {history : List Token}
    (reached : Reached lexer history) :
    ∀ token ∈ history, token.isEnd = false → token.LinesCounted lexer.cursor.buffer := by
  apply Reached.invariant (motive := fun lexer history =>
    ∀ token ∈ history, token.isEnd = false → token.LinesCounted lexer.cursor.buffer)
    _ _ _ _ reached
  · exact fun _ _ member => by cases member
  · exact fun _ _ _ _ _ member => by cases member
  · intro lexer history reached lines token member notEnd
    rw [lexer.scans_next.buffer]
    rcases List.mem_append.mp member with earlier | last
    · exact lines token earlier notEnd
    · cases List.mem_singleton.mp last
      exact lexer.scans_next.linesCounted reached.counted notEnd
  · exact fun _ _ _ holds => holds

/-- The line of a cursor, however it is moved, and the lines of all tokens are those that the newlines
before their offsets tell, where the last byte of the buffer is not counted. -/
theorem lines_counted :
    (∀ buffer cursor marks, Cursor.Walk buffer cursor marks →
      cursor.line =
        1 + (buffer.take (min cursor.position (buffer.length - 1))).count Byte.newline) ∧
    ∀ lexer history, Reached lexer history →
      lexer.cursor.line = 1 + (lexer.cursor.buffer.take
        (min lexer.cursor.position (lexer.cursor.buffer.length - 1))).count Byte.newline ∧
      ∀ token ∈ history, token.isEnd = false → token.LinesCounted lexer.cursor.buffer :=
  ⟨fun _ _ _ walk => walk.counted.2.1.line_eq,
    fun _ _ reached => ⟨reached.counted.line_eq, reached.linesCounted⟩⟩

theorem lines_counted_unclosed :
    let buffer := [Byte.newline, Byte.quote, Byte.newline]
    let cursor := (Cursor.ofBytes buffer).advance.2
    let loaded := ({ rules := .standard } : Lexer).withInput "lump" buffer
    (Cursor.Walk buffer (cursor.advance.2.restore cursor.mark) [cursor.mark] ∧ cursor.line = 2) ∧
      Reached loaded.next.lexer [loaded.next.token] ∧ loaded.next.token.isEnd = false ∧
      loaded.next.token.LinesCounted buffer := by
  intro buffer cursor loaded
  have walk : Cursor.Walk buffer (cursor.advance.2.restore cursor.mark) [cursor.mark] :=
    Cursor.Walk.start.advance.mark.advance.restore (List.mem_singleton_self _)
  have reached : Reached loaded.next.lexer [loaded.next.token] :=
    ((Reached.new .standard).withInput "lump" buffer).next
  have notEnd : loaded.next.token.isEnd = false := by decide +kernel
  have same : loaded.next.lexer.cursor.buffer = buffer := by decide +kernel
  have lines := (lines_counted.2 _ _ reached).2 _ (List.mem_singleton_self _) notEnd
  rw [same] at lines
  exact ⟨⟨walk, lines_counted.1 _ _ _ walk⟩, reached, notEnd, lines⟩

end Lexer

end ScriptLexer
