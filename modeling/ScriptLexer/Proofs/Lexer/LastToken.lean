import ScriptLexer.Proofs.Lexer.Invariant

/-!
# The bounds of the last token

What a lexer tells of the token that it read last. The start of that token stays until another one is
read. Its end stays too, as long as the end of the input was not read: that reading takes the end of
the token along through the gap behind it, up to the last byte of the input.
-/

namespace ScriptLexer

namespace Lexer

/-- Where the last token of a history is, the ones at the end of the input left out. Without a token
it is the empty span at the start. -/
def lastSpan (history : List Token) : Span :=
  ((history.filter (!·.isEnd)).getLast?.map Token.span).getD {}

section

variable {token : Token} (history : List Token)

theorem lastSpan_append_finish (isEnd : token.isEnd = true) :
    lastSpan (history ++ [token]) = lastSpan history := by
  simp [lastSpan, List.filter_append, isEnd]

theorem lastSpan_append_token (notEnd : token.isEnd = false) :
    lastSpan (history ++ [token]) = token.span := by
  simp [lastSpan, List.filter_append, notEnd]

end

/-- How the marks of a cursor stand to the tokens that were read, before the end of the input was read
and after it. -/
structure Recalls (cursor : Cursor) (history : List Token) : Prop where
  tokenStart_eq : cursor.tokenStart = (lastSpan history).start.offset
  reading : history.any Token.isEnd = false →
    cursor.tokenEnd = (lastSpan history).stop.offset ∧
      cursor.position = (lastSpan history).stop.offset
  finished : history.any Token.isEnd = true →
    cursor.ahead = [] ∧ cursor.tokenEnd = max (lastSpan history).stop.offset (cursor.size - 1)

theorem recalls_ofBytes (buffer : Bytes) : Recalls (Cursor.ofBytes buffer) [] where
  tokenStart_eq := rfl
  reading _ := ⟨rfl, rfl⟩
  finished isEnd := by cases isEnd

theorem Recalls.tokenEnd_eq {cursor : Cursor} {history : List Token}
    (recalls : Recalls cursor history) :
    cursor.tokenEnd =
      if history.any Token.isEnd then max (lastSpan history).stop.offset (cursor.size - 1)
      else (lastSpan history).stop.offset := by
  cases anyEnd : history.any Token.isEnd with
  | false => exact (recalls.reading anyEnd).1
  | true => exact (recalls.finished anyEnd).2

/-- The gap at the end of the input is gone over once. All of it is counted but its last byte. -/
theorem Recalls.skip_all {cursor : Cursor} {history : List Token} (recalls : Recalls cursor history)
    (inBuffer : cursor.InBuffer) {finish : Token} (isEnd : finish.isEnd = true) :
    Recalls (cursor.skip cursor.ahead.length) (history ++ [finish]) := by
  have total := inBuffer.position_add_length
  have counted := cursor.skip_tokenEnd cursor.ahead.length
  have size := cursor.size_eq
  rw [List.length_take, List.length_dropLast] at counted
  have some : (history ++ [finish]).any Token.isEnd = true := by simp [isEnd]
  refine ⟨?_, fun none => ?_, fun _ => ⟨cursor.skip_all_ahead, ?_⟩⟩
  · rw [Cursor.skip_tokenStart, lastSpan_append_finish history isEnd]
    exact recalls.tokenStart_eq
  · rw [some] at none
    cases none
  · rw [lastSpan_append_finish history isEnd, Cursor.skip_size, counted]
    cases before : history.any Token.isEnd with
    | false =>
      rcases recalls.reading before with ⟨tokenEnd, position⟩
      omega
    | true =>
      rcases recalls.finished before with ⟨nothing, tokenEnd⟩
      rw [nothing, List.length_nil]
      omega

theorem Scans.recalls {lexer after : Lexer} {token : Token} (scans : lexer.Scans token after)
    {history : List Token} (inBuffer : lexer.cursor.InBuffer)
    (recalls : Recalls lexer.cursor history) :
    Recalls after.cursor (history ++ [token]) := by
  have isEnd := scans.isEnd_iff
  cases scans with
  | finish => exact recalls.skip_all inBuffer rfl
  | @lexeme gap following lexeme text start behind ahead isGap starts spells start_eq behind_eq =>
    have passes := passes inBuffer ahead start_eq behind_eq
    have notEnd := Bool.eq_false_iff.mpr fun finished =>
      isGap.not_all starts spells (ahead ▸ isEnd.mp finished)
    -- Behind the end of the input there would be no lexeme.
    have before : history.any Token.isEnd = false := by
      cases anyEnd : history.any Token.isEnd with
      | false => rfl
      | true =>
        have nothing := (recalls.finished anyEnd).1
        have positive := spells.length_pos
        rw [ahead, List.append_eq_nil_iff, List.append_eq_nil_iff] at nothing
        rw [nothing.2.1] at positive
        cases positive
    refine ⟨?_, fun _ => ?_, fun some => ?_⟩
    · rw [lastSpan_append_token history notEnd]
      exact passes.tokenStart_eq
    · rw [lastSpan_append_token history notEnd]
      exact ⟨rfl, passes.tokenEnd_eq.symm⟩
    · rw [List.any_append, before, List.any_cons, notEnd] at some
      cases some

theorem Reached.recalls {lexer : Lexer} {history : List Token} (reached : Reached lexer history) :
    Recalls lexer.cursor history := by
  apply Reached.invariant (motive := fun lexer history => Recalls lexer.cursor history)
    _ _ _ _ reached
  · exact fun _ => recalls_ofBytes []
  · exact fun _ bytes _ _ => recalls_ofBytes bytes
  · exact fun reached recalls => (scans_next _).recalls reached.inBuffer recalls
  · exact fun _ _ _ recalls => recalls

/-- The bounds that a lexer tells are those of the last token, whatever was done since; but once the
end of the input was read, the token ends right before the last byte, or where it did if that is
later. So they are those of the token then as well where no more than a byte follows it. -/
theorem last_token_recalled {lexer : Lexer} {history : List Token}
    (reached : Reached lexer history) :
    lexer.cursor.tokenStart = (lastSpan history).start.offset ∧
      lexer.cursor.tokenEnd =
        (if history.any Token.isEnd then max (lastSpan history).stop.offset (lexer.size - 1)
        else (lastSpan history).stop.offset) ∧
      (lexer.cursor.tokenEnd = (lastSpan history).stop.offset ↔
        history.any Token.isEnd = false ∨ lexer.size ≤ (lastSpan history).stop.offset + 1) := by
  have recalls := reached.recalls
  have tokenEnd := recalls.tokenEnd_eq
  rw [← size] at tokenEnd
  refine ⟨recalls.tokenStart_eq, tokenEnd, ?_⟩
  rw [tokenEnd]
  cases history.any Token.isEnd with
  | false => simp
  | true =>
    simp only [if_true, Bool.true_eq_false, false_or]
    omega

theorem last_token_recalled_newline :
    let loaded := ({ rules := .standard } : Lexer).withInput "lump" (Utf8.encode "a b\n")
    let read := loaded.next.lexer.next
    Reached read.lexer.next.lexer [loaded.next.token, read.token, read.lexer.next.token] ∧
      read.lexer.next.token.isEnd = true ∧
      read.lexer.next.lexer.cursor.tokenStart = 2 ∧ read.lexer.next.lexer.cursor.tokenEnd = 3 := by
  intro loaded read
  have reached : Reached read.lexer.next.lexer
      [loaded.next.token, read.token, read.lexer.next.token] :=
    (((Reached.new .standard).withInput "lump" _).next.next.next)
  rcases last_token_recalled reached with ⟨tokenStart, -, tokenEnd⟩
  have span : lastSpan [loaded.next.token, read.token, read.lexer.next.token] =
      { start := { offset := 2 }, stop := { offset := 3 } } := by decide +kernel
  rw [span] at tokenStart tokenEnd
  have size : read.lexer.next.lexer.size ≤ 3 + 1 := by decide +kernel
  exact ⟨reached, by decide +kernel, tokenStart, tokenEnd.mpr (.inr size)⟩

/-- Two blanks behind a token are enough for its end to be lost when the end of the input is read. -/
theorem tokenEnd_leaves_token :
    let loaded := ({ rules := .standard } : Lexer).withInput "lump" (Utf8.encode "a  ")
    let history := [loaded.next.token, loaded.next.lexer.next.token]
    Reached loaded.next.lexer.next.lexer history ∧ (lastSpan history).stop.offset = 1 ∧
      loaded.next.lexer.next.lexer.cursor.tokenEnd = 2 := by
  intro loaded history
  have reached : Reached loaded.next.lexer.next.lexer history :=
    ((Reached.new .standard).withInput "lump" _).next.next
  exact ⟨reached, by decide +kernel, by decide +kernel⟩

end Lexer

end ScriptLexer
