import ScriptLexer.Proofs.Lexer.History

/-!
# The invariant of a lexer

How the bounds of the last token, the position and the size of the input stand to each other in every
lexer that operations can bring about. The end of the token goes along with the position, but for the
step that parks the cursor.
-/

namespace ScriptLexer

namespace Cursor

/-- Where the marks of the last token are. -/
structure Bounded (cursor : Cursor) : Prop where
  tokenStart_le : cursor.tokenStart ≤ cursor.tokenEnd
  tokenEnd_le : cursor.tokenEnd ≤ cursor.position
  position_le : cursor.position ≤ cursor.size
  line_pos : 1 ≤ cursor.line
  tokenEnd_eq : cursor.tokenEnd = cursor.position ∨
    cursor.position = cursor.size ∧ cursor.tokenEnd + 1 = cursor.size

theorem Bounded.inBuffer {cursor : Cursor} (bounded : cursor.Bounded) : cursor.InBuffer := by
  rw [InBuffer, ← cursor.size_eq]
  exact bounded.position_le

theorem bounded_ofBytes (buffer : Bytes) : (ofBytes buffer).Bounded where
  tokenStart_le := Nat.le_refl 0
  tokenEnd_le := Nat.le_refl 0
  position_le := Nat.zero_le _
  line_pos := Nat.le_refl 1
  tokenEnd_eq := .inl rfl

/-- Over a gap that runs to the end of the input. The step from the last byte leaves the end of the
token where it was, right before that byte. -/
theorem Bounded.skip_all {cursor : Cursor} (bounded : cursor.Bounded) :
    (cursor.skip cursor.ahead.length).Bounded := by
  have total := bounded.inBuffer.position_add_length
  have position := skip_all_position bounded.inBuffer
  have tokenEnd := cursor.skip_tokenEnd cursor.ahead.length
  have line := cursor.skip_line cursor.ahead.length
  have tokenStart := cursor.skip_tokenStart cursor.ahead.length
  have size := cursor.skip_size cursor.ahead.length
  have sizeEq := cursor.size_eq
  rw [List.length_take, List.length_dropLast] at tokenEnd
  rcases bounded with ⟨start, stop, within, first, place⟩
  constructor <;> omega

end Cursor

namespace Lexer

theorem Passes.bounded {cursor start behind : Cursor} {gap following : Bytes} {lexeme : Lexeme}
    (passes : Passes cursor gap lexeme following start behind) (line : 1 ≤ behind.line) :
    behind.Bounded := by
  have position := passes.behind_position
  have tokenStart := passes.tokenStart_eq
  have tokenEnd := passes.tokenEnd_eq
  have within := passes.behind_inBuffer
  rw [Cursor.InBuffer, ← behind.size_eq] at within
  constructor <;> omega

theorem Scans.bounded {lexer after : Lexer} {token : Token} (scans : lexer.Scans token after)
    (bounded : lexer.cursor.Bounded) : after.cursor.Bounded := by
  cases scans with
  | finish => exact bounded.skip_all
  | @lexeme gap _ lexeme _ start behind ahead _ _ _ start_eq behind_eq =>
    have passes := passes bounded.inBuffer ahead start_eq behind_eq
    have startLine := lexer.cursor.skip_line gap.length
    have behindLine := skipLexeme_line start lexeme
    have first := bounded.line_pos
    rw [← start_eq] at startLine
    rw [← behind_eq] at behindLine
    have line : 1 ≤ behind.line := by omega
    exact passes.bounded line

theorem Reached.bounded {lexer : Lexer} {history : List Token}
    (reached : Reached lexer history) : lexer.cursor.Bounded := by
  apply Reached.invariant (motive := fun lexer _ => lexer.cursor.Bounded) _ _ _ _ reached
  · exact fun _ => Cursor.bounded_ofBytes []
  · exact fun _ bytes _ _ => Cursor.bounded_ofBytes bytes
  · exact fun _ holds => (scans_next _).bounded holds
  · exact fun _ _ _ holds => holds

/-- The lexer remembers of its history whether the last token was quoted. -/
theorem Reached.quoted_eq {lexer : Lexer} {history : List Token}
    (reached : Reached lexer history) :
    lexer.quoted = (history.getLast?.map Token.quoted).getD false := by
  apply Reached.invariant (motive := fun lexer history =>
    lexer.quoted = (history.getLast?.map Token.quoted).getD false) _ _ _ _ reached
  · exact fun _ => rfl
  · exact fun _ _ _ _ => rfl
  · intro lexer history _ _
    simpa using lexer.scans_next.quoted
  · exact fun _ _ _ holds => holds

/-- Only a load that succeeds changes what there is to read and what it is called. -/
theorem run_input {lexer : Lexer} {files : FileAccess} {operation : Operation}
    (keeps : operation.loads files = false) :
    (lexer.run files operation).lexer.cursor.buffer = lexer.cursor.buffer ∧
      (lexer.run files operation).lexer.name = lexer.name := by
  apply run_preserves (motive := fun after _ =>
    after.cursor.buffer = lexer.cursor.buffer ∧ after.name = lexer.name) _ _ ⟨rfl, rfl⟩ keeps
  · intro after _ holds
    exact ⟨after.scans_next.buffer.trans holds.1, after.next_name.trans holds.2⟩
  · exact fun _ _ holds => holds
  · exact []

/-- The invariant of every lexer that operations can bring about. -/
theorem state_invariant {lexer : Lexer} {history : List Token} (reached : Reached lexer history) :
    lexer.cursor.Bounded ∧
      lexer.quoted = (history.getLast?.map Token.quoted).getD false ∧
      ∀ files operation, operation.loads files = false →
        (lexer.run files operation).lexer.cursor.buffer = lexer.cursor.buffer ∧
        (lexer.run files operation).lexer.size = lexer.size ∧
        (lexer.run files operation).lexer.name = lexer.name := by
  refine ⟨reached.bounded, reached.quoted_eq, fun files operation keeps => ?_⟩
  rcases run_input keeps with ⟨buffer, name⟩
  refine ⟨buffer, ?_, name⟩
  rw [size, size, Cursor.size_eq, Cursor.size_eq, buffer]

theorem state_invariant_parked :
    let loaded := ({ rules := .standard } : Lexer).withInput "lump" (Utf8.encode "\"a\" ")
    Reached loaded.next.lexer.next.lexer [loaded.next.token, loaded.next.lexer.next.token] ∧
      loaded.next.lexer.next.lexer.cursor.Bounded ∧ loaded.next.lexer.quoted = true := by
  intro loaded
  have reached : Reached loaded [] := (Reached.new .standard).withInput _ _
  have quoted : loaded.next.token.quoted = true := by decide +kernel
  exact ⟨reached.next.next, (state_invariant reached.next.next).1,
    (state_invariant reached.next).2.1.trans quoted⟩

end Lexer

end ScriptLexer
