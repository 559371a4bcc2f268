import ScriptLexer.Proofs.Lexer.Invariant

/-!
# Progress

Skipping a gap comes to an end, every token takes the lexer further, and a lexer that has come to the
end of its input stays there.
-/

namespace ScriptLexer

open Grammar

/-! ## Skipping a gap -/

namespace Cursor

/-- One turn of skipping a gap: over a blank byte or over a comment. -/
inductive GapTurn (rules : CommentRules) (before : Cursor) : Cursor → Prop
  | blank {byte : UInt8} (current : before.current = some byte)
      (blank : Byte.isBlank byte = true) : GapTurn rules before before.advance.2
  | comment {kind : CommentKind} (found : before.detect rules = some kind) :
      GapTurn rules before (before.skipComment kind)

inductive GapTurns (rules : CommentRules) : Nat → Cursor → Cursor → Prop
  | done {cursor : Cursor} : GapTurns rules 0 cursor cursor
  | turn {turns : Nat} {before between after : Cursor} (first : GapTurn rules before between)
      (later : GapTurns rules turns between after) : GapTurns rules (turns + 1) before after

theorem GapTurn.length_ahead_lt {rules : CommentRules} {before after : Cursor}
    (turn : GapTurn rules before after) : after.ahead.length < before.ahead.length := by
  cases turn with
  | blank current =>
    rcases List.head?_eq_some_iff.mp current with ⟨rest, ahead⟩
    rw [advance_ahead, ahead, List.tail_cons, List.length_cons]
    exact Nat.lt_succ_self _
  | @comment kind found =>
    rcases (detect_eq_some_iff.mp found).exists_cons with ⟨first, rest, ahead, -⟩
    have positive := kind.length_pos first rest
    rw [skipComment, skip_ahead, List.length_drop, ahead, List.length_cons]
    omega

/-- Every turn takes a byte at least. -/
theorem GapTurns.le_length_ahead {rules : CommentRules} {turns : Nat} {before after : Cursor}
    (run : GapTurns rules turns before after) : turns ≤ before.ahead.length := by
  induction run with
  | done => exact Nat.zero_le _
  | turn first _ induction =>
    have shorter := first.length_ahead_lt
    omega

theorem exists_gapTurns (rules : CommentRules) (cursor : Cursor) :
    ∃ turns, GapTurns rules turns cursor (cursor.skip (gapLength rules cursor.ahead)) := by
  generalize ahead : cursor.ahead = input
  -- Each call of `gapLength` measures one turn.
  fun_induction gapLength rules input generalizing cursor with
  | case1 => exact ⟨0, .done⟩
  | case2 byte rest blank induction =>
    rcases induction cursor.advance.2 (by rw [advance_ahead, ahead, List.tail_cons]) with
      ⟨turns, later⟩
    exact ⟨turns + 1, .turn (.blank (by rw [current, ahead, List.head?_cons]) blank) later⟩
  | case3 => exact ⟨0, .done⟩
  | case4 byte rest notBlank kind found comment induction =>
    have skipped : cursor.skipComment kind = cursor.skip comment := by rw [skipComment, ahead]
    rcases induction (cursor.skip comment) (by rw [skip_ahead, ahead]) with ⟨turns, later⟩
    rw [← skip_add] at later
    rw [← skipped] at later
    exact ⟨turns + 1, .turn (.comment (by rw [detect, ahead, found])) later⟩

/-- Where a lexeme starts or nothing is left there is no turn to make. -/
theorem not_gapTurn_skip (rules : CommentRules) (cursor after : Cursor) :
    ¬ GapTurn rules (cursor.skip (gapLength rules cursor.ahead)) after := by
  have behind := starts_drop_gapLength rules cursor.ahead
  rw [← skip_ahead] at behind
  intro turn
  cases turn with
  | blank current blank =>
    rcases List.head?_eq_some_iff.mp current with ⟨rest, ahead⟩
    rw [ahead] at behind
    rcases behind with nothing | starts
    · cases nothing
    · rcases starts.notBlank with ⟨_, _, equal, notBlank⟩
      cases equal
      exact notBlank (isBlank_iff.mp blank)
  | @comment kind found =>
    have opens := detect_eq_some_iff.mp found
    rcases behind with nothing | starts
    · rcases opens.exists_cons with ⟨first, rest, ahead, -⟩
      rw [nothing] at ahead
      cases ahead
    · exact starts.noComment kind opens

end Cursor

theorem Token.text_of_isEnd {token : Token} (isEnd : token.isEnd = true) : token.text = "" := by
  rw [Token.isEnd, Bool.and_eq_true] at isEnd
  exact String.isEmpty_iff.mp isEnd.1

namespace Lexer

/-! ## Reading on -/

theorem Reached.count_le_position {lexer : Lexer} {history : List Token}
    (reached : Reached lexer history) :
    (history.filter (!·.isEnd)).length ≤ lexer.cursor.position := by
  apply Reached.invariant (motive := fun lexer history =>
    (history.filter (!·.isEnd)).length ≤ lexer.cursor.position) _ _ _ _ reached
  · exact fun _ => Nat.le_refl 0
  · exact fun _ _ _ _ => Nat.le_refl 0
  · intro lexer history reached counted
    rw [List.filter_append, List.length_append]
    cases isEnd : lexer.next.token.isEnd with
    | true =>
      have further := lexer.scans_next.position_le reached.inBuffer
      simp [isEnd]
      omega
    | false =>
      have further := lexer.scans_next.position_lt reached.inBuffer isEnd
      simp [isEnd]
      omega
  · exact fun _ _ _ holds => holds

/-! ## At the end -/

/-- Nothing is left to read: every reading answers with the same token at the end. -/
structure Exhausted (lexer : Lexer) (finish : Token) : Prop where
  isEnd : finish.isEnd = true
  position_eq : lexer.cursor.position = lexer.size
  quoted_eq : lexer.quoted = false
  token_eq : lexer.next.token = finish
  lexer_eq : lexer.next.lexer = lexer

theorem Reached.exhausted {lexer : Lexer} {history : List Token}
    (reached : Reached lexer history) (isEnd : lexer.next.token.isEnd = true) :
    lexer.next.lexer.Exhausted lexer.next.token := by
  have scans := lexer.scans_next
  rcases scans.next_of_isEnd isEnd with ⟨nothing, quoted, -, token, same⟩
  have total := (scans.inBuffer reached.inBuffer).position_add_length
  rw [nothing, List.length_nil, Nat.add_zero] at total
  exact ⟨isEnd, total.trans (Cursor.size_eq _).symm, quoted, token, same⟩

section

variable {lexer : Lexer} {finish : Token} (exhausted : lexer.Exhausted finish)
include exhausted

theorem Exhausted.next_eq : lexer.next = { token := finish, events := [], lexer } := by
  have events : lexer.next.events = [] := by
    change lexer.echo lexer.next.token = []
    rw [echo, exhausted.token_eq, exhausted.isEnd, Bool.not_true, Bool.and_false]
    rfl
  rw [← exhausted.token_eq, ← events]
  exact congrArg (Reading.mk _ _) exhausted.lexer_eq

theorem Exhausted.consume_eq (answer : Token → Answer) :
    lexer.consume answer = { answer := answer finish, events := [], lexer } := by
  rw [consume, exhausted.next_eq]

theorem Exhausted.readings_succ (limit : Nat) :
    lexer.readings (limit + 1) = [{ token := finish, events := [], lexer }] := by
  rw [readings, exhausted.next_eq]
  exact if_pos exhausted.isEnd

theorem Exhausted.consumeAll_eq (limit : Nat) :
    lexer.consumeAll limit = { answer := .tokens [], events := [], lexer } := by
  rcases limit with _ | limit
  · rfl
  · simp [consumeAll, exhausted.readings_succ, exhausted.isEnd]

theorem Exhausted.run_of_reads {operation : Operation} (reads : operation.reads = true)
    (files : FileAccess) :
    (lexer.run files operation).lexer = lexer ∧ (lexer.run files operation).events = [] ∧
      ∀ token ∈ lexer.consumed operation, token = finish := by
  have one : ∀ token ∈ [lexer.next.token], token = finish := fun token member =>
    (List.mem_singleton.mp member).trans exhausted.token_eq
  cases operation with
  | load | peek | setDelimiters | setDebug => cases reads
  | tokens limit =>
    rw [run, exhausted.consumeAll_eq, consumed]
    refine ⟨rfl, rfl, ?_⟩
    rcases limit.getD lexer.remaining with _ | limit
    · simp [readings]
    · simp [exhausted.readings_succ]
  | _ =>
    rw [run, exhausted.consume_eq]
    exact ⟨rfl, rfl, one⟩

/-- Operations that read on do so as if each was the first. -/
theorem Exhausted.runAll_eq {script : List Operation}
    (reads : ∀ operation ∈ script, operation.reads = true) (files : FileAccess) :
    lexer.runAll files script = script.map (lexer.run files) := by
  induction script with
  | nil => rfl
  | cons operation later induction =>
    have same := (exhausted.run_of_reads (reads operation (List.mem_cons_self ..)) files).1
    rw [runAll, same, List.map_cons,
      induction fun operation member => reads operation (List.mem_cons_of_mem _ member)]

end

/-- Reading a token ends, and takes the lexer further until only a gap is left; behind that gap the
lexer stays as it is. -/
theorem reading_progresses {lexer : Lexer} {history : List Token}
    (reached : Reached lexer history) :
    (∃ turns ≤ lexer.cursor.ahead.length,
      Cursor.GapTurns lexer.rules turns lexer.cursor lexer.skipGap ∧
      ∀ after, ¬ Cursor.GapTurn lexer.rules lexer.skipGap after) ∧
    (lexer.next.token.isEnd = false →
      lexer.cursor.position < lexer.next.lexer.cursor.position) ∧
    (history.filter (!·.isEnd)).length ≤ lexer.size ∧
    (lexer.next.token.isEnd = true ↔ Gap lexer.rules lexer.cursor.ahead []) ∧
    (∀ gap lexeme text following, lexer.cursor.ahead = gap ++ (lexeme.bytes ++ following) →
      Gap lexer.rules gap (lexeme.bytes ++ following) →
      Starts lexer.rules (lexeme.bytes ++ following) →
      Spells lexer.delimiters lexeme text following → lexer.next.token.isEnd = false) ∧
    (lexer.next.token.isEnd = true →
      let after := lexer.next.lexer
      after.cursor.position = after.size ∧ after.quoted = false ∧
      (∀ files, (after.run files .next).answer = .token lexer.next.token ∧
        (after.run files .text).answer = .text "" ∧
        ∀ limit, (after.run files (.tokens limit)).answer = .tokens []) ∧
      ∀ files script, (∀ operation ∈ script, operation.reads = true) →
        after.runAll files script = script.map (after.run files) ∧
        ∀ operation ∈ script, (after.run files operation).lexer = after ∧
          ∀ token ∈ after.consumed operation, token = lexer.next.token) := by
  have isEnd_iff := lexer.scans_next.isEnd_iff
  refine ⟨?_, lexer.scans_next.position_lt reached.inBuffer, ?_, isEnd_iff, ?_, ?_⟩
  · rcases Cursor.exists_gapTurns lexer.rules lexer.cursor with ⟨turns, run⟩
    exact ⟨turns, run.le_length_ahead, run, Cursor.not_gapTurn_skip lexer.rules lexer.cursor⟩
  · exact Nat.le_trans reached.count_le_position reached.bounded.position_le
  · intro gap lexeme text following ahead isGap starts spells
    rw [ahead] at isEnd_iff
    exact Bool.eq_false_iff.mpr fun isEnd =>
      isGap.not_all starts spells (isEnd_iff.mp isEnd)
  · intro isEnd
    have exhausted := reached.exhausted isEnd
    refine ⟨exhausted.position_eq, exhausted.quoted_eq, fun files => ⟨?_, ?_, fun limit => ?_⟩,
      fun files script reads => ⟨exhausted.runAll_eq reads files, fun operation member => ?_⟩⟩
    · rw [run, exhausted.consume_eq]
    · rw [run, exhausted.consume_eq, Token.text_of_isEnd isEnd]
    · rw [run, exhausted.consumeAll_eq]
    · rcases exhausted.run_of_reads (reads operation member) files with ⟨same, -, tokens⟩
      exact ⟨same, tokens⟩

theorem reading_progresses_unclosed :
    let loaded := ({ rules := .standard } : Lexer).withInput "lump" (Utf8.encode "\"\" /*/")
    Reached loaded [] ∧ loaded.next.token.isEnd = false ∧
      loaded.cursor.position < loaded.next.lexer.cursor.position ∧
      loaded.next.lexer.next.token.isEnd = true ∧
      Gap .standard (Utf8.encode " /*/") [] := by
  intro loaded
  have reached : Reached loaded [] := (Reached.new .standard).withInput _ _
  have notEnd : loaded.next.token.isEnd = false := by decide +kernel
  have isEnd : loaded.next.lexer.next.token.isEnd = true := by decide +kernel
  rcases reading_progresses reached with ⟨-, further, -⟩
  rcases reading_progresses reached.next with ⟨-, -, -, isEnd_iff, -⟩
  have ahead : loaded.next.lexer.cursor.ahead = Utf8.encode " /*/" := by decide +kernel
  have rules : loaded.next.lexer.rules = .standard := next_rules loaded
  rw [ahead, rules] at isEnd_iff
  exact ⟨reached, notEnd, further notEnd, isEnd, isEnd_iff.mp isEnd⟩

end Lexer

end ScriptLexer
