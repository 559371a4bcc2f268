import ScriptLexer.Lexer.Operation
import ScriptLexer.Proofs.Lexer.Scan

/-!
# The tokens of an input

Reading token after token up to the end gives the lexemes that the grammar finds in the input, in
their order, with their texts and places. After them every reading gives the same token at the end.
-/

namespace ScriptLexer

open Grammar

/-- A token without its lines. -/
def Token.piece (token : Token) : Piece where
  text := token.text
  quoted := token.quoted
  start := token.span.start.offset
  stop := token.span.stop.offset

namespace Lexer

/-! ## Readings up to the end -/

/-- The tokens from the cursor up to the end of the input. -/
def tokensAhead (lexer : Lexer) : List Token :=
  ((lexer.readings lexer.remaining).map Reading.token).filter (!·.isEnd)

theorem remaining_next_lt {lexer : Lexer} (notEnd : lexer.next.token.isEnd = false) :
    lexer.next.lexer.remaining < lexer.remaining :=
  Nat.succ_lt_succ (lexer.scans_next.length_ahead_lt notEnd)

/-- What holds at the end of the input, and before a token if it holds behind it, holds. -/
theorem tokens_induction {motive : Lexer → Prop}
    (finish : ∀ lexer : Lexer, lexer.next.token.isEnd = true → motive lexer)
    (token : ∀ lexer : Lexer, lexer.next.token.isEnd = false → motive lexer.next.lexer →
      motive lexer)
    (lexer : Lexer) : motive lexer := by
  induction size : lexer.remaining using Nat.strongRecOn generalizing lexer with
  | ind size induction =>
    cases isEnd : lexer.next.token.isEnd with
    | true => exact finish lexer isEnd
    | false =>
      have shorter := remaining_next_lt isEnd
      exact token lexer isEnd (induction _ (size ▸ shorter) _ rfl)

/-- More readings than it takes to reach the end are not made. -/
theorem readings_eq {lexer : Lexer} {limit other : Nat} (enough : lexer.remaining ≤ limit)
    (otherEnough : lexer.remaining ≤ other) : lexer.readings limit = lexer.readings other := by
  induction limit generalizing lexer other with
  | zero => exact absurd enough (Nat.not_succ_le_zero _)
  | succ limit induction =>
    rcases other with _ | other
    · exact absurd otherEnough (Nat.not_succ_le_zero _)
    · rw [readings, readings]
      cases isEnd : lexer.next.token.isEnd with
      | true => rfl
      | false =>
        have shorter := remaining_next_lt isEnd
        have later : lexer.next.lexer.readings limit = lexer.next.lexer.readings other :=
          induction (by omega) (by omega)
        rw [later]

theorem tokensAhead_of_isEnd {lexer : Lexer} (isEnd : lexer.next.token.isEnd = true) :
    lexer.tokensAhead = [] := by
  simp [tokensAhead, remaining, readings, isEnd]

theorem tokensAhead_of_ahead_nil {lexer : Lexer} (nothing : lexer.cursor.ahead = []) :
    lexer.tokensAhead = [] := by
  apply tokensAhead_of_isEnd
  rw [(next_of_ahead_nil nothing).1]
  rfl

theorem tokensAhead_of_token {lexer : Lexer} (notEnd : lexer.next.token.isEnd = false) :
    lexer.tokensAhead = lexer.next.token :: lexer.next.lexer.tokensAhead := by
  have shorter := remaining_next_lt notEnd
  have later : lexer.next.lexer.readings lexer.cursor.ahead.length =
      lexer.next.lexer.readings lexer.next.lexer.remaining :=
    readings_eq (Nat.le_of_lt_succ shorter) (Nat.le_refl _)
  rw [tokensAhead, remaining, readings]
  simp [notEnd, later, tokensAhead]

theorem not_isEnd_of_mem_tokensAhead {lexer : Lexer} {token : Token}
    (member : token ∈ lexer.tokensAhead) : token.isEnd = false := by
  simpa using (List.mem_filter.mp member).2

/-- Lexers that keep step with each other find tokens that are seen alike, and the other one finds
`rest` where the first one is at its end. -/
theorem tokensAhead_of_related {α : Type _} {related : Lexer → Lexer → Prop}
    {view otherView : Token → α} {rest : List α}
    (finish : ∀ {lexer other : Lexer}, related lexer other → lexer.next.token.isEnd = true →
      other.tokensAhead.map otherView = rest)
    (token : ∀ {lexer other : Lexer}, related lexer other → lexer.next.token.isEnd = false →
      other.next.token.isEnd = false ∧ otherView other.next.token = view lexer.next.token ∧
        related lexer.next.lexer other.next.lexer)
    {lexer other : Lexer} (holds : related lexer other) :
    other.tokensAhead.map otherView = lexer.tokensAhead.map view ++ rest := by
  induction lexer using tokens_induction generalizing other with
  | finish lexer isEnd =>
    rw [tokensAhead_of_isEnd isEnd]
    exact finish holds isEnd
  | token lexer notEnd induction =>
    rcases token holds notEnd with ⟨otherNotEnd, same, behind⟩
    rw [tokensAhead_of_token notEnd, tokensAhead_of_token otherNotEnd, List.map_cons,
      List.map_cons, same, induction behind, List.cons_append]

/-! ## Readings without an end -/

theorem runAll_next_succ (lexer : Lexer) (files : FileAccess) (count : Nat) :
    (lexer.runAll files (List.replicate (count + 1) .next)).map Outcome.answer =
      .token lexer.next.token ::
        (lexer.next.lexer.runAll files (List.replicate count .next)).map Outcome.answer :=
  rfl

theorem runAll_next_of_isEnd {lexer : Lexer} (isEnd : lexer.next.token.isEnd = true)
    (files : FileAccess) (count : Nat) :
    (lexer.runAll files (List.replicate count .next)).map Outcome.answer =
      List.replicate count (.token lexer.next.token) := by
  rcases lexer.scans_next.next_of_isEnd isEnd with ⟨-, -, -, sameToken, sameLexer⟩
  have again : ∀ count, (lexer.next.lexer.runAll files (List.replicate count .next)).map
      Outcome.answer = List.replicate count (.token lexer.next.token) := by
    intro count
    induction count with
    | zero => rfl
    | succ count induction =>
      rw [runAll_next_succ, sameToken, sameLexer, induction, List.replicate_succ]
  rcases count with _ | count
  · rfl
  · rw [runAll_next_succ, again, List.replicate_succ]

/-- Calls of `next` answer with the tokens ahead and then with one token at the end. -/
theorem runAll_next (lexer : Lexer) (files : FileAccess) :
    ∃ finish : Token, finish.isEnd = true ∧ ∀ count,
      (lexer.runAll files (List.replicate count .next)).map Outcome.answer =
        (lexer.tokensAhead.take count ++
          List.replicate (count - lexer.tokensAhead.length) finish).map Answer.token := by
  induction lexer using tokens_induction with
  | finish lexer isEnd =>
    refine ⟨lexer.next.token, isEnd, fun count => ?_⟩
    rw [runAll_next_of_isEnd isEnd, tokensAhead_of_isEnd isEnd]
    simp
  | token lexer notEnd induction =>
    rcases induction with ⟨finish, isEnd, later⟩
    refine ⟨finish, isEnd, fun count => ?_⟩
    rw [tokensAhead_of_token notEnd]
    rcases count with _ | count
    · simp [runAll]
    · rw [runAll_next_succ, later]
      simp

/-! ## The tokens and the grammar -/

/-- A token is a piece of the grammar, and the cursor behind it is at its stop. -/
theorem Scans.piece_eq {lexer after : Lexer} {token : Token} (scans : lexer.Scans token after)
    (inBuffer : lexer.cursor.InBuffer) (notEnd : token.isEnd = false) :
    ∃ gap following lexeme text,
      lexer.cursor.ahead = gap ++ (lexeme.bytes ++ following) ∧
      Gap lexer.rules gap (lexeme.bytes ++ following) ∧
      Starts lexer.rules (lexeme.bytes ++ following) ∧
      Spells lexer.delimiters lexeme text following ∧
      token.piece = ⟨text, lexeme.isQuoted, lexer.cursor.position + gap.length,
        lexer.cursor.position + gap.length + lexeme.length⟩ ∧
      after.cursor.ahead = following ∧
      after.cursor.position = lexer.cursor.position + gap.length + lexeme.length := by
  cases scans with
  | finish => cases notEnd
  | @lexeme gap following lexeme text start behind ahead isGap starts spells start_eq behind_eq =>
    have passes := passes inBuffer ahead start_eq behind_eq
    refine ⟨gap, following, lexeme, text, ahead, isGap, starts, spells, ?_, passes.behind_ahead, ?_⟩
    · rw [Token.piece, ← passes.start_position, ← passes.behind_position, ← passes.tokenEnd_eq]
      rfl
    · rw [← passes.start_position]
      exact passes.behind_position

theorem pieces_iff (lexer : Lexer) (inBuffer : lexer.cursor.InBuffer) (pieces : List Piece) :
    Pieces lexer.rules lexer.delimiters lexer.cursor.position lexer.cursor.ahead pieces ↔
      pieces = lexer.tokensAhead.map Token.piece := by
  -- Along the tokens and not along the pieces: either direction needs the piece of the next token.
  induction lexer using tokens_induction generalizing pieces with
  | finish lexer isEnd =>
    have isGap := lexer.scans_next.isEnd_iff.mp isEnd
    rw [tokensAhead_of_isEnd isEnd]
    constructor
    · exact fun holds => holds.eq_nil isGap
    · rintro rfl
      exact .finish isGap
  | token lexer notEnd induction =>
    have induction := induction (lexer.scans_next.inBuffer inBuffer)
    rcases lexer.scans_next.piece_eq inBuffer notEnd with
      ⟨gap, following, lexeme, text, ahead, isGap, starts, spells, piece, behind, position⟩
    rw [next_rules, next_delimiters, behind, position] at induction
    rw [tokensAhead_of_token notEnd, List.map_cons, piece, ahead]
    constructor
    · intro holds
      rcases holds.exists_cons isGap starts spells with ⟨later, rfl, laterHolds⟩
      rw [(induction later).mp laterHolds]
    · rintro rfl
      exact .lexeme isGap starts spells ((induction _).mpr rfl)

/-- A lexer that was just loaded reads what the grammar finds in the bytes, all at once or token by
token. -/
theorem tokens_follow_grammar (lexer : Lexer) (files : FileAccess) (source : Source)
    (name : String) (bytes : Bytes) (loads : source.read files name = .ok bytes) :
    let loaded := (lexer.run files (.load source name)).lexer
    ∃ (tokens : List Token) (finish : Token),
      (∀ token ∈ tokens, token.isEnd = false) ∧ finish.isEnd = true ∧
      (loaded.run files (.tokens none)).answer = .tokens tokens ∧
      (∀ count, (loaded.runAll files (List.replicate count .next)).map Outcome.answer =
        (tokens.take count ++ List.replicate (count - tokens.length) finish).map Answer.token) ∧
      ∀ pieces, Pieces lexer.rules lexer.delimiters 0 bytes pieces ↔
        pieces = tokens.map Token.piece := by
  intro loaded
  have loaded_eq : loaded = lexer.withInput name bytes := by
    simp only [loaded, run, load, loads]
  rcases loaded.runAll_next files with ⟨finish, isEnd, answers⟩
  refine ⟨loaded.tokensAhead, finish, fun _ => not_isEnd_of_mem_tokensAhead, isEnd, rfl,
    answers, fun pieces => ?_⟩
  rw [loaded_eq]
  exact (lexer.withInput name bytes).pieces_iff (Cursor.inBuffer_ofBytes bytes) pieces

theorem tokens_follow_grammar_unclosed :
    let bytes := Utf8.encode "a//x\n=\"b"
    Source.read (.owned bytes) (fun _ => .ok []) "lump" = .ok bytes ∧
      Pieces .standard .standard 0 bytes
        [⟨"a", false, 0, 1⟩, ⟨"=", false, 5, 6⟩, ⟨"b", true, 6, 8⟩] := by
  intro bytes
  have loads : Source.read (.owned bytes) (fun _ => .ok []) "lump" = .ok bytes := rfl
  rcases tokens_follow_grammar { rules := .standard } _ _ _ bytes loads with
    ⟨tokens, finish, -, -, answer, -, pieces_iff⟩
  cases answer
  refine ⟨loads, (pieces_iff _).mpr ?_⟩
  decide +kernel

end Lexer

end ScriptLexer
