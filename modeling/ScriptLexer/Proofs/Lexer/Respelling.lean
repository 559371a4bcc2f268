import ScriptLexer.Proofs.Lexer.Tokens
import ScriptLexer.Proofs.Respelling.Gaps
import ScriptLexer.Proofs.Respelling.Lexemes

/-!
# Tokens of an input that is spelled anew

An input and the same input spelled anew have the same tokens on the same lines. Their texts differ as
the two spellings of a lexeme do, and their offsets have nothing to do with each other.
-/

namespace ScriptLexer

open Grammar

/-- A token without its offsets. -/
structure Snippet where
  text : String
  quoted : Bool
  startLine : Nat
  stopLine : Nat
deriving DecidableEq

def Token.snippet (token : Token) : Snippet where
  text := token.text
  quoted := token.quoted
  startLine := token.span.start.line
  stopLine := token.span.stop.line

/-- The same, with a text that is made of the one it has and of whether it is quoted. -/
def Token.changed (text : Bool → String → String) (token : Token) : Snippet :=
  { token.snippet with text := text token.quoted token.text }

namespace Cursor

/-- What is ahead of `other` is what is ahead of `cursor`, spelled anew. -/
structure Respelled (spelling : Spelling) (cursor other : Cursor) : Prop where
  ahead : Grammar.Respelled spelling cursor.ahead other.ahead
  line_eq : other.line = cursor.line

/-- What is left tells how many lines were left behind. -/
theorem Respelled.skip {spelling : Spelling} {cursor other : Cursor}
    (respelled : Respelled spelling cursor other) {count otherCount : Nat}
    (behind : Grammar.Respelled spelling (cursor.ahead.drop count)
      (other.ahead.drop otherCount)) :
    Respelled spelling (cursor.skip count) (other.skip otherCount) := by
  have lines := cursor.skip_line_add count
  have otherLines := other.skip_line_add otherCount
  rw [skip_ahead] at lines otherLines
  rw [behind.count_newline, respelled.ahead.count_newline, respelled.line_eq] at otherLines
  refine ⟨?_, by omega⟩
  rw [skip_ahead, skip_ahead]
  exact behind

end Cursor

namespace Lexer

/-! ## What lexemes hold -/

/-- What becomes of the texts of lexemes that are spelled anew. -/
def Changes (spelling : Spelling) (text : Bool → String → String) : Prop :=
  ∀ (quoted : Bool) (content changed : Bytes), Grammar.Respelled spelling content changed →
    (quoted = false → ∀ byte ∈ content, ¬ Blank byte) →
    Utf8.decode changed = text quoted (Utf8.decode content)

theorem not_blank_of_unquoted {delimiters : Delimiters} {first : UInt8}
    (notBlank : ¬ Blank first) (rest : Bytes)
    (unquoted : (Lexeme.read delimiters first rest).isQuoted = false) :
    ∀ byte ∈ (Lexeme.read delimiters first rest).content, ¬ Blank byte := by
  rcases spells_read delimiters notBlank rest with ⟨following, parts, spells⟩
  generalize Lexeme.read delimiters first rest = lexeme at *
  generalize lexeme.text = text at spells
  cases spells with
  | delimiter =>
    cases parts
    simpa [Lexeme.content] using notBlank
  | closed => cases unquoted
  | unclosed => cases unquoted
  | word _ inside => exact fun byte member => (inside byte member).1

/-! ## Behind the gap -/

@[simp] theorem skipGap_ahead (lexer : Lexer) :
    lexer.skipGap.ahead = lexer.cursor.ahead.drop (gapLength lexer.rules lexer.cursor.ahead) :=
  Cursor.skip_ahead _ _

theorem isEnd_iff_skipGap {lexer : Lexer} :
    lexer.next.token.isEnd = true ↔ lexer.skipGap.ahead = [] := by
  have within := gapLength_le lexer.rules lexer.cursor.ahead
  rw [lexer.scans_next.isEnd_iff, skipGap_ahead, List.drop_eq_nil_iff]
  constructor
  · intro isGap
    have length := isGap.gapLength_append
    rw [List.append_nil] at length
    rw [length]
    exact Nat.le_add_right _ _
  · intro all
    have isGap := gap_take_gapLength lexer.rules lexer.cursor.ahead
    rw [List.take_of_length_le all, List.drop_of_length_le all] at isGap
    exact isGap

theorem exists_skipGap_ahead {lexer : Lexer} (notEnd : lexer.next.token.isEnd = false) :
    ∃ first rest, lexer.skipGap.ahead = first :: rest ∧ ¬ Byte.isBlank first = true := by
  have left := starts_drop_gapLength lexer.rules lexer.cursor.ahead
  rw [← skipGap_ahead, ← isEnd_iff_skipGap] at left
  rcases left with isEnd | starts
  · rw [notEnd] at isEnd
    cases isEnd
  · rcases starts.notBlank with ⟨first, rest, ahead, notBlank⟩
    exact ⟨first, rest, ahead, mt isBlank_iff.mp notBlank⟩

theorem next_of_skipGap {lexer : Lexer} {first : UInt8} {rest : Bytes}
    (ahead : lexer.skipGap.ahead = first :: rest) :
    let lexeme := Lexeme.read lexer.delimiters first rest
    let behind := skipLexeme lexer.skipGap lexeme
    lexer.next.token.snippet =
        { text := lexeme.text
          quoted := lexeme.isQuoted
          startLine := lexer.skipGap.line
          stopLine := behind.line } ∧
      lexer.next.lexer = { lexer with cursor := behind, quoted := lexeme.isQuoted } := by
  intro lexeme behind
  unfold next scan
  dsimp only
  split
  · next nothing =>
    rw [ahead] at nothing
    cases nothing
  · next equal =>
    rw [ahead] at equal
    cases equal
    exact ⟨rfl, rfl⟩

/-! ## Lexers -/

theorem respelled_skipLexeme {spelling : Spelling} {cursor other : Cursor}
    (respelled : Cursor.Respelled spelling cursor other) {lexeme changed : Lexeme}
    (behind : Grammar.Respelled spelling (cursor.ahead.drop lexeme.length)
      (other.ahead.drop changed.length)) :
    Cursor.Respelled spelling (skipLexeme cursor lexeme) (skipLexeme other changed) := by
  have begun : Cursor.Respelled spelling cursor.beginToken other.beginToken :=
    ⟨respelled.ahead, respelled.line_eq⟩
  have after := begun.skip behind
  exact ⟨after.ahead, after.line_eq⟩

structure Respelled (spelling : Spelling) (lexer other : Lexer) : Prop where
  rules_eq : other.rules = lexer.rules
  delimiters_eq : other.delimiters = lexer.delimiters
  cursor : Cursor.Respelled spelling lexer.cursor other.cursor

theorem respelled_withInput {spelling : Spelling} {bytes changed : Bytes}
    (respelled : Grammar.Respelled spelling bytes changed) (lexer : Lexer) (name : String) :
    Respelled spelling (lexer.withInput name bytes) (lexer.withInput name changed) :=
  ⟨rfl, rfl, respelled, rfl⟩

section

variable {spelling : Spelling} {lexer other : Lexer} (respelled : Respelled spelling lexer other)
include respelled

theorem Respelled.skipGap : Cursor.Respelled spelling lexer.skipGap other.skipGap := by
  have behind := respelled.cursor.ahead.drop_gapLength lexer.rules
  unfold Lexer.skipGap
  rw [respelled.rules_eq]
  exact respelled.cursor.skip behind

theorem Respelled.isEnd_eq : other.next.token.isEnd = lexer.next.token.isEnd := by
  rw [Bool.eq_iff_iff, isEnd_iff_skipGap, isEnd_iff_skipGap]
  exact respelled.skipGap.ahead.nil_iff.symm

/-- One token: only its text is another, and not its lines. -/
theorem Respelled.next {text : Bool → String → String} (changes : Changes spelling text)
    (notEnd : lexer.next.token.isEnd = false) :
    other.next.token.isEnd = false ∧
      other.next.token.snippet = lexer.next.token.changed text ∧
      Respelled spelling lexer.next.lexer other.next.lexer := by
  have otherNotEnd := respelled.isEnd_eq.trans notEnd
  have gap := respelled.skipGap
  rcases exists_skipGap_ahead notEnd with ⟨first, rest, ahead, notBlank⟩
  rcases exists_skipGap_ahead otherNotEnd with ⟨head, later, otherAhead, -⟩
  rcases next_of_skipGap ahead with ⟨token, after⟩
  rcases next_of_skipGap otherAhead with ⟨otherToken, otherAfter⟩
  have start := gap.ahead
  rw [ahead, otherAhead] at start
  have reads := start.reads lexer.delimiters notBlank
  rw [← ahead, ← otherAhead] at reads
  have behind := respelled_skipLexeme gap reads.behind
  have texts := changes _ _ _ reads.content
    (not_blank_of_unquoted (mt isBlank_iff.mpr notBlank) rest)
  rw [respelled.delimiters_eq] at otherToken otherAfter
  refine ⟨otherNotEnd, ?_, ?_⟩
  · have same : lexer.next.token.changed text =
      { lexer.next.token.snippet with
        text := text lexer.next.token.snippet.quoted lexer.next.token.snippet.text } := rfl
    rw [same, token, otherToken, reads.isQuoted, behind.line_eq, gap.line_eq]
    exact congrArg (Snippet.mk · _ _ _) texts
  · rw [after, otherAfter]
    exact ⟨respelled.rules_eq, rfl, behind⟩

theorem Respelled.tokensAhead {text : Bool → String → String} (changes : Changes spelling text) :
    other.tokensAhead.map Token.snippet = lexer.tokensAhead.map (Token.changed text) := by
  have finish {lexer other : Lexer} (respelled : Respelled spelling lexer other)
      (isEnd : lexer.next.token.isEnd = true) : other.tokensAhead.map Token.snippet = [] := by
    rw [tokensAhead_of_isEnd (respelled.isEnd_eq.trans isEnd), List.map_nil]
  have step := tokensAhead_of_related finish (fun respelled => respelled.next changes) respelled
  rw [List.append_nil] at step
  exact step

end

end Lexer

end ScriptLexer
