import ScriptLexer.Proofs.Lexer.Invariant
import ScriptLexer.Proofs.Lexer.Scripts

/-!
# The rest of an input

A lexer in the middle of its input reads on as a new lexer reads the rest of the input alone. Only
places differ, by what lies before the rest.
-/

namespace ScriptLexer

/-! ## Places in a longer input -/

/-- The same place behind that many more lines and bytes. -/
def Position.shift (lines bytes : Nat) (position : Position) : Position where
  line := position.line + lines
  offset := position.offset + bytes

def Span.shift (lines bytes : Nat) (span : Span) : Span where
  start := span.start.shift lines bytes
  stop := span.stop.shift lines bytes

def Token.shift (lines bytes : Nat) (token : Token) : Token :=
  { token with span := token.span.shift lines bytes }

namespace Cursor

/-- What is ahead of `cursor` is ahead of `fresh` too, with so many lines and bytes less before it. -/
structure Shifted (lines bytes : Nat) (fresh cursor : Cursor) : Prop where
  freshInBuffer : fresh.InBuffer
  inBuffer : cursor.InBuffer
  ahead_eq : cursor.ahead = fresh.ahead
  line_eq : cursor.line = fresh.line + lines
  position_eq : cursor.position = fresh.position + bytes

section

variable {lines bytes : Nat} {fresh cursor : Cursor} (shifted : Shifted lines bytes fresh cursor)
include shifted

theorem Shifted.place_eq : cursor.place = fresh.place.shift lines bytes := by
  rw [place, shifted.line_eq, shifted.position_eq]
  rfl

theorem Shifted.skip (count : Nat) : Shifted lines bytes (fresh.skip count) (cursor.skip count) where
  freshInBuffer := shifted.freshInBuffer.skip count
  inBuffer := shifted.inBuffer.skip count
  ahead_eq := by rw [skip_ahead, skip_ahead, shifted.ahead_eq]
  line_eq := by
    rw [skip_line, skip_line, shifted.ahead_eq, shifted.line_eq]
    exact Nat.add_right_comm ..
  position_eq := by
    rw [skip_position shifted.inBuffer, skip_position shifted.freshInBuffer, shifted.ahead_eq,
      shifted.position_eq]
    exact Nat.add_right_comm ..

end

end Cursor

namespace Lexer

open Grammar

section

variable {lines bytes : Nat} {fresh cursor : Cursor}
  (shifted : Cursor.Shifted lines bytes fresh cursor) (lexeme : Lexeme)
include shifted

theorem shifted_skipLexeme :
    Cursor.Shifted lines bytes (skipLexeme fresh lexeme) (skipLexeme cursor lexeme) := by
  have begun : Cursor.Shifted lines bytes fresh.beginToken cursor.beginToken :=
    ⟨shifted.freshInBuffer, shifted.inBuffer, shifted.ahead_eq, shifted.line_eq,
      shifted.position_eq⟩
  have behind := begun.skip lexeme.length
  exact ⟨behind.freshInBuffer, behind.inBuffer, behind.ahead_eq, behind.line_eq,
    behind.position_eq⟩

theorem shifted_tokenEnd :
    (skipLexeme cursor lexeme).tokenEnd = (skipLexeme fresh lexeme).tokenEnd + bytes := by
  rw [skipLexeme_tokenEnd lexeme shifted.inBuffer, skipLexeme_tokenEnd lexeme shifted.freshInBuffer]
  exact (shifted_skipLexeme shifted lexeme).position_eq

end

structure Shifted (lines bytes : Nat) (fresh lexer : Lexer) : Prop where
  rules_eq : lexer.rules = fresh.rules
  delimiters_eq : lexer.delimiters = fresh.delimiters
  cursor : Cursor.Shifted lines bytes fresh.cursor lexer.cursor

section

variable {lines bytes : Nat} {fresh lexer : Lexer} (shifted : Shifted lines bytes fresh lexer)
include shifted

/-- One reading: the grammar knows no more of either input than what is ahead. -/
theorem Shifted.scans {freshAfter : Lexer} {token : Token} (scans : fresh.Scans token freshAfter) :
    ∃ after, lexer.Scans (token.shift lines bytes) after ∧
      Shifted lines bytes freshAfter after := by
  rcases shifted with ⟨rules, delimiters, cursor⟩
  cases scans with
  | finish isGap =>
    have behind := cursor.skip fresh.cursor.ahead.length
    rw [← rules, ← cursor.ahead_eq] at isGap
    have scans := Scans.finish isGap
    rw [cursor.ahead_eq, behind.place_eq] at scans
    exact ⟨_, scans, rules, delimiters, behind⟩
  | @lexeme gap following lexeme text start behind ahead isGap starts spells start_eq behind_eq =>
    have startShifted := cursor.skip gap.length
    rw [← start_eq] at startShifted
    have behindShifted := shifted_skipLexeme startShifted lexeme
    have tokenEnd := shifted_tokenEnd startShifted lexeme
    rw [← cursor.ahead_eq] at ahead
    rw [← rules] at isGap starts
    rw [← delimiters] at spells
    have scans := Scans.lexeme ahead isGap starts spells rfl rfl
    rw [startShifted.place_eq, behindShifted.line_eq, tokenEnd, ← behind_eq] at scans
    rw [← behind_eq] at behindShifted
    exact ⟨_, scans, rules, delimiters, behindShifted⟩

theorem Shifted.next :
    lexer.next.token = fresh.next.token.shift lines bytes ∧
      Shifted lines bytes fresh.next.lexer lexer.next.lexer := by
  rcases shifted.scans fresh.scans_next with ⟨after, scans, behind⟩
  rcases lexer.scans_next.unique scans with ⟨token, rfl⟩
  exact ⟨token, behind⟩

theorem Shifted.tokensAhead :
    lexer.tokensAhead = fresh.tokensAhead.map (Token.shift lines bytes) := by
  have isEnd_eq {fresh lexer : Lexer} (shifted : Shifted lines bytes fresh lexer) :
      lexer.next.token.isEnd = fresh.next.token.isEnd := by
    rw [shifted.next.1]
    rfl
  have finish {fresh lexer : Lexer} (shifted : Shifted lines bytes fresh lexer)
      (isEnd : fresh.next.token.isEnd = true) : lexer.tokensAhead.map id = [] := by
    rw [tokensAhead_of_isEnd ((isEnd_eq shifted).trans isEnd), List.map_nil]
  have same := tokensAhead_of_related finish
    (fun shifted notEnd => ⟨(isEnd_eq shifted).trans notEnd, shifted.next⟩) shifted
  rw [List.map_id, List.append_nil] at same
  exact same

theorem Shifted.nexts (count : Nat) :
    (lexer.nexts count).map (fun reading => (reading.token, reading.lexer.cursor.place)) =
      (fresh.nexts count).map fun reading =>
        (reading.token.shift lines bytes, reading.lexer.cursor.place.shift lines bytes) := by
  induction count generalizing fresh lexer with
  | zero => rfl
  | succ count induction =>
    rcases shifted.next with ⟨token, behind⟩
    simp only [Lexer.nexts, List.map_cons, induction behind, token, behind.cursor.place_eq]

end

/-- The rest of the buffer, loaded into a new lexer. -/
theorem shifted_withInput {lexer : Lexer} (bounded : lexer.cursor.Bounded) (name : String) :
    Shifted (lexer.cursor.line - 1) lexer.cursor.position
      (({ rules := lexer.rules, delimiters := lexer.delimiters } : Lexer).withInput name
        (lexer.cursor.buffer.drop lexer.cursor.position)) lexer where
  rules_eq := rfl
  delimiters_eq := rfl
  cursor :=
    { freshInBuffer := Cursor.inBuffer_ofBytes _
      inBuffer := bounded.inBuffer
      ahead_eq := lexer.cursor.ahead_eq
      line_eq := (Nat.add_sub_cancel' bounded.line_pos).symm
      position_eq := (Nat.zero_add _).symm }

/-- Calls of `next` give the tokens that a new lexer with the same settings finds in the rest of the
buffer, and come to the places that it comes to, moved behind what was read already. -/
theorem suffix_independent {lexer : Lexer} {history : List Token} (reached : Reached lexer history)
    (files : FileAccess) (name : String) (count : Nat) :
    let rest := lexer.cursor.buffer.drop lexer.cursor.position
    let fresh := ({ rules := lexer.rules } : Lexer).afterAll files
      [.setDelimiters lexer.delimiters, .load (.owned rest) name]
    let lines := lexer.cursor.line - 1
    let bytes := lexer.cursor.position
    (lexer.nexts count).map (fun reading => (reading.token, reading.lexer.cursor.place)) =
      (fresh.nexts count).map fun reading =>
        (reading.token.shift lines bytes, reading.lexer.cursor.place.shift lines bytes) := by
  intro rest fresh lines bytes
  have shifted : Shifted lines bytes fresh lexer := shifted_withInput reached.bounded name
  exact shifted.nexts count

/-- Behind a literal that holds a line of its own. -/
theorem suffix_independent_literal :
    let lexer := (({ rules := .standard } : Lexer).withInput "lump"
      (Utf8.encode "a \"b\nc\"//d\n e")).next.lexer.next.lexer
    let fresh := ({ rules := .standard } : Lexer).withInput "rest" (Utf8.encode "//d\n e")
    (∃ history, Reached lexer history) ∧ lexer.cursor.place = { line := 2, offset := 7 } ∧
      (lexer.nexts 2).map (fun reading => (reading.token, reading.lexer.cursor.place)) =
        (fresh.nexts 2).map fun reading =>
          (reading.token.shift 1 7, reading.lexer.cursor.place.shift 1 7) := by
  intro lexer fresh
  have reached : Reached lexer _ := ((Reached.new .standard).withInput "lump"
    (Utf8.encode "a \"b\nc\"//d\n e")).next.next
  have place : lexer.cursor.place = { line := 2, offset := 7 } := by decide +kernel
  have rest : lexer.cursor.buffer.drop lexer.cursor.position = Utf8.encode "//d\n e" := by
    decide +kernel
  have rules : lexer.rules = .standard := (next_rules _).trans (next_rules _)
  have delimiters : lexer.delimiters = .standard :=
    (next_delimiters _).trans (next_delimiters _)
  have line : lexer.cursor.line = 2 := congrArg Position.line place
  have position : lexer.cursor.position = 7 := congrArg Position.offset place
  have suffix := suffix_independent reached (fun _ => .ok []) "rest" 2
  dsimp only at suffix
  rw [rest, rules, delimiters, line, position] at suffix
  exact ⟨⟨_, reached⟩, place, suffix⟩

end Lexer

end ScriptLexer
