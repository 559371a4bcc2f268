import ScriptLexer.Proofs.Grammar.Endings
import ScriptLexer.Proofs.Lexer.Lines
import ScriptLexer.Proofs.Lexer.Loads
import ScriptLexer.Proofs.Lexer.Suffix

/-!
# Inputs put together at a newline

The tokens of two inputs with a newline between them are those of the first one and behind them those
of the second one. The end of the first input is a place like any other then, so the cursor must stand
there as it stands at the end of a buffer.
-/

namespace ScriptLexer

namespace Cursor

/-- The cursor is right behind `read`, whose newlines it has counted, and `ahead` is in front of it. -/
structure Behind (read ahead : Bytes) (cursor : Cursor) : Prop where
  inBuffer : cursor.InBuffer
  ahead_eq : cursor.ahead = ahead
  position_eq : cursor.position = read.length
  line_eq : cursor.line = 1 + read.count Byte.newline

theorem behind_ofBytes (buffer : Bytes) : Behind [] buffer (ofBytes buffer) where
  inBuffer := inBuffer_ofBytes buffer
  ahead_eq := rfl
  position_eq := rfl
  line_eq := rfl

section

variable {read part following : Bytes} {cursor : Cursor}

theorem Behind.skip (behind : Behind read (part ++ following) cursor)
    (counts : following ≠ [] ∨ part.getLast? ≠ some Byte.newline) :
    Behind (read ++ part) following (cursor.skip part.length) where
  inBuffer := behind.inBuffer.skip _
  ahead_eq := skip_ahead_eq behind.ahead_eq
  position_eq := by
    rw [skip_position_eq behind.inBuffer behind.ahead_eq, behind.position_eq, List.length_append]
  line_eq := by
    rw [skip_line_eq behind.ahead_eq counts, behind.line_eq, List.count_append, Nat.add_assoc]

/-- Cursors are at the same place if they have the same behind them. -/
theorem Behind.place_eq {ahead otherAhead : Bytes} {other : Cursor}
    (behind : Behind read ahead cursor) (otherBehind : Behind read otherAhead other) :
    other.place = cursor.place := by
  rw [place, place, behind.line_eq, behind.position_eq, otherBehind.line_eq,
    otherBehind.position_eq]

/-- A cursor with nothing behind it is as far on the same bytes, less all that is behind this one. -/
theorem Behind.shifted {ahead : Bytes} {fresh : Cursor} (behind : Behind read ahead cursor)
    (freshBehind : Behind [] ahead fresh) :
    Shifted (read.count Byte.newline) read.length fresh cursor where
  freshInBuffer := freshBehind.inBuffer
  inBuffer := behind.inBuffer
  ahead_eq := behind.ahead_eq.trans freshBehind.ahead_eq.symm
  line_eq := by
    rw [behind.line_eq, freshBehind.line_eq]
    rfl
  position_eq := by
    rw [behind.position_eq, freshBehind.position_eq]
    exact (Nat.zero_add _).symm

end

end Cursor

namespace Lexer

open Grammar

/-! ## Gaps in front -/

/-- A gap in front of a lexer makes no difference to what it reads. -/
theorem tokensAhead_of_gap {lexer : Lexer} {gap following : Bytes}
    (ahead : lexer.cursor.ahead = gap ++ following) (isGap : Gap lexer.rules gap following) :
    ({ lexer with cursor := lexer.cursor.skip gap.length } : Lexer).tokensAhead =
      lexer.tokensAhead := by
  have skipGap : ({ lexer with cursor := lexer.cursor.skip gap.length } : Lexer).skipGap =
      lexer.skipGap := by
    unfold Lexer.skipGap
    rw [Cursor.skip_ahead_eq ahead, ahead, isGap.gapLength_append, Cursor.skip_add]
  have next : ({ lexer with cursor := lexer.cursor.skip gap.length } : Lexer).next =
      lexer.next := by
    unfold Lexer.next Lexer.scan
    rw [skipGap]
    rfl
  cases isEnd : lexer.next.token.isEnd with
  | true => rw [tokensAhead_of_isEnd isEnd, tokensAhead_of_isEnd (next ▸ isEnd)]
  | false => rw [tokensAhead_of_token isEnd, tokensAhead_of_token (next ▸ isEnd), next]

/-! ## The first input -/

theorem behind_skipLexeme {read following : Bytes} {cursor : Cursor} {lexeme : Lexeme}
    (behind : Cursor.Behind read (lexeme.bytes ++ following) cursor)
    (counts : following ≠ [] ∨ lexeme.bytes.getLast? ≠ some Byte.newline) :
    Cursor.Behind (read ++ lexeme.bytes) following (skipLexeme cursor lexeme) := by
  have begun : Cursor.Behind read (lexeme.bytes ++ following) cursor.beginToken :=
    ⟨behind.inBuffer, behind.ahead_eq, behind.position_eq, behind.line_eq⟩
  have after := begun.skip counts
  exact ⟨after.inBuffer, after.ahead_eq, after.position_eq, after.line_eq⟩

/-- A lexeme stops at the same place whatever follows it. -/
theorem stop_eq_of_behind {read following otherFollowing : Bytes} {cursor other : Cursor}
    {lexeme : Lexeme} (behind : Cursor.Behind read (lexeme.bytes ++ following) cursor)
    (otherBehind : Cursor.Behind read (lexeme.bytes ++ otherFollowing) other)
    (noNewline : lexeme.bytes.getLast? ≠ some Byte.newline) :
    Position.mk (skipLexeme other lexeme).line (skipLexeme other lexeme).tokenEnd =
      Position.mk (skipLexeme cursor lexeme).line (skipLexeme cursor lexeme).tokenEnd := by
  rw [skipLexeme_tokenEnd lexeme behind.inBuffer, skipLexeme_tokenEnd lexeme otherBehind.inBuffer]
  exact (behind_skipLexeme behind (.inr noNewline)).place_eq
    (behind_skipLexeme otherBehind (.inr noNewline))

theorem getLast?_ne_newline {rules : CommentRules} {delimiters : Delimiters} {lexeme : Lexeme}
    {text : String} {following : Bytes} (spells : Spells delimiters lexeme text following)
    (starts : Starts rules (lexeme.bytes ++ following))
    (closed : ¬ EndsInside rules delimiters (lexeme.bytes ++ following)) :
    lexeme.bytes.getLast? ≠ some Byte.newline := by
  intro last
  rcases spells.unclosed_of_newline starts last with ⟨inner, rfl, -⟩
  exact closed spells.endsInside

/-- `long` reads what `short` reads, and behind it a newline and what `fresh` reads. -/
structure Prolonged (second read rest : Bytes) (fresh short long : Lexer) : Prop where
  shortSettings : short.SameSettings fresh
  longSettings : long.SameSettings fresh
  freshBehind : Cursor.Behind [] second fresh.cursor
  shortBehind : Cursor.Behind read rest short.cursor
  longBehind : Cursor.Behind read (rest ++ Byte.newline :: second) long.cursor
  closed : ¬ EndsInside fresh.rules fresh.delimiters rest

section

variable {second read rest : Bytes} {fresh short long : Lexer}
  (prolonged : Prolonged second read rest fresh short long)
include prolonged

/-- One token: what ends it in the first input does so in the longer one, or the newline does. -/
theorem Prolonged.scans {after : Lexer} {token : Token} (scans : short.Scans token after)
    (notEnd : token.isEnd = false) :
    ∃ part later longAfter, rest = part ++ later ∧ long.Scans token longAfter ∧
      Prolonged second (read ++ part) later fresh after longAfter := by
  rcases prolonged with ⟨shortSettings, longSettings, freshBehind, shortBehind, longBehind, closed⟩
  cases scans with
  | finish => cases notEnd
  | @lexeme gap following lexeme text start behind ahead isGap starts spells start_eq behind_eq =>
    have rest_eq : rest = gap ++ (lexeme.bytes ++ following) := by
      rw [← ahead, shortBehind.ahead_eq]
    subst rest_eq
    rw [shortSettings.rules] at isGap starts
    rw [shortSettings.delimiters] at spells
    have nonempty : lexeme.bytes ++ following ≠ [] :=
      List.append_ne_nil_of_left_ne_nil (List.ne_nil_of_length_pos spells.length_pos) _
    have lexemeClosed : ¬ EndsInside fresh.rules fresh.delimiters (lexeme.bytes ++ following) :=
      fun inside => closed (inside.behind_gap isGap)
    have laterClosed : ¬ EndsInside fresh.rules fresh.delimiters following :=
      fun inside => closed (.lexeme isGap starts spells inside)
    -- On the first input alone the cursor does not count the last byte, so it must be no newline.
    have noNewline := getLast?_ne_newline spells starts lexemeClosed
    have longIsGap := isGap.append_newline second nonempty
    have longStarts := starts.append (blank_of_newline second)
    have longSpells := spells.append_newline second lexemeClosed
    rw [← longSettings.rules] at longIsGap longStarts
    rw [← longSettings.delimiters] at longSpells
    simp only [List.append_assoc] at longBehind longIsGap longStarts
    have shortStart := shortBehind.skip (.inl nonempty)
    have longStart := longBehind.skip (.inl (List.append_ne_nil_of_right_ne_nil _ (by simp)))
    have shortAfter := behind_skipLexeme shortStart (.inr noNewline)
    have longAfter := behind_skipLexeme longStart (.inr noNewline)
    have scans := Scans.lexeme longBehind.ahead_eq longIsGap longStarts longSpells rfl rfl
    rw [shortStart.place_eq longStart, stop_eq_of_behind shortStart longStart noNewline, ← start_eq,
      ← behind_eq] at scans
    rw [← start_eq, ← behind_eq] at shortAfter
    refine ⟨gap ++ lexeme.bytes, following, _, (List.append_assoc ..).symm, scans, ?_⟩
    rw [← List.append_assoc]
    exact
      { shortSettings := ⟨shortSettings.rules, shortSettings.delimiters, shortSettings.debug⟩
        longSettings := ⟨longSettings.rules, longSettings.delimiters, longSettings.debug⟩
        freshBehind
        shortBehind := shortAfter
        longBehind := longAfter
        closed := laterClosed }

theorem Prolonged.next (notEnd : short.next.token.isEnd = false) :
    long.next.token = short.next.token ∧ ∃ part later, rest = part ++ later ∧
      Prolonged second (read ++ part) later fresh short.next.lexer long.next.lexer := by
  rcases prolonged.scans short.scans_next notEnd with ⟨part, later, after, parts, scans, behind⟩
  rcases long.scans_next.unique scans with ⟨token, rfl⟩
  exact ⟨token, part, later, parts, behind⟩

/-- At the end of the first input the newline goes with the gap, and the second input is behind it. -/
theorem Prolonged.finish (isEnd : short.next.token.isEnd = true) :
    long.tokensAhead = fresh.tokensAhead.map
      (Token.shift (1 + (read ++ rest).count Byte.newline) ((read ++ rest).length + 1)) := by
  have isGap := short.scans_next.isEnd_iff.mp isEnd
  rw [prolonged.shortBehind.ahead_eq, prolonged.shortSettings.rules] at isGap
  have through := isGap.concat_newline second prolonged.closed
  rw [← prolonged.longSettings.rules] at through
  have parts : rest ++ Byte.newline :: second = rest ++ [Byte.newline] ++ second := by simp
  have longBehind := prolonged.longBehind
  rw [parts] at longBehind
  rw [← tokensAhead_of_gap longBehind.ahead_eq through]
  rcases second with _ | ⟨first, second⟩
  · -- The newline is the last byte, so no line is counted for it, but no token is behind it either.
    have longAhead := Cursor.skip_ahead_eq longBehind.ahead_eq
    rw [tokensAhead_of_ahead_nil prolonged.freshBehind.ahead_eq,
      tokensAhead_of_ahead_nil longAhead, List.map_nil]
  · have behind := longBehind.skip (.inl (List.cons_ne_nil first second))
    have cursor := behind.shifted prolonged.freshBehind
    have lines : (read ++ (rest ++ [Byte.newline])).count Byte.newline =
        1 + (read ++ rest).count Byte.newline := by
      simp only [List.count_append, List.count_singleton_self]
      omega
    have bytes : (read ++ (rest ++ [Byte.newline])).length = (read ++ rest).length + 1 := by
      simp [Nat.add_assoc]
    rw [lines, bytes] at cursor
    have shifted : Shifted _ _ fresh
        { long with cursor := long.cursor.skip (rest ++ [Byte.newline]).length } :=
      ⟨prolonged.longSettings.rules, prolonged.longSettings.delimiters, cursor⟩
    exact shifted.tokensAhead

end

theorem Prolonged.tokensAhead {first second : Bytes} {fresh short long : Lexer}
    (prolonged : Prolonged second [] first fresh short long) :
    long.tokensAhead = short.tokensAhead ++ fresh.tokensAhead.map
      (Token.shift (1 + first.count Byte.newline) (first.length + 1)) := by
  have finish {short long : Lexer}
      (related : ∃ read rest, read ++ rest = first ∧ Prolonged second read rest fresh short long)
      (isEnd : short.next.token.isEnd = true) : long.tokensAhead.map id = fresh.tokensAhead.map
        (Token.shift (1 + first.count Byte.newline) (first.length + 1)) := by
    rcases related with ⟨read, rest, parts, here⟩
    rw [List.map_id, here.finish isEnd, parts]
  have token {short long : Lexer}
      (related : ∃ read rest, read ++ rest = first ∧ Prolonged second read rest fresh short long)
      (notEnd : short.next.token.isEnd = false) :
      long.next.token.isEnd = false ∧ id long.next.token = id short.next.token ∧
        ∃ read rest, read ++ rest = first ∧
          Prolonged second read rest fresh short.next.lexer long.next.lexer := by
    rcases related with ⟨read, rest, parts, here⟩
    rcases here.next notEnd with ⟨token, part, later, rfl, behind⟩
    refine ⟨token ▸ notEnd, token, read ++ part, later, ?_, behind⟩
    rw [List.append_assoc, parts]
  have same := tokensAhead_of_related finish token ⟨[], first, rfl, prolonged⟩
  rw [List.map_id, List.map_id] at same
  exact same

/-- Where the first of two inputs does not end inside of a literal or of a block comment, a newline
between them keeps their tokens apart: those of the first one are where they were, and those of the
second one are moved behind it. -/
theorem tokens_of_concatenation (lexer : Lexer) (files : FileAccess) (name : String)
    (first second : Bytes) (closed : ¬ EndsInside lexer.rules lexer.delimiters first) :
    let found (bytes : Bytes) : Answer :=
      ((lexer.run files (.load (.owned bytes) name)).lexer.run files (.tokens none)).answer
    ∃ tokens later : List Token, found first = .tokens tokens ∧ found second = .tokens later ∧
      found (first ++ Byte.newline :: second) = .tokens (tokens ++
        later.map (Token.shift (1 + first.count Byte.newline) (first.length + 1))) := by
  intro found
  have prolonged : Prolonged second [] first (lexer.withInput name second)
      (lexer.withInput name first)
      (lexer.withInput name (first ++ Byte.newline :: second)) :=
    { shortSettings := ⟨rfl, rfl, rfl⟩
      longSettings := ⟨rfl, rfl, rfl⟩
      freshBehind := Cursor.behind_ofBytes second
      shortBehind := Cursor.behind_ofBytes first
      longBehind := Cursor.behind_ofBytes _
      closed }
  exact ⟨_, _, rfl, rfl, congrArg Answer.tokens prolonged.tokensAhead⟩

/-- An open comment before the newline and an open literal behind it. -/
theorem tokens_of_concatenation_comment :
    let lexer : Lexer := { rules := .standard }
    let first := Utf8.encode "a=b //x"
    let second := Utf8.encode "\"c\nd"
    let found (bytes : Bytes) : Answer :=
      ((lexer.run (fun _ => .ok []) (.load (.owned bytes) "lump")).lexer.run (fun _ => .ok [])
        (.tokens none)).answer
    ¬ EndsInside lexer.rules lexer.delimiters first ∧
      ∃ tokens later : List Token, found first = .tokens tokens ∧ found second = .tokens later ∧
        found (first ++ Byte.newline :: second) =
          .tokens (tokens ++ later.map (Token.shift 1 8)) := by
  intro lexer first second found
  have closed : ¬ EndsInside lexer.rules lexer.delimiters first := by
    intro inside
    have begun := inside.begins
    revert begun
    decide +kernel
  exact ⟨closed, tokens_of_concatenation lexer _ "lump" first second closed⟩

end Lexer

end ScriptLexer
