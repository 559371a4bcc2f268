import ScriptLexer.Comment
import ScriptLexer.Proofs.Cursor.Steps

/-!
# The line of a cursor

However a cursor is moved, its line is told by its position: there are as many lines as newlines
before it, where the last byte of the buffer does not count.
-/

namespace ScriptLexer

/-- `position` is in `buffer` or right behind it, and `line` is the line there. -/
structure Counted (buffer : Bytes) (position line : Nat) : Prop where
  within : position ≤ buffer.length
  line_eq : line = 1 + (buffer.take (min position (buffer.length - 1))).count Byte.newline

namespace Cursor

/-- What can be done with a cursor that starts at the first byte of `buffer`, and the marks that were
taken on the way. -/
inductive Walk (buffer : Bytes) : Cursor → List Mark → Prop
  | start : Walk buffer (ofBytes buffer) []
  | advance {cursor : Cursor} {marks : List Mark} (walk : Walk buffer cursor marks) :
      Walk buffer cursor.advance.2 marks
  | beginToken {cursor : Cursor} {marks : List Mark} (walk : Walk buffer cursor marks) :
      Walk buffer cursor.beginToken marks
  | endToken {cursor : Cursor} {marks : List Mark} (stop : Nat)
      (walk : Walk buffer cursor marks) : Walk buffer (cursor.endToken stop) marks
  | skipComment {cursor : Cursor} {marks : List Mark} (kind : CommentKind)
      (walk : Walk buffer cursor marks) : Walk buffer (cursor.skipComment kind) marks
  | mark {cursor : Cursor} {marks : List Mark} (walk : Walk buffer cursor marks) :
      Walk buffer cursor (cursor.mark :: marks)
  | restore {cursor : Cursor} {marks : List Mark} {mark : Mark}
      (walk : Walk buffer cursor marks) (member : mark ∈ marks) :
      Walk buffer (cursor.restore mark) marks

theorem Walk.skip {buffer : Bytes} {cursor : Cursor} {marks : List Mark}
    (walk : Walk buffer cursor marks) (count : Nat) : Walk buffer (cursor.skip count) marks := by
  induction count generalizing cursor with
  | zero => exact walk
  | succ count induction => exact induction walk.advance

/-! ## Counting lines -/

private theorem take_min_eq (buffer : Bytes) (position : Nat) :
    buffer.take (min position (buffer.length - 1)) = buffer.dropLast.take position := by
  rw [List.dropLast_eq_take, List.take_take]

private theorem dropLast_ahead (cursor : Cursor) :
    cursor.ahead.dropLast = cursor.buffer.dropLast.drop cursor.position := by
  rw [List.dropLast_eq_take, List.dropLast_eq_take, List.drop_take, cursor.length_ahead,
    cursor.ahead_eq, Nat.sub_right_comm]

/-- The bytes before a cursor after some steps are those before it at first and those that the steps
count, but for the last byte of the buffer. -/
private theorem take_skip_position {cursor : Cursor} (inBuffer : cursor.InBuffer) (count : Nat) :
    cursor.buffer.dropLast.take (cursor.skip count).position =
      cursor.buffer.dropLast.take cursor.position ++ cursor.ahead.dropLast.take count := by
  have short : cursor.ahead.dropLast.length ≤ cursor.ahead.length := by
    rw [List.length_dropLast]
    exact Nat.sub_le _ 1
  rw [skip_position inBuffer, List.take_add, ← dropLast_ahead, List.length_take, ← List.take_take,
    List.take_of_length_le short]

theorem counted_skip {cursor : Cursor}
    (counted : Counted cursor.buffer cursor.position cursor.line) (count : Nat) :
    Counted cursor.buffer (cursor.skip count).position (cursor.skip count).line := by
  have inBuffer : cursor.InBuffer := counted.within
  have within := inBuffer.skip count
  rw [InBuffer, skip_buffer] at within
  refine ⟨within, ?_⟩
  rw [take_min_eq, take_skip_position inBuffer, List.count_append, skip_line, counted.line_eq,
    take_min_eq, Nat.add_assoc]

/-- A walk keeps the line right, also in the marks that it may go back to. -/
theorem Walk.counted {buffer : Bytes} {cursor : Cursor} {marks : List Mark}
    (walk : Walk buffer cursor marks) :
    cursor.buffer = buffer ∧ Counted buffer cursor.position cursor.line ∧
      ∀ mark ∈ marks, Counted buffer mark.position mark.line := by
  induction walk with
  | start => exact ⟨rfl, ⟨Nat.zero_le _, by simp [ofBytes]⟩, by simp⟩
  | @advance cursor _ _ induction =>
    rcases induction with ⟨rfl, counted, marks⟩
    exact ⟨cursor.advance_buffer, counted_skip counted 1, marks⟩
  | beginToken _ induction => exact induction
  | endToken _ _ induction => exact induction
  | @skipComment cursor _ kind _ induction =>
    rcases induction with ⟨rfl, counted, marks⟩
    exact ⟨cursor.skip_buffer _, counted_skip counted _, marks⟩
  | mark _ induction =>
    rcases induction with ⟨same, counted, marks⟩
    refine ⟨same, counted, fun mark member => ?_⟩
    rcases List.mem_cons.mp member with equal | member
    · exact equal ▸ counted
    · exact marks mark member
  | restore _ member induction =>
    rcases induction with ⟨same, counted, marks⟩
    exact ⟨same, marks _ member, marks⟩

end Cursor

end ScriptLexer
