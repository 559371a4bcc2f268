import ScriptLexer.Cursor

/-!
# Steps of a cursor

What a step does to every part of a cursor, and from it what any number of steps does. A step counts
the byte that it leaves for another one, so the last byte of the buffer is never counted: what steps
can count is `ahead.dropLast`.
-/

namespace ScriptLexer

namespace Cursor

/-- Whether the cursor is in its buffer or right behind it. -/
def InBuffer (cursor : Cursor) : Prop :=
  cursor.position ≤ cursor.buffer.length

theorem inBuffer_ofBytes (buffer : Bytes) : (ofBytes buffer).InBuffer :=
  Nat.zero_le _

theorem length_ahead (cursor : Cursor) :
    cursor.ahead.length = cursor.buffer.length - cursor.position := by
  rw [cursor.ahead_eq, List.length_drop]

theorem InBuffer.position_add_length {cursor : Cursor} (inBuffer : cursor.InBuffer) :
    cursor.position + cursor.ahead.length = cursor.buffer.length := by
  rw [cursor.length_ahead]
  exact Nat.add_sub_cancel' inBuffer

/-! ## One step

A step either leaves a byte for the next one or parks the cursor, with one byte ahead at most. -/

private theorem length_le_one {ahead : Bytes}
    (last : ∀ byte next rest, ahead = byte :: next :: rest → False) : ahead.length ≤ 1 := by
  rcases ahead with _ | ⟨byte, _ | ⟨next, rest⟩⟩
  · exact Nat.zero_le 1
  · exact Nat.le_refl 1
  · exact (last byte next rest rfl).elim

private theorem dropLast_eq_nil {ahead : Bytes} (short : ahead.length ≤ 1) :
    ahead.dropLast = [] := by
  apply List.eq_nil_of_length_eq_zero
  rw [List.length_dropLast]
  omega

@[simp] theorem advance_buffer (cursor : Cursor) : cursor.advance.2.buffer = cursor.buffer := by
  unfold advance
  split <;> rfl

@[simp] theorem advance_tokenStart (cursor : Cursor) :
    cursor.advance.2.tokenStart = cursor.tokenStart := by
  unfold advance
  split <;> rfl

@[simp] theorem advance_ahead (cursor : Cursor) :
    cursor.advance.2.ahead = cursor.ahead.tail := by
  unfold advance
  split
  · rfl
  · next last =>
    have short := length_le_one last
    apply (List.eq_nil_of_length_eq_zero _).symm
    rw [List.length_tail]
    omega

theorem advance_line (cursor : Cursor) :
    cursor.advance.2.line =
      cursor.line + (cursor.ahead.dropLast.take 1).count Byte.newline := by
  unfold advance
  split
  · next byte next rest ahead =>
    by_cases newline : byte = Byte.newline <;> simp [ahead, newline]
  · next last => simp [park, dropLast_eq_nil (length_le_one last)]

theorem advance_tokenEnd (cursor : Cursor) :
    cursor.advance.2.tokenEnd = cursor.tokenEnd + (cursor.ahead.dropLast.take 1).length := by
  unfold advance
  split
  · next byte next rest ahead => simp [ahead]
  · next last => simp [park, dropLast_eq_nil (length_le_one last)]

theorem advance_position {cursor : Cursor} (inBuffer : cursor.InBuffer) :
    cursor.advance.2.position = cursor.position + (cursor.ahead.take 1).length := by
  unfold advance
  split
  · next byte next rest ahead => simp [ahead]
  · next last =>
    rw [List.take_of_length_le (length_le_one last), inBuffer.position_add_length]
    exact cursor.size_eq

theorem InBuffer.advance {cursor : Cursor} (inBuffer : cursor.InBuffer) :
    cursor.advance.2.InBuffer := by
  have total := inBuffer.position_add_length
  have taken : (cursor.ahead.take 1).length ≤ cursor.ahead.length := List.length_take_le' _ _
  rw [InBuffer, advance_position inBuffer, advance_buffer]
  omega

/-! ## Any number of steps -/

@[simp] theorem skip_buffer (cursor : Cursor) (count : Nat) :
    (cursor.skip count).buffer = cursor.buffer := by
  induction count generalizing cursor with
  | zero => rfl
  | succ count induction => rw [skip, induction, advance_buffer]

@[simp] theorem skip_size (cursor : Cursor) (count : Nat) :
    (cursor.skip count).size = cursor.size := by
  rw [size_eq, size_eq, skip_buffer]

@[simp] theorem skip_tokenStart (cursor : Cursor) (count : Nat) :
    (cursor.skip count).tokenStart = cursor.tokenStart := by
  induction count generalizing cursor with
  | zero => rfl
  | succ count induction => rw [skip, induction, advance_tokenStart]

@[simp] theorem skip_ahead (cursor : Cursor) (count : Nat) :
    (cursor.skip count).ahead = cursor.ahead.drop count := by
  induction count generalizing cursor with
  | zero => rfl
  | succ count induction => rw [skip, induction, advance_ahead, List.drop_tail]

/-- What a step and the steps after it count, byte by byte. -/
private theorem take_dropLast_succ (ahead : Bytes) (count : Nat) :
    ahead.dropLast.take (count + 1) =
      ahead.dropLast.take 1 ++ ahead.tail.dropLast.take count := by
  rcases ahead with _ | ⟨byte, _ | ⟨next, rest⟩⟩ <;> simp

theorem skip_line (cursor : Cursor) (count : Nat) :
    (cursor.skip count).line =
      cursor.line + (cursor.ahead.dropLast.take count).count Byte.newline := by
  induction count generalizing cursor with
  | zero => simp [skip]
  | succ count induction =>
    rw [skip, induction, advance_line, advance_ahead, take_dropLast_succ cursor.ahead count,
      List.count_append, Nat.add_assoc]

/-- Wherever steps leave a cursor, the line at the end of its buffer is the same. -/
theorem skip_line_add (cursor : Cursor) (count : Nat) :
    (cursor.skip count).line + (cursor.skip count).ahead.dropLast.count Byte.newline =
      cursor.line + cursor.ahead.dropLast.count Byte.newline := by
  have parts : cursor.ahead.dropLast =
      cursor.ahead.dropLast.take count ++ (cursor.skip count).ahead.dropLast := by
    rw [skip_ahead, List.dropLast_eq_take, List.dropLast_eq_take, List.length_drop,
      Nat.sub_right_comm, ← List.drop_take, List.take_append_drop]
  have counts := congrArg (List.count Byte.newline) parts
  rw [List.count_append] at counts
  rw [skip_line, counts, Nat.add_assoc]

theorem skip_tokenEnd (cursor : Cursor) (count : Nat) :
    (cursor.skip count).tokenEnd =
      cursor.tokenEnd + (cursor.ahead.dropLast.take count).length := by
  induction count generalizing cursor with
  | zero => simp [skip]
  | succ count induction =>
    rw [skip, induction, advance_tokenEnd, advance_ahead, take_dropLast_succ cursor.ahead count,
      List.length_append, Nat.add_assoc]

theorem InBuffer.skip {cursor : Cursor} (inBuffer : cursor.InBuffer) (count : Nat) :
    (cursor.skip count).InBuffer := by
  induction count generalizing cursor with
  | zero => exact inBuffer
  | succ count induction => exact induction inBuffer.advance

theorem skip_position {cursor : Cursor} (inBuffer : cursor.InBuffer) (count : Nat) :
    (cursor.skip count).position = cursor.position + (cursor.ahead.take count).length := by
  have before := inBuffer.position_add_length
  have after := (inBuffer.skip count).position_add_length
  rw [skip_ahead, skip_buffer, List.length_drop] at after
  rw [List.length_take]
  omega

theorem skip_add (cursor : Cursor) (first second : Nat) :
    cursor.skip (first + second) = (cursor.skip first).skip second := by
  induction first generalizing cursor with
  | zero => rw [Nat.zero_add, skip]
  | succ first induction => rw [Nat.succ_add, skip, induction, skip]

/-! Over a part of what is ahead. -/

theorem skip_ahead_eq {cursor : Cursor} {part following : Bytes}
    (ahead : cursor.ahead = part ++ following) : (cursor.skip part.length).ahead = following := by
  rw [skip_ahead, ahead, List.drop_left]

theorem skip_position_eq {cursor : Cursor} {part following : Bytes} (inBuffer : cursor.InBuffer)
    (ahead : cursor.ahead = part ++ following) :
    (cursor.skip part.length).position = cursor.position + part.length := by
  rw [skip_position inBuffer, ahead, List.take_left]

/-- All newlines of the part are counted, but for one that the buffer ends with. -/
theorem skip_line_eq {cursor : Cursor} {part following : Bytes}
    (ahead : cursor.ahead = part ++ following)
    (counts : following ≠ [] ∨ part.getLast? ≠ some Byte.newline) :
    (cursor.skip part.length).line = cursor.line + part.count Byte.newline := by
  rw [skip_line, ahead]
  rcases following with _ | ⟨next, following⟩
  · have noNewline := counts.resolve_left fun nonempty => nonempty rfl
    rw [List.append_nil, List.take_of_length_le (by simp)]
    rcases List.eq_nil_or_concat part with rfl | ⟨initial, last, rfl⟩
    · rfl
    · have different : last ≠ Byte.newline := by simpa using noNewline
      simp [List.count_append, different]
  · rw [List.dropLast_append_of_ne_nil (List.cons_ne_nil next following), List.take_left]

theorem skip_all_ahead (cursor : Cursor) : (cursor.skip cursor.ahead.length).ahead = [] := by
  rw [skip_ahead, List.drop_length]

theorem skip_all_position {cursor : Cursor} (inBuffer : cursor.InBuffer) :
    (cursor.skip cursor.ahead.length).position = cursor.buffer.length := by
  rw [skip_position inBuffer, List.take_length, inBuffer.position_add_length]

/-! ## Marks -/

theorem restore_eq {cursor other : Cursor} (buffer : other.buffer = cursor.buffer) :
    other.restore cursor.mark = cursor := by
  apply ext_of
  · exact buffer
  all_goals rfl

end Cursor

end ScriptLexer
