import ScriptLexer.Proofs.Cursor.Steps

/-!
# Runs of steps

What steps come to that are taken one after the other, and where they are taken from. They find another
byte as long as there is one, set out once from every byte that is left, and change nothing anymore
when the cursor is parked.
-/

namespace ScriptLexer

namespace Cursor

/-- The bytes that steps set out from, each with its offset. -/
def passed (cursor : Cursor) : (count : Nat) → List (UInt8 × Nat)
  | 0 => []
  | count + 1 =>
    (cursor.current.map (·, cursor.position)).toList ++ cursor.advance.2.passed count

variable {cursor : Cursor}

theorem atEnd_iff : cursor.atEnd = true ↔ cursor.buffer.length ≤ cursor.position := by
  rw [atEnd, List.isEmpty_iff, ← List.length_eq_zero_iff, length_ahead]
  omega

/-- A step finds a byte if the byte that it leaves is not the last one. -/
theorem advance_fst : cursor.advance.1 = decide (cursor.position + 1 < cursor.buffer.length) := by
  have length := cursor.length_ahead
  rcases ahead : cursor.ahead with _ | ⟨byte, _ | ⟨next, rest⟩⟩
  · rw [ahead, List.length_nil] at length
    simp only [advance, ahead]
    exact (decide_eq_false (by omega)).symm
  · rw [ahead, List.length_singleton] at length
    simp only [advance, ahead]
    exact (decide_eq_false (by omega)).symm
  · rw [ahead, List.length_cons, List.length_cons] at length
    have moved : cursor.advance.1 = true := by
      unfold advance
      split
      · rfl
      · next last => exact (last byte next rest ahead).elim
    rw [moved]
    exact (decide_eq_true (by omega)).symm

theorem advance_tokenEnd_eq :
    cursor.advance.2.tokenEnd = cursor.tokenEnd + cursor.advance.1.toNat := by
  have length := cursor.length_ahead
  rw [advance_tokenEnd, advance_fst, List.length_take, List.length_dropLast]
  by_cases more : cursor.position + 1 < cursor.buffer.length
  · rw [decide_eq_true more, Bool.toNat_true]
    omega
  · rw [decide_eq_false more, Bool.toNat_false]
    omega

theorem skip_position_min (inBuffer : cursor.InBuffer) (count : Nat) :
    (cursor.skip count).position = min (cursor.position + count) cursor.buffer.length := by
  rw [skip_position inBuffer, List.length_take, length_ahead]
  rw [InBuffer] at inBuffer
  omega

theorem advance_position_min (inBuffer : cursor.InBuffer) :
    cursor.advance.2.position = min (cursor.position + 1) cursor.buffer.length :=
  skip_position_min inBuffer 1

/-! ## What a run of steps reports -/

/-- How many of `count` steps find a byte: as many as there are bytes behind the current one. -/
def moves (cursor : Cursor) (count : Nat) : Nat :=
  min count (cursor.buffer.length - 1 - cursor.position)

/-- From the last byte or behind it no step finds another one. -/
theorem moves_of_last (last : ¬ cursor.position + 1 < cursor.buffer.length) (count : Nat) :
    cursor.moves count = 0 := by
  rw [moves]
  omega

theorem moves_advance (inBuffer : cursor.InBuffer) (count : Nat) :
    cursor.moves (count + 1) = cursor.advance.1.toNat + cursor.advance.2.moves count := by
  rw [moves, moves, advance_position_min inBuffer, advance_buffer, advance_fst]
  by_cases more : cursor.position + 1 < cursor.buffer.length
  · rw [decide_eq_true more, Bool.toNat_true]
    omega
  · rw [decide_eq_false more, Bool.toNat_false]
    omega

theorem advanceBy_fst_succ (count : Nat) :
    (cursor.advanceBy (count + 1)).1 = cursor.advance.1 :: (cursor.advance.2.advanceBy count).1 :=
  rfl

/-- Once a step finds no byte, no later one does. -/
theorem advanceBy_fst (inBuffer : cursor.InBuffer) (count : Nat) :
    (cursor.advanceBy count).1 =
      List.replicate (cursor.moves count) true ++
        List.replicate (count - cursor.moves count) false := by
  induction count generalizing cursor with
  | zero => simp [advanceBy, moves]
  | succ count induction =>
    rw [advanceBy_fst_succ, induction inBuffer.advance, moves_advance inBuffer]
    cases moved : cursor.advance.1 with
    | true =>
      rw [Bool.toNat_true, Nat.add_comm 1, Nat.add_sub_add_right, List.replicate_succ,
        List.cons_append]
    | false =>
      -- The byte that was left is the last one, and it stays so for all later steps.
      have last : ¬ cursor.position + 1 < cursor.buffer.length := by
        rw [advance_fst] at moved
        exact of_decide_eq_false moved
      have none : cursor.advance.2.moves count = 0 := by
        have total := moves_advance inBuffer count
        rw [moves_of_last last, moved, Bool.toNat_false] at total
        omega
      rw [none]
      rfl

theorem skip_tokenEnd_eq (count : Nat) :
    (cursor.skip count).tokenEnd = cursor.tokenEnd + (cursor.advanceBy count).1.count true := by
  induction count generalizing cursor with
  | zero => rfl
  | succ count induction =>
    rw [skip, induction, advance_tokenEnd_eq, advanceBy_fst_succ, List.count_cons]
    cases cursor.advance.1 with
    | true =>
      rw [Bool.toNat_true, if_pos (by decide)]
      omega
    | false => rw [Bool.toNat_false, if_neg (by decide), Nat.add_zero, Nat.add_zero]

/-! ## What a run of steps goes through -/

theorem passed_eq (inBuffer : cursor.InBuffer) (count : Nat) :
    cursor.passed count = (cursor.buffer.zipIdx.drop cursor.position).take count := by
  induction count generalizing cursor with
  | zero => rfl
  | succ count induction =>
    rw [passed, induction inBuffer.advance, advance_buffer, advance_position_min inBuffer]
    by_cases more : cursor.position < cursor.buffer.length
    · have here : cursor.current = some cursor.buffer[cursor.position] := by
        rw [current, cursor.ahead_eq, List.head?_drop, List.getElem?_eq_getElem more]
      have shorter : cursor.position < cursor.buffer.zipIdx.length := by
        rw [List.length_zipIdx]
        exact more
      rw [here, Nat.min_eq_left more, List.drop_eq_getElem_cons shorter]
      simp
    · have parked : cursor.buffer.length ≤ cursor.position := Nat.le_of_not_lt more
      have here : cursor.current = none := by
        rw [current, cursor.ahead_eq, List.drop_of_length_le parked, List.head?_nil]
      have none {start : Nat} (behind : cursor.buffer.length ≤ start) :
          cursor.buffer.zipIdx.drop start = [] :=
        List.drop_of_length_le (by rw [List.length_zipIdx]; exact behind)
      rw [here, none (by omega), none parked, List.take_nil, List.take_nil]
      rfl

/-- A run of steps finds a byte as often as there is one behind the current byte, and no more after
that. It goes once through every byte that is left, in order, before the cursor is parked, and the token
ends as many bytes further as were found. -/
theorem run_of_steps (cursor : Cursor) (inBuffer : cursor.InBuffer) (count : Nat) :
    let run := cursor.advanceBy count
    let moves := min count (cursor.buffer.length - 1 - cursor.position)
    run.1 = List.replicate moves true ++ List.replicate (count - moves) false ∧
      run.2.position = min (cursor.position + count) cursor.buffer.length ∧
      run.2.tokenEnd = cursor.tokenEnd + run.1.count true ∧
      run.2.buffer = cursor.buffer ∧
      run.2.tokenStart = cursor.tokenStart ∧
      cursor.passed count = (cursor.buffer.zipIdx.drop cursor.position).take count ∧
      (run.2.atEnd = true ↔ cursor.buffer.length ≤ cursor.position + count) := by
  intro run moves
  have after : run.2 = cursor.skip count := cursor.advanceBy_snd count
  have position : run.2.position = min (cursor.position + count) cursor.buffer.length := by
    rw [after, skip_position_min inBuffer]
  have buffer : run.2.buffer = cursor.buffer := by rw [after, skip_buffer]
  refine ⟨advanceBy_fst inBuffer count, position, ?_, buffer, ?_, passed_eq inBuffer count, ?_⟩
  · rw [after, skip_tokenEnd_eq]
  · rw [after, skip_tokenStart]
  · rw [atEnd_iff, position, buffer]
    omega

/-- From the second of four bytes: two steps find a byte, and the third one parks. -/
theorem run_of_steps_parked :
    let cursor := (ofBytes (Utf8.encode "a\nbc")).skip 1
    cursor.InBuffer ∧
      (cursor.advanceBy 5).1 = [true, true, false, false, false] ∧
      (cursor.advanceBy 5).2.position = 4 ∧
      cursor.passed 5 = [(Byte.newline, 1), (0x62, 2), (0x63, 3)] := by
  intro cursor
  have inBuffer : cursor.InBuffer := (inBuffer_ofBytes _).skip 1
  rcases run_of_steps cursor inBuffer 5 with ⟨reports, position, -, -, -, passed, -⟩
  exact ⟨inBuffer, reports, position, passed⟩

end Cursor

end ScriptLexer
