import Mathlib.Order.Bounds.Defs
import ScriptLexer.Comment
import ScriptLexer.Proofs.Cursor.Steps

/-!
# Comments are skipped to behind their first closer

A comment is skipped from any byte of it, and from a byte that is in none as well: the cursor goes
behind the first closer that it finds from there on, or behind the buffer. Looking for that closer step
by step comes to the same, although a step from the last byte is none.
-/

namespace ScriptLexer

/-! ## The first closer in some bytes -/

namespace CommentKind

/-- What closes a comment of this kind is found at `place`. -/
def ClosesAt (kind : CommentKind) (bytes : Bytes) (place : Nat) : Prop :=
  match kind with
  | .block => bytes[place]? = some Byte.star ∧ bytes[place + 1]? = some Byte.slash
  | .doubleSlash | .doubleHash | .semicolon =>
    bytes[place]? = some Byte.newline ∨ bytes[place]? = some Byte.carriageReturn

instance (kind : CommentKind) (bytes : Bytes) (place : Nat) : Decidable (kind.ClosesAt bytes place) :=
  match kind with
  | .block => inferInstanceAs (Decidable (_ ∧ _))
  | .doubleSlash | .doubleHash | .semicolon => inferInstanceAs (Decidable (_ ∨ _))

def closerLength : CommentKind → Nat
  | .block => 2
  | .doubleSlash | .doubleHash | .semicolon => 1

section

variable (kind : CommentKind)

theorem not_closesAt_nil (place : Nat) : ¬ kind.ClosesAt [] place := by
  cases kind <;> simp [ClosesAt]

theorem closesAt_cons_succ (byte : UInt8) (rest : Bytes) (place : Nat) :
    kind.ClosesAt (byte :: rest) (place + 1) ↔ kind.ClosesAt rest place := by
  cases kind <;> simp [ClosesAt]

theorem closesAt_drop (bytes : Bytes) (start place : Nat) :
    kind.ClosesAt (bytes.drop start) place ↔ kind.ClosesAt bytes (start + place) := by
  cases kind <;> simp [ClosesAt, Nat.add_assoc]

/-- One byte further there is the same closer to be found, unless it is found here. -/
theorem length_cons_of_closesAt {byte : UInt8} {rest : Bytes}
    (closes : kind.ClosesAt (byte :: rest) 0) : kind.length (byte :: rest) = kind.closerLength := by
  cases kind <;>
    simp_all [ClosesAt, length, blockLength, lineLength, closerLength, Byte.isLineEnd,
      List.head?_eq_getElem?]

theorem length_cons_of_not_closesAt {byte : UInt8} {rest : Bytes}
    (goesOn : ¬ kind.ClosesAt (byte :: rest) 0) :
    kind.length (byte :: rest) = kind.length rest + 1 := by
  cases kind <;>
    simp_all [ClosesAt, length, blockLength, lineLength, Byte.isLineEnd, List.head?_eq_getElem?]

theorem length_eq_of_isLeast {bytes : Bytes} {place : Nat}
    (first : IsLeast {place | kind.ClosesAt bytes place} place) :
    kind.length bytes = place + kind.closerLength := by
  induction bytes generalizing place with
  | nil => exact (kind.not_closesAt_nil place first.1).elim
  | cons byte rest induction =>
    by_cases closes : kind.ClosesAt (byte :: rest) 0
    · have here : place = 0 := Nat.le_zero.mp (first.2 closes)
      rw [kind.length_cons_of_closesAt closes, here, Nat.zero_add]
    · cases place with
      | zero => exact (closes first.1).elim
      | succ place =>
        have later : IsLeast {place | kind.ClosesAt rest place} place := by
          refine ⟨(kind.closesAt_cons_succ byte rest place).mp first.1, fun other isCloser => ?_⟩
          exact Nat.le_of_succ_le_succ
            (first.2 ((kind.closesAt_cons_succ byte rest other).mpr isCloser))
        rw [kind.length_cons_of_not_closesAt closes, induction later, Nat.add_right_comm]

theorem length_eq_of_none {bytes : Bytes} (absent : ∀ place, ¬ kind.ClosesAt bytes place) :
    kind.length bytes = bytes.length := by
  induction bytes with
  | nil => cases kind <;> rfl
  | cons byte rest induction =>
    rw [kind.length_cons_of_not_closesAt (absent 0), List.length_cons,
      induction fun place closes => absent _ ((kind.closesAt_cons_succ byte rest place).mpr closes)]

end

end CommentKind

namespace Cursor

variable {cursor : Cursor}

/-! ## Step by step -/

theorem length_advance_lt (moved : cursor.advance.1 = true) :
    cursor.advance.2.ahead.length < cursor.ahead.length := by
  rw [advance_ahead, List.length_tail]
  rcases ahead : cursor.ahead with _ | ⟨byte, rest⟩
  · simp [advance, ahead] at moved
  · simp

/-- Steps up to the end of the line and over it. -/
def seekLineEnd (cursor : Cursor) : Cursor :=
  match cursor.current with
  | none => cursor.advance.2
  | some byte =>
    if Byte.isLineEnd byte then cursor.advance.2
    else if _ : cursor.advance.1 = true then cursor.advance.2.seekLineEnd
    else cursor.advance.2
termination_by cursor.ahead.length
decreasing_by exact length_advance_lt ‹_›

/-- Steps up to `*/` and over it. -/
def seekBlockEnd (cursor : Cursor) : Cursor :=
  if cursor.startsWith [Byte.star, Byte.slash] then cursor.advance.2.advance.2
  else if _ : cursor.advance.1 = true then cursor.advance.2.seekBlockEnd
  else cursor.advance.2
termination_by cursor.ahead.length
decreasing_by exact length_advance_lt ‹_›

def seekEnd (cursor : Cursor) : CommentKind → Cursor
  | .block => cursor.seekBlockEnd
  | .doubleSlash | .doubleHash | .semicolon => cursor.seekLineEnd

/-- At the end there is nothing to step over. -/
theorem advance_of_ahead_nil (inBuffer : cursor.InBuffer) (ahead : cursor.ahead = []) :
    cursor.advance.2 = cursor := by
  have total := inBuffer.position_add_length
  rw [ahead, List.length_nil, Nat.add_zero, ← cursor.size_eq] at total
  have parked : cursor.advance.2 = cursor.park := by simp [advance, ahead]
  rw [parked]
  exact ext_of rfl total.symm rfl rfl rfl

/-- A step that finds no byte leaves none ahead, so the steps that are left do nothing. -/
theorem skip_of_not_moved (inBuffer : cursor.InBuffer) (stays : ¬ cursor.advance.1 = true)
    (count : Nat) : cursor.advance.2.skip count = cursor.advance.2 := by
  have ahead : cursor.advance.2.ahead = [] := by
    rw [advance_ahead]
    rcases equal : cursor.ahead with _ | ⟨byte, _ | ⟨next, rest⟩⟩
    · rfl
    · rfl
    · simp [advance, equal] at stays
  induction count with
  | zero => rfl
  | succ count induction => rw [skip, advance_of_ahead_nil inBuffer.advance ahead, induction]

theorem seekLineEnd_eq (inBuffer : cursor.InBuffer) :
    cursor.seekLineEnd = cursor.skip (CommentKind.lineLength cursor.ahead) := by
  fun_induction seekLineEnd cursor with
  | case1 cursor atEnd =>
    have ahead : cursor.ahead = [] := List.head?_eq_none_iff.mp atEnd
    rw [ahead]
    exact advance_of_ahead_nil inBuffer ahead
  | case2 cursor byte current isEnd =>
    rcases List.head?_eq_some_iff.mp current with ⟨rest, ahead⟩
    rw [ahead, CommentKind.lineLength, if_pos isEnd]
    rfl
  | case3 cursor byte current goesOn moved induction =>
    rcases List.head?_eq_some_iff.mp current with ⟨rest, ahead⟩
    rw [induction inBuffer.advance, advance_ahead, ahead, CommentKind.lineLength, if_neg goesOn]
    rfl
  | case4 cursor byte current goesOn stays =>
    rcases List.head?_eq_some_iff.mp current with ⟨rest, ahead⟩
    rw [ahead, CommentKind.lineLength, if_neg goesOn]
    exact (skip_of_not_moved inBuffer stays _).symm

private theorem begins_closer_iff {byte : UInt8} {rest : Bytes} :
    [Byte.star, Byte.slash].isPrefixOf (byte :: rest) = true ↔
      byte = Byte.star ∧ rest.head? = some Byte.slash := by
  rcases rest with _ | ⟨next, rest⟩
  · simp [List.isPrefixOf]
  · simpa [List.isPrefixOf] using and_congr eq_comm eq_comm

theorem seekBlockEnd_eq (inBuffer : cursor.InBuffer) :
    cursor.seekBlockEnd = cursor.skip (CommentKind.blockLength cursor.ahead) := by
  fun_induction seekBlockEnd cursor with
  | case1 cursor closes =>
    rcases List.isPrefixOf_iff_prefix.mp closes with ⟨rest, ahead⟩
    rw [← ahead]
    rfl
  | case2 cursor goesOn moved induction =>
    rcases ahead : cursor.ahead with _ | ⟨byte, rest⟩
    · simp [advance, ahead] at moved
    · rw [startsWith, ahead, begins_closer_iff] at goesOn
      rw [induction inBuffer.advance, advance_ahead, ahead, CommentKind.blockLength, if_neg goesOn]
      rfl
  | case3 cursor goesOn stays =>
    rcases ahead : cursor.ahead with _ | ⟨byte, rest⟩
    · exact advance_of_ahead_nil inBuffer ahead
    · rw [startsWith, ahead, begins_closer_iff] at goesOn
      rw [CommentKind.blockLength, if_neg goesOn]
      exact (skip_of_not_moved inBuffer stays _).symm

theorem seekEnd_eq (inBuffer : cursor.InBuffer) (kind : CommentKind) :
    cursor.seekEnd kind = cursor.skipComment kind := by
  cases kind with
  | block => exact seekBlockEnd_eq inBuffer
  | doubleSlash | doubleHash | semicolon => exact seekLineEnd_eq inBuffer

/-! ## Where a comment ends -/

theorem closesAt_ahead (kind : CommentKind) (place : Nat) :
    kind.ClosesAt cursor.ahead place ↔ kind.ClosesAt cursor.buffer (cursor.position + place) := by
  rw [cursor.ahead_eq]
  exact kind.closesAt_drop _ _ _

theorem skipComment_position (inBuffer : cursor.InBuffer) (kind : CommentKind) :
    (cursor.skipComment kind).position = cursor.position + kind.length cursor.ahead := by
  rw [skipComment, skip_position inBuffer, List.length_take_of_le (kind.length_le _)]

/-- A comment that was found is not empty. -/
theorem position_lt_skipComment (inBuffer : cursor.InBuffer) {rules : CommentRules}
    {kind : CommentKind} (found : cursor.detect rules = some kind) :
    cursor.position < (cursor.skipComment kind).position := by
  rw [skipComment_position inBuffer]
  rcases ahead : cursor.ahead with _ | ⟨byte, rest⟩
  · rw [detect, ahead, CommentRules.detect_nil] at found
    cases found
  · exact Nat.lt_add_of_pos_right (kind.length_pos byte rest)

/-- A comment of any kind is skipped from any place to right behind the first closer from there on, or
to the end of the buffer if there is none, and stepping up to the closer leads to the same cursor. One
that was found is never skipped to where it begins. -/
theorem comment_skipped_behind_first_closer (cursor : Cursor) (kind : CommentKind)
    (inBuffer : cursor.InBuffer) :
    let after := cursor.skipComment kind
    cursor.seekEnd kind = after ∧
      after.buffer = cursor.buffer ∧
      after.tokenStart = cursor.tokenStart ∧
      (∀ place,
        IsLeast {place | cursor.position ≤ place ∧ kind.ClosesAt cursor.buffer place} place →
          after.position = place + kind.closerLength) ∧
      ((∀ place, cursor.position ≤ place → ¬ kind.ClosesAt cursor.buffer place) →
        after.position = cursor.buffer.length) ∧
      ∀ rules, cursor.detect rules = some kind → cursor.position < after.position := by
  intro after
  have position : after.position = cursor.position + kind.length cursor.ahead :=
    skipComment_position inBuffer kind
  refine ⟨seekEnd_eq inBuffer kind, skip_buffer _ _, skip_tokenStart _ _, ?_, ?_,
    fun rules found => position_lt_skipComment inBuffer found⟩
  · rintro place ⟨⟨fromHere, closes⟩, least⟩
    rcases Nat.exists_eq_add_of_le fromHere with ⟨distance, rfl⟩
    have first : IsLeast {place | kind.ClosesAt cursor.ahead place} distance := by
      refine ⟨(closesAt_ahead kind distance).mpr closes, fun other isCloser => ?_⟩
      exact Nat.le_of_add_le_add_left
        (least ⟨Nat.le_add_right _ _, (closesAt_ahead kind other).mp isCloser⟩)
    rw [position, kind.length_eq_of_isLeast first, Nat.add_assoc]
  · intro absent
    have none : ∀ place, ¬ kind.ClosesAt cursor.ahead place := fun place closes =>
      absent _ (Nat.le_add_right _ _) ((closesAt_ahead kind place).mp closes)
    rw [position, kind.length_eq_of_none none, inBuffer.position_add_length]

/-- A star without a slash behind it, and a closer that ends with the buffer. -/
theorem comment_skipped_behind_first_closer_last :
    let cursor := (ofBytes (Utf8.encode "/**/")).skip 1
    cursor.InBuffer ∧ (cursor.seekEnd .block).position = 4 := by
  intro cursor
  have inBuffer : cursor.InBuffer := (inBuffer_ofBytes _).skip 1
  rcases comment_skipped_behind_first_closer cursor .block inBuffer with ⟨same, -, -, closed, -⟩
  have first : IsLeast {place | cursor.position ≤ place ∧
      CommentKind.block.ClosesAt cursor.buffer place} 2 := by
    refine ⟨⟨by decide +kernel, by decide +kernel⟩, ?_⟩
    rintro place ⟨fromHere, closes⟩
    refine Nat.lt_of_le_of_ne fromHere ?_
    rintro rfl
    exact absurd closes (by decide +kernel)
  rw [same]
  exact ⟨inBuffer, closed 2 first⟩

end Cursor

end ScriptLexer
