import ScriptLexer.Proofs.Cursor.Lines
import ScriptLexer.Proofs.Source.Regions

/-!
# The bounds of a cursor

What holds of a cursor after any moves in any order. The end of the token goes along with every step,
also where it was put in front of the cursor before, and so it may come to lie behind the buffer. It
stays within the buffer where tokens are ended at bytes that were read. No move is out of range or too
large for a machine with words of 64 bits.
-/

namespace ScriptLexer

namespace Cursor

/-! ## Moves -/

/-- What can be asked of a cursor. A mark is told by how many others were taken after it. -/
inductive Move where
  | advance
  | beginToken
  | endToken (stop : Nat)
  | mark
  | restore (age : Nat)
deriving DecidableEq

/-- A cursor and the marks that were taken of it, the last one first. -/
structure Course where
  cursor : Cursor
  marks : List Mark
deriving DecidableEq

namespace Course

def start (buffer : Bytes) : Course where
  cursor := ofBytes buffer
  marks := []

/-- Nothing is done where there is no such mark. -/
def move (course : Course) : Move → Course
  | .advance => { course with cursor := course.cursor.advance.2 }
  | .beginToken => { course with cursor := course.cursor.beginToken }
  | .endToken stop => { course with cursor := course.cursor.endToken stop }
  | .mark => { course with marks := course.cursor.mark :: course.marks }
  | .restore age =>
    { course with cursor := (course.marks[age]?.map course.cursor.restore).getD course.cursor }

def moveAll (course : Course) (moves : List Move) : Course :=
  moves.foldl move course

/-- Every token is ended at most where the cursor is then. -/
def EndsRead (course : Course) : List Move → Prop
  | [] => True
  | move :: later =>
    (∀ stop, move = .endToken stop → stop ≤ course.cursor.position) ∧
      (course.move move).EndsRead later

theorem restored_cases (course : Course) (age : Nat) :
    course.move (.restore age) = course ∨
      ∃ mark ∈ course.marks,
        course.move (.restore age) = { course with cursor := course.cursor.restore mark } := by
  cases found : course.marks[age]? with
  | none => exact .inl (by simp [move, found])
  | some mark => exact .inr ⟨mark, List.mem_of_getElem? found, by simp [move, found]⟩

theorem walk_move {buffer : Bytes} {course : Course}
    (walk : Walk buffer course.cursor course.marks) (move : Move) :
    Walk buffer (course.move move).cursor (course.move move).marks := by
  cases move with
  | advance => exact walk.advance
  | beginToken => exact walk.beginToken
  | endToken stop => exact walk.endToken stop
  | mark => exact walk.mark
  | restore age =>
    rcases course.restored_cases age with equal | ⟨mark, member, equal⟩
    · rw [equal]
      exact walk
    · rw [equal]
      exact walk.restore member

theorem walk_moveAll {buffer : Bytes} {course : Course}
    (walk : Walk buffer course.cursor course.marks) (moves : List Move) :
    Walk buffer (course.moveAll moves).cursor (course.moveAll moves).marks := by
  induction moves generalizing course with
  | nil => exact walk
  | cons move later induction => exact induction (walk_move walk move)

end Course

/-! ## Where cursors are after any moves -/

/-- No more lines are counted than bytes were passed. -/
theorem line_le_of_counted {buffer : Bytes} {position line : Nat}
    (counted : Counted buffer position line) : line ≤ position + 1 := by
  have line_eq := counted.line_eq
  have newlines : (buffer.take (min position (buffer.length - 1))).count Byte.newline ≤
      (buffer.take (min position (buffer.length - 1))).length := List.count_le_length
  rw [List.length_take] at newlines
  omega

/-- The start of the token is within the buffer. Its end may be as far behind the buffer as the cursor
has come. -/
structure Mark.Within (size : Nat) (mark : Mark) : Prop where
  position_le : mark.position ≤ size
  tokenStart_le : mark.tokenStart ≤ size
  ordered : mark.tokenStart ≤ mark.tokenEnd
  tokenEnd_le : mark.tokenEnd ≤ size + mark.position

section

variable {cursor : Cursor}

/-- A step moves the cursor at least as far as the end of the token. -/
theorem advance_moves (inBuffer : cursor.InBuffer) :
    ∃ moved counted, cursor.advance.2.position = cursor.position + moved ∧
      cursor.advance.2.tokenEnd = cursor.tokenEnd + counted ∧ counted ≤ moved := by
  refine ⟨_, _, advance_position inBuffer, cursor.advance_tokenEnd, ?_⟩
  simp only [List.length_take, List.length_dropLast]
  omega

theorem within_advance (within : cursor.mark.Within cursor.buffer.length) :
    cursor.advance.2.mark.Within cursor.buffer.length := by
  have inBuffer : cursor.InBuffer := within.position_le
  have behind := inBuffer.advance
  rw [InBuffer, advance_buffer] at behind
  have tokenStart := cursor.advance_tokenStart
  rcases advance_moves inBuffer with ⟨moved, counted, position, tokenEnd, le⟩
  rcases within with ⟨-, start, ordered, stop⟩
  simp only [mark] at start ordered stop
  constructor <;> simp only [mark] <;> omega

theorem within_skip (within : cursor.mark.Within cursor.buffer.length) (count : Nat) :
    (cursor.skip count).mark.Within cursor.buffer.length := by
  induction count generalizing cursor with
  | zero => exact within
  | succ count induction =>
    have step := within_advance within
    rw [← advance_buffer] at step
    have steps := induction step
    rw [advance_buffer] at steps
    exact steps

theorem within_endToken (within : cursor.mark.Within cursor.buffer.length) (stop : Nat) :
    (cursor.endToken stop).mark.Within cursor.buffer.length := by
  rcases within with ⟨position, start, -, -⟩
  simp only [mark] at position start
  constructor <;> simp only [mark, endToken, cursor.size_eq] <;> omega

end

theorem Walk.within {buffer : Bytes} {cursor : Cursor} {marks : List Mark}
    (walk : Walk buffer cursor marks) :
    cursor.mark.Within buffer.length ∧ ∀ mark ∈ marks, mark.Within buffer.length := by
  induction walk with
  | start => exact ⟨⟨Nat.zero_le _, Nat.zero_le _, Nat.le_refl 0, Nat.zero_le _⟩, by simp⟩
  | advance walk induction =>
    rw [← walk.counted.1] at induction ⊢
    exact ⟨within_advance induction.1, induction.2⟩
  | beginToken _ induction =>
    have position := induction.1.position_le
    exact ⟨⟨position, position, Nat.le_refl _, Nat.le_add_left _ _⟩, induction.2⟩
  | endToken stop walk induction =>
    rw [← walk.counted.1] at induction ⊢
    exact ⟨within_endToken induction.1 stop, induction.2⟩
  | skipComment kind walk induction =>
    rw [← walk.counted.1] at induction ⊢
    exact ⟨within_skip induction.1 _, induction.2⟩
  | mark _ induction => exact ⟨induction.1, List.forall_mem_cons.mpr induction⟩
  | restore _ member induction => exact ⟨induction.2 _ member, induction.2⟩

/-! ## Tokens that end at bytes that were read -/

namespace Course

/-- No token ends behind the place that goes with it. -/
def Read (course : Course) : Prop :=
  course.cursor.tokenEnd ≤ course.cursor.position ∧
    ∀ mark ∈ course.marks, mark.tokenEnd ≤ mark.position

theorem Read.move {course : Course} (read : course.Read)
    (within : course.cursor.mark.Within course.cursor.buffer.length) {move : Move}
    (ends : ∀ stop, move = .endToken stop → stop ≤ course.cursor.position) :
    (course.move move).Read := by
  rcases read with ⟨here, marks⟩
  cases move with
  | advance =>
    rcases advance_moves within.position_le with ⟨moved, counted, position, tokenEnd, le⟩
    refine ⟨?_, marks⟩
    simp only [Course.move]
    omega
  | beginToken => exact ⟨Nat.le_refl _, marks⟩
  | endToken stop =>
    have stop_le := ends stop rfl
    have start_le : course.cursor.tokenStart ≤ course.cursor.position :=
      Nat.le_trans within.ordered here
    refine ⟨?_, marks⟩
    simp only [Course.move, endToken]
    omega
  | mark => exact ⟨here, List.forall_mem_cons.mpr ⟨here, marks⟩⟩
  | restore age =>
    rcases course.restored_cases age with equal | ⟨mark, member, equal⟩
    · rw [equal]
      exact ⟨here, marks⟩
    · rw [equal]
      exact ⟨marks mark member, marks⟩

theorem Read.moveAll {buffer : Bytes} {course : Course} (read : course.Read)
    (walk : Walk buffer course.cursor course.marks) {moves : List Move}
    (ends : course.EndsRead moves) : (course.moveAll moves).Read := by
  induction moves generalizing course with
  | nil => exact read
  | cons move later induction =>
    have within := walk.within.1
    rw [← walk.counted.1] at within
    exact induction (read.move within ends.1) (walk_move walk move) ends.2

end Course

/-! ## Moves on a machine

What a machine with words of 64 bits makes of a move. There is no result where a number does not fit
into a word, a byte is not in range, or a number is put between two bounds of which the lower one is
the larger. -/

/-- The number, if a word holds it. -/
def held? (number : Nat) : Option Nat :=
  (Word.ofNat? number).map UInt64.toNat

theorem held?_eq {number : Nat} (fits : number < UInt64.size) : held? number = some number := by
  rcases Word.exists_ofNat? fits with ⟨word, found, equal⟩
  rw [held?, found, Option.map_some, equal]

def advance? (cursor : Cursor) : Option (Bool × Cursor) := do
  let next ← held? (cursor.position + 1)
  if cursor.size ≤ next then
    return (false, cursor.park)
  else
    let byte ← cursor.buffer[cursor.position]?
    let line ← if byte = Byte.newline then held? (cursor.line + 1) else some cursor.line
    let tokenEnd ← held? (cursor.tokenEnd + 1)
    return (true, { cursor with
      position := next
      line
      tokenEnd
      ahead := cursor.buffer.drop next
      ahead_eq := rfl })

def endToken? (cursor : Cursor) (stop : Nat) : Option Cursor :=
  if cursor.tokenStart ≤ cursor.size then some (cursor.endToken stop) else none

namespace Course

def move? (course : Course) : Move → Option Course
  | .advance => course.cursor.advance?.map fun stepped => { course with cursor := stepped.2 }
  | .endToken stop => (course.cursor.endToken? stop).map fun cursor => { course with cursor }
  | .beginToken => some (course.move .beginToken)
  | .mark => some (course.move .mark)
  | .restore age => some (course.move (.restore age))

def moveAll? (course : Course) (moves : List Move) : Option Course :=
  moves.foldlM move? course

end Course

theorem advance?_eq {cursor : Cursor} (within : cursor.mark.Within cursor.buffer.length)
    (line : cursor.line ≤ cursor.position + 1)
    (fits : 2 * cursor.buffer.length < UInt64.size) :
    cursor.advance? = some cursor.advance := by
  have position : cursor.position ≤ cursor.buffer.length := within.position_le
  have tokenEnd : cursor.tokenEnd ≤ cursor.buffer.length + cursor.position := within.tokenEnd_le
  have size := cursor.size_eq
  have length := cursor.length_ahead
  have small : (1 : Nat) < UInt64.size := by decide
  have next : held? (cursor.position + 1) = some (cursor.position + 1) := held?_eq (by omega)
  rcases ahead : cursor.ahead with _ | ⟨byte, _ | ⟨second, rest⟩⟩
  · rw [ahead, List.length_nil] at length
    have last : cursor.size ≤ cursor.position + 1 := by omega
    simp [advance?, advance, next, last, ahead]
  · rw [ahead, List.length_singleton] at length
    have last : cursor.size ≤ cursor.position + 1 := by omega
    simp [advance?, advance, next, last, ahead]
  · rw [ahead, List.length_cons, List.length_cons] at length
    have more : ¬ cursor.size ≤ cursor.position + 1 := by omega
    have current : cursor.buffer[cursor.position]? = some byte := by
      rw [← List.head?_drop, ← cursor.ahead_eq, ahead, List.head?_cons]
    have newLine : held? (cursor.line + 1) = some (cursor.line + 1) := held?_eq (by omega)
    have newEnd : held? (cursor.tokenEnd + 1) = some (cursor.tokenEnd + 1) := held?_eq (by omega)
    unfold advance
    split
    · next equal =>
      rw [ahead] at equal
      cases equal
      have behind : cursor.buffer.drop (cursor.position + 1) = cursor.ahead.tail := by
        rw [cursor.ahead_eq, List.tail_drop]
      by_cases newline : byte = Byte.newline <;>
        simp [advance?, next, more, current, newLine, newEnd, newline, behind]
    · next last => exact (last byte second rest ahead).elim

theorem endToken?_eq {cursor : Cursor} (within : cursor.mark.Within cursor.buffer.length)
    (stop : Nat) : cursor.endToken? stop = some (cursor.endToken stop) := by
  have start : cursor.tokenStart ≤ cursor.size := cursor.size_eq ▸ within.tokenStart_le
  exact if_pos start

namespace Course

theorem move?_eq {buffer : Bytes} {course : Course}
    (walk : Walk buffer course.cursor course.marks) (fits : 2 * buffer.length < UInt64.size)
    (move : Move) : course.move? move = some (course.move move) := by
  rcases walk.counted with ⟨rfl, counted, -⟩
  have within := walk.within.1
  cases move with
  | advance =>
    have line_le := line_le_of_counted counted
    rw [move?, advance?_eq within line_le fits]
    rfl
  | endToken stop =>
    rw [move?, endToken?_eq within stop]
    rfl
  | beginToken | mark | restore => rfl

theorem moveAll?_eq {buffer : Bytes} {course : Course}
    (walk : Walk buffer course.cursor course.marks) (fits : 2 * buffer.length < UInt64.size)
    (moves : List Move) : course.moveAll? moves = some (course.moveAll moves) := by
  induction moves generalizing course with
  | nil => rfl
  | cons move later induction =>
    rw [moveAll?, List.foldlM_cons, move?_eq walk fits move]
    exact induction (walk_move walk move)

end Course

/-! ## The bounds -/

/-- What is asked of a cursor over `buffer`. -/
structure Documented (buffer : Bytes) (cursor : Cursor) : Prop where
  position_le : cursor.position ≤ buffer.length
  ordered : cursor.tokenStart ≤ cursor.tokenEnd
  tokenEnd_le : cursor.tokenEnd ≤ buffer.length
  line_pos : 1 ≤ cursor.line

/-- Moves can be made in any order on a machine, and of their bounds only the end of the token can be
passed. It is kept too where every token is ended at bytes that were read. -/
theorem moves_keep_bounds (buffer : Bytes) (fits : 2 * buffer.length < UInt64.size)
    (moves : List Move) :
    let course := (Course.start buffer).moveAll moves
    (Course.start buffer).moveAll? moves = some course ∧
      course.cursor.buffer = buffer ∧
      course.cursor.position ≤ buffer.length ∧
      course.cursor.tokenStart ≤ buffer.length ∧
      course.cursor.tokenStart ≤ course.cursor.tokenEnd ∧
      course.cursor.tokenEnd ≤ buffer.length + course.cursor.position ∧
      1 ≤ course.cursor.line ∧
      ((Course.start buffer).EndsRead moves → course.cursor.Documented buffer) := by
  intro course
  have begin : Walk buffer (Course.start buffer).cursor (Course.start buffer).marks := .start
  have walk := Course.walk_moveAll begin moves
  rcases walk.counted with ⟨same, counted, -⟩
  rcases walk.within.1 with ⟨position, start, ordered, stop⟩
  have line : 1 ≤ course.cursor.line := counted.line_eq ▸ Nat.le_add_right 1 _
  refine ⟨Course.moveAll?_eq begin fits moves, same, position, start, ordered, stop, line, ?_⟩
  intro ends
  have empty : (Course.start buffer).Read := ⟨Nat.le_refl 0, by simp [Course.start]⟩
  have read := empty.moveAll begin ends
  exact ⟨position, ordered, Nat.le_trans read.1 position, line⟩

theorem moves_keep_bounds_restored :
    let buffer := Utf8.encode "a\nb"
    let moves : List Move :=
      [.advance, .mark, .beginToken, .advance, .endToken 2, .restore 0, .advance]
    2 * buffer.length < UInt64.size ∧ (Course.start buffer).EndsRead moves ∧
      ((Course.start buffer).moveAll moves).cursor.Documented buffer := by
  intro buffer moves
  have fits : 2 * buffer.length < UInt64.size := by decide +kernel
  have position : ((Course.start buffer).moveAll
      [.advance, .mark, .beginToken, .advance]).cursor.position = 2 := by decide +kernel
  have ends : (Course.start buffer).EndsRead moves := by
    simp [moves, Course.EndsRead]
    exact Nat.le_of_eq position.symm
  rcases moves_keep_bounds buffer fits moves with ⟨-, -, -, -, -, -, -, documented⟩
  exact ⟨fits, ends, documented ends⟩

/-- A token that is ended in front of the cursor goes out of the buffer with the next step. -/
theorem tokenEnd_passes_buffer :
    let buffer := Utf8.encode "ab"
    let course := (Course.start buffer).moveAll [.endToken 2, .advance]
    course.cursor.tokenEnd = 3 ∧ ¬ course.cursor.Documented buffer := by
  intro buffer course
  have tokenEnd : course.cursor.tokenEnd = 3 := by decide +kernel
  refine ⟨tokenEnd, fun documented => ?_⟩
  have within := documented.tokenEnd_le
  rw [tokenEnd] at within
  exact absurd within (by decide +kernel)

end Cursor

end ScriptLexer
