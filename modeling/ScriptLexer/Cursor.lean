import ScriptLexer.Byte
import ScriptLexer.Location

/-!
# The cursor

A cursor walks through a buffer byte by byte and counts the lines that it leaves. It also carries the
bounds of the last token, and the end of that token moves along with every step.

The last byte of the buffer is special: a step from it finds nothing to stand on, so the cursor is
parked behind the buffer and neither a line nor a byte of the token is counted.
-/

namespace ScriptLexer

/-- `size` and `ahead` hold the length of the buffer and the bytes from the current one on, so that a
step need not go through the buffer for them. -/
structure Cursor where
  buffer : Bytes
  size : Nat := buffer.length
  position : Nat := 0
  line : Nat := 1
  tokenStart : Nat := 0
  tokenEnd : Nat := 0
  ahead : Bytes := buffer.drop position
  size_eq : size = buffer.length := by rfl
  ahead_eq : ahead = buffer.drop position := by rfl
deriving DecidableEq

namespace Cursor

/-- At the first byte of `buffer`. -/
def ofBytes (buffer : Bytes) : Cursor where
  buffer := buffer

def empty : Cursor := ofBytes []

instance : Inhabited Cursor := ⟨empty⟩

theorem ext_of {left right : Cursor} (buffer : left.buffer = right.buffer)
    (position : left.position = right.position) (line : left.line = right.line)
    (tokenStart : left.tokenStart = right.tokenStart)
    (tokenEnd : left.tokenEnd = right.tokenEnd) : left = right := by
  rcases left with ⟨_, _, _, _, _, _, _, rfl, rfl⟩
  rcases right with ⟨_, _, _, _, _, _, _, rfl, rfl⟩
  simp_all

/-! Looking at the buffer. -/

def atEnd (cursor : Cursor) : Bool :=
  cursor.ahead.isEmpty

def current (cursor : Cursor) : Option UInt8 :=
  cursor.ahead.head?

/-- The byte `distance` bytes after the current one. -/
def lookAhead (cursor : Cursor) (distance : Nat) : Option UInt8 :=
  cursor.ahead[distance]?

def startsWith (cursor : Cursor) (bytes : Bytes) : Bool :=
  bytes.isPrefixOf cursor.ahead

def place (cursor : Cursor) : Position where
  line := cursor.line
  offset := cursor.position

/-! Moving through the buffer. -/

/-- Behind the last byte, with all that was counted as it was. -/
def park (cursor : Cursor) : Cursor :=
  { cursor with
    position := cursor.size
    ahead := []
    ahead_eq := by rw [cursor.size_eq, List.drop_length] }

/-- Steps to the next byte, if there is one, and parks otherwise. -/
def advance (cursor : Cursor) : Bool × Cursor :=
  match cursor.ahead with
  | byte :: _ :: _ =>
    (true, { cursor with
      position := cursor.position + 1
      line := if byte = Byte.newline then cursor.line + 1 else cursor.line
      tokenEnd := cursor.tokenEnd + 1
      ahead := cursor.ahead.tail
      ahead_eq := by rw [cursor.ahead_eq, List.tail_drop] })
  | _ => (false, cursor.park)

/-- Takes `count` steps and reports which of them found a byte. -/
def advanceBy (cursor : Cursor) : Nat → List Bool × Cursor
  | 0 => ([], cursor)
  | count + 1 =>
    let (moved, next) := cursor.advance
    let (later, last) := next.advanceBy count
    (moved :: later, last)

/-- Takes `count` steps. -/
def skip (cursor : Cursor) : Nat → Cursor
  | 0 => cursor
  | count + 1 => cursor.advance.2.skip count

theorem advanceBy_snd (cursor : Cursor) (count : Nat) :
    (cursor.advanceBy count).2 = cursor.skip count := by
  induction count generalizing cursor with
  | zero => rfl
  | succ count induction => exact induction _

/-! Marking a token. -/

/-- An empty token at the current byte. -/
def beginToken (cursor : Cursor) : Cursor :=
  { cursor with tokenStart := cursor.position, tokenEnd := cursor.position }

/-- Ends the token at `stop`, or as near to it as the buffer and the start of the token allow. -/
def endToken (cursor : Cursor) (stop : Nat) : Cursor :=
  { cursor with tokenEnd := max cursor.tokenStart (min stop cursor.size) }

/-! A mark remembers all of a cursor but its buffer. -/

structure Mark where
  position : Nat
  line : Nat
  tokenStart : Nat
  tokenEnd : Nat
deriving DecidableEq

def mark (cursor : Cursor) : Mark where
  position := cursor.position
  line := cursor.line
  tokenStart := cursor.tokenStart
  tokenEnd := cursor.tokenEnd

def restore (cursor : Cursor) (mark : Mark) : Cursor :=
  { cursor with
    position := mark.position
    line := mark.line
    tokenStart := mark.tokenStart
    tokenEnd := mark.tokenEnd
    ahead := cursor.buffer.drop mark.position
    ahead_eq := rfl }

@[simp] theorem restore_mark (cursor : Cursor) : cursor.restore cursor.mark = cursor := by
  apply ext_of <;> rfl

/-! A walk through two lines of one byte: the newline is counted when it is left, the last byte is
not. -/

example : ((ofBytes [0x61, Byte.newline, 0x62]).advanceBy 4).1 = [true, true, false, false] := rfl
example : ((ofBytes [0x61, Byte.newline, 0x62]).skip 2).place = { line := 2, offset := 2 } := rfl
example : ((ofBytes [0x61, Byte.newline]).skip 3).place = { line := 1, offset := 2 } := rfl

end Cursor

end ScriptLexer
