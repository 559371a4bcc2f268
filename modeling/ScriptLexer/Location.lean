/-!
# Places in the input

A position is a line and a byte offset, a span the bytes between two positions. Both are written for
people to read in messages and listings.
-/

namespace ScriptLexer

/-- Lines count from one, bytes from zero. -/
structure Position where
  line : Nat := 1
  offset : Nat := 0
deriving DecidableEq

namespace Position

instance : Inhabited Position := ⟨{}⟩

def text (position : Position) : String :=
  s!"line {position.line} (byte {position.offset})"

end Position

/-- The bytes from `start` up to and without `stop`. -/
structure Span where
  start : Position := {}
  stop : Position := {}
deriving DecidableEq

namespace Span

instance : Inhabited Span := ⟨{}⟩

/-- A span that stops before it starts holds nothing. -/
def length (span : Span) : Nat :=
  span.stop.offset - span.start.offset

def isEmpty (span : Span) : Bool :=
  span.length == 0

/-- A span within one line names the line once. -/
def text (span : Span) : String :=
  if span.start.line = span.stop.line then
    s!"line {span.start.line} (bytes {span.start.offset}..{span.stop.offset})"
  else
    s!"{span.start.text} to {span.stop.text}"

example : ({ stop := { offset := 4 } } : Span).text = "line 1 (bytes 0..4)" := rfl
example : ({ stop := { line := 3, offset := 12 } } : Span).text =
    "line 1 (byte 0) to line 3 (byte 12)" := rfl

end Span

end ScriptLexer
