import ScriptLexer.Source.Error
import ScriptLexer.Text.Utf8

/-!
# Sources of bytes

Every source comes down to one list of bytes or one error. Texts and files are read in part, by
offset and length; memory needs a length; a reader is read to its end.
-/

namespace ScriptLexer

/-- The part of a source to load. No length, like one that is too long, means up to the end. -/
structure Region where
  offset : Nat := 0
  length : Nat := 0
deriving DecidableEq

namespace Region

/-- All of a source. -/
def whole : Region := {}

/-- The number of bytes that the region takes from a source of `size` bytes. -/
def clamp (region : Region) (name : String) (size : Nat) : Except LoadError Nat :=
  if size < region.offset then
    .error (.offsetOutOfRange name region.offset size)
  else
    let available := size - region.offset
    .ok (if region.length = 0 ∨ available < region.length then available else region.length)

/-- The bytes of the region. -/
def select (region : Region) (name : String) (bytes : Bytes) : Except LoadError Bytes := do
  let length ← region.clamp name bytes.length
  return (bytes.drop region.offset).take length

end Region

/-- What one read from a reader comes to. Empty data is the end of the stream. -/
inductive Read where
  | data (bytes : Bytes)
  /-- Nothing was read and the read is to be tried again. -/
  | interrupted
  | failure (reason : String)
deriving DecidableEq

/-- All bytes up to the end of the stream, which comes with the last read at the latest, or the
reason of the first failure before it. -/
def Read.collect : List Read → Except String Bytes
  | [] => .ok []
  | .data [] :: _ => .ok []
  | .data bytes :: later => (bytes ++ ·) <$> collect later
  | .interrupted :: later => collect later
  | .failure reason :: _ => .error reason

/-- How files are opened: the contents of the file at a path, or the reason why there are none. -/
abbrev FileAccess := String → Except String Bytes

inductive Source where
  | text (written : String) (region : Region)
  | file (path : String) (region : Region)
  | memory (bytes : Bytes) (length : Nat)
  | owned (bytes : Bytes)
  | reader (reads : List Read)
deriving DecidableEq

/-- The bytes of a source. The name only labels errors. -/
def Source.read (source : Source) (files : FileAccess) (name : String) : Except LoadError Bytes :=
  match source with
  | .text written region => region.select name (Utf8.encode written)
  | .file path region =>
    match files path with
    | .ok bytes => region.select name bytes
    | .error reason => .error (.unreadable name reason)
  | .memory bytes length =>
    if length = 0 then .error .lengthNotSpecified
    else if bytes.length < length then .error (.lengthOutOfBounds length bytes.length)
    else .ok (bytes.take length)
  | .owned bytes => .ok bytes
  | .reader reads => (Read.collect reads).mapError (.unreadable name)

/-! A region that starts at the end is empty, one that starts behind it is an error. -/

example : ({ offset := 2, length := 9 } : Region).select "lump" [1, 2, 3] = .ok [3] := rfl
example : ({ offset := 3 } : Region).select "lump" [1, 2, 3] = .ok [] := rfl
example : ({ offset := 4 } : Region).select "lump" [1, 2, 3] =
    .error (.offsetOutOfRange "lump" 4 3) := rfl
example : Read.collect [.data [1], .interrupted, .data [2], .data [], .failure "late"] =
    .ok [1, 2] := rfl

end ScriptLexer
