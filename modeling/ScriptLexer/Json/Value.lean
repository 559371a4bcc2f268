import ScriptLexer.Json.Number
import ScriptLexer.Json.Text

/-!
# JSON values

Readers for the values that settings are made of, and for passing over values that no setting asks
for. What is passed over must be well formed, but it may be nested to any depth, its numbers may be
out of range, and its strings may spell out half a character.
-/

namespace ScriptLexer

namespace Json

/-! Words. -/

/-- Reads the rest of a word, letter by letter. -/
def readWord (word : List Char) (text : List Char) : Except Fault (Rest text) :=
  match word, text with
  | [], text => .ok (.all text)
  | _ :: _, [] => .error .truncated
  | letter :: word, character :: text =>
    if letter = character then do
      let left ← readWord word text
      return (left.behind character).rest
    else .error .malformed

/-- The rest of the word that `letter` begins. -/
def wordAfter? (letter : Char) : Option (List Char) :=
  [('n', ['u', 'l', 'l']), ('t', ['r', 'u', 'e']), ('f', ['a', 'l', 's', 'e'])].lookup letter

def isNumberStart (character : Char) : Bool :=
  character == '-' || Digits.isDigit 10 character

/-! A value where another type was asked for. Lists and objects are refused at their first character,
other values are read before they are. -/

/-- What is wrong with the value that `text` begins with. -/
def mismatch (text : List Char) : Fault :=
  match skipBlanks text with
  | [] => .truncated
  | first :: rest =>
    if first = '[' ∨ first = '\x7b' then .wrongType
    else if first = '"' then
      match readString rest with
      | .error fault => fault
      | .ok _ => .wrongType
    else if isNumberStart first then Number.mismatch (first :: rest)
    else match wordAfter? first with
      | none => .malformed
      | some word =>
        match readWord word rest with
        | .error fault => fault
        | .ok _ => .wrongType

/-- Reads `true` or `false`. -/
def readTruth (text : List Char) : Except Fault (Bool × Shorter text) :=
  match split : skipBlanks text with
  | [] => .error .truncated
  | first :: rest =>
    if first = 't' ∨ first = 'f' then do
      let left ← readWord ((wordAfter? first).getD []) rest
      return (first = 't', (Shorter.afterBlanks split).andThen left)
    else .error (mismatch text)

/-- Reads a string that is a value. -/
def readText (text : List Char) : Except Fault (String × Shorter text) :=
  match split : skipBlanks text with
  | [] => .error .truncated
  | first :: rest =>
    if first = '"' then do
      let (value, left) ← readString rest
      return (value, (Shorter.afterBlanks split).andThen left.rest)
    else .error (mismatch text)

/-! Passing over a value. The lists and objects that are open are kept on a stack, innermost first. -/

inductive Frame where
  | list
  | object
deriving DecidableEq

def Frame.closer : Frame → Char
  | .list => ']'
  | .object => '\x7d'

/-- Where passing over a value stands. -/
inductive Stage where
  /-- A value is to come. -/
  | value
  /-- The key of a member is to come. -/
  | key
  /-- A value was complete. -/
  | complete
deriving DecidableEq

/-- What comes first inside of a frame, or after a comma in it. -/
def Frame.stage : Frame → Stage
  | .list => .value
  | .object => .key

/-- The stage after a frame was opened by the character before `text`, the frames that are open then,
and what is left. -/
def openFrame (frame : Frame) (frames : List Frame) (text : List Char) :
    Stage × List Frame × Rest text :=
  match split : skipBlanks text with
  | [] => (frame.stage, frame :: frames, .all text)
  | next :: _ =>
    if next = frame.closer then (.complete, frames, (Shorter.afterBlanks split).rest)
    else (frame.stage, frame :: frames, .all text)

/-- Reads what follows the first character of a value that is no list and no object. -/
def skipScalar (first : Char) (text : List Char) : Except Fault (Rest text) :=
  if first = '"' then Shorter.rest <$> skipString text
  else if isNumberStart first then do
    let (_, left) ← Number.read .malformed (first :: text)
    return left.ofFirst
  else match wordAfter? first with
    | none => .error .malformed
    | some word => readWord word text

/-- Reads the next part of a value: a scalar, an opener, a key with its colon, a comma or a closer. -/
def skipPart (stage : Stage) (frames : List Frame) (text : List Char) :
    Except Fault (Stage × List Frame × Shorter text) :=
  match stage, frames with
  | .value, frames =>
    match split : skipBlanks text with
    | [] => .error .truncated
    | first :: rest =>
      if first = '[' ∨ first = '\x7b' then
        let (stage, frames, left) := openFrame (if first = '[' then .list else .object) frames rest
        .ok (stage, frames, (Shorter.afterBlanks split).andThen left)
      else do
        let left ← skipScalar first rest
        return (.complete, frames, (Shorter.afterBlanks split).andThen left)
  | .key, frames => do
    let inside ← expect '"' text
    let behind ← skipString inside.1
    let left ← expect ':' behind.1
    return (.value, frames, inside.andThen (behind.andThen left.rest).rest)
  | .complete, [] => .error .malformed
  | .complete, frame :: frames => do
    let (more, left) ← separator frame.closer text
    return if more then (frame.stage, frame :: frames, left) else (.complete, frames, left)

/-- Passes over what is left of a value, and gives what follows it. -/
def skipFrom (stage : Stage) (frames : List Frame) (text : List Char) : Except Fault (Rest text) :=
  if stage = .complete ∧ frames = [] then .ok (.all text)
  else do
    let (stage, frames, left) ← skipPart stage frames text
    let rest ← skipFrom stage frames left.1
    return (left.andThen rest).rest
  termination_by text.length
  decreasing_by exact left.2

/-- Passes over a value of any type. -/
def skipValue (text : List Char) : Except Fault (Shorter text) := do
  let (stage, frames, left) ← skipPart .value [] text
  let rest ← skipFrom stage frames left.1
  return left.andThen rest

/-! What is passed over need not have a value, but it must have the form of one. -/

example : (skipValue "[1e999, [\"\\ud800\"]], 2".toList).toOption.map (·.1) = some ", 2".toList := by
  decide +kernel
example : (skipValue "[1,]".toList).toOption.isNone = true := by decide +kernel

end Json

end ScriptLexer
