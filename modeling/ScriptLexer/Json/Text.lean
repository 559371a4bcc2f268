import ScriptLexer.Json.Fault
import ScriptLexer.Text.Digits
import ScriptLexer.Text.Utf8

/-!
# JSON strings

A string is written with the shortest escapes, and only where there must be one. It is read in two
steps. The first cuts it into pieces, which are characters and the sixteen-bit units that `\u` escapes
spell out, and finds its end; that is all that is needed to pass over a string. The second joins the
units to characters: a unit of a pair counts for nothing without the other one right behind it.
-/

namespace ScriptLexer

namespace Json

/-! Writing. -/

/-- How a character is written inside a string. -/
def escape (character : Char) : List Char :=
  if character = '"' then ['\\', '"']
  else if character = '\\' then ['\\', '\\']
  else if character = '\x08' then ['\\', 'b']
  else if character = '\x0C' then ['\\', 'f']
  else if character = '\n' then ['\\', 'n']
  else if character = '\r' then ['\\', 'r']
  else if character = '\t' then ['\\', 't']
  else if character.toNat < 0x20 then
    ['\\', 'u', '0', '0', Nat.digitChar (character.toNat / 16), Nat.digitChar (character.toNat % 16)]
  else [character]

def quote (text : String) : String :=
  String.ofList ('"' :: text.toList.flatMap escape ++ ['"'])

/-! Cutting into pieces. -/

inductive Piece where
  | character (character : Char)
  | unit (code : Nat)
deriving DecidableEq

/-- The character that a backslash and a letter stand for. -/
def unescape? (letter : Char) : Option Char :=
  [('"', '"'), ('\\', '\\'), ('/', '/'), ('b', '\x08'), ('f', '\x0C'), ('n', '\n'), ('r', '\r'),
    ('t', '\t')].lookup letter

/-- The unit that hexadecimal digits spell out. -/
def unit? (digits : List Char) : Option Nat :=
  if digits.all (Digits.isDigit 16) then some (Digits.toNat 16 (digits.map Digits.value)) else none

/-- Pieces up to the end of a string, and what follows its closing quote, or why there is no end. -/
structure Pieces where
  pieces : List Piece
  stop : Except Fault (List Char)

namespace Pieces

def cons (piece : Piece) (later : Pieces) : Pieces :=
  { later with pieces := piece :: later.pieces }

def fail (fault : Fault) : Pieces where
  pieces := []
  stop := .error fault

/-- The pieces of `text`, which begins behind an opening quote. Where the text ends within four digits,
it is their bytes that are missing, not the characters. -/
def ofText : List Char → Pieces
  | [] => fail .truncated
  | character :: rest =>
    if character = '"' then { pieces := [], stop := .ok rest }
    else if character = '\\' then
      match rest with
      | 'u' :: first :: second :: third :: fourth :: rest =>
        match unit? [first, second, third, fourth] with
        | some code => cons (.unit code) (ofText rest)
        | none => fail .malformed
      | 'u' :: digits =>
        fail (if (Utf8.encode (String.ofList digits)).length < 4 then .truncated else .malformed)
      | letter :: rest =>
        match unescape? letter with
        | some escaped => cons (.character escaped) (ofText rest)
        | none => fail .malformed
      | [] => fail .truncated
    else if character.toNat < 0x20 then fail .malformed
    else cons (.character character) (ofText rest)

theorem length_stop_lt (text : List Char) (rest : List Char) (stop : (ofText text).stop = .ok rest) :
    rest.length < text.length := by
  fun_induction ofText text with
  | case1 => cases stop
  | case2 => cases stop; exact Nat.lt_succ_self _
  | case3 _ _ _ _ _ _ _ _ induction =>
    have shorter := induction stop
    simp only [List.length_cons]
    omega
  | case4 => cases stop
  | case5 => cases stop
  | case6 _ _ _ _ _ _ _ induction =>
    have shorter := induction stop
    simp only [List.length_cons]
    omega
  | case7 => cases stop
  | case8 => cases stop
  | case9 => cases stop
  | case10 _ _ _ _ _ induction =>
    have shorter := induction stop
    simp only [List.length_cons]
    omega

end Pieces

/-- Passes over a string. -/
def skipString (text : List Char) : Except Fault (Shorter text) :=
  match found : (Pieces.ofText text).stop with
  | .error fault => .error fault
  | .ok rest => .ok ⟨rest, Pieces.length_stop_lt text rest found⟩

/-! Joining units. -/

def isHighUnit (code : Nat) : Bool :=
  0xD800 ≤ code && code < 0xDC00

def isLowUnit (code : Nat) : Bool :=
  0xDC00 ≤ code && code < 0xE000

/-- The character of a pair of units. -/
def joinUnits (high low : Nat) : Char :=
  Char.ofNat (0x10000 + (high - 0xD800) * 0x400 + (low - 0xDC00))

/-- The characters of pieces. The fault is the one that the string ends in, if it does; it is what a
high unit at the end of the pieces meets instead of its partner. -/
def join (fault : Fault) : List Piece → Except Fault (List Char)
  | [] => .ok []
  | .character character :: later => (character :: ·) <$> join fault later
  | .unit code :: later =>
    if isHighUnit code then
      match later with
      | .unit low :: later =>
        if isLowUnit low then (joinUnits code low :: ·) <$> join fault later else .error .malformed
      | .character _ :: _ => .error .malformed
      | [] => .error fault
    else if isLowUnit code then .error .malformed
    else (Char.ofNat code :: ·) <$> join fault later

/-- Reads a string behind its opening quote. -/
def readString (text : List Char) : Except Fault (String × Shorter text) := do
  let found := Pieces.ofText text
  let fault := match found.stop with
    | .ok _ => .malformed
    | .error fault => fault
  let characters ← join fault found.pieces
  let rest ← skipString text
  return (String.ofList characters, rest)

/-! A pair of units is one character; one without its partner is none. -/

example : quote "a\"\n\x01" = "\"a\\\"\\n\\u0001\"" := by decide
example : (readString "\\ud83d\\ude00\" ".toList).toOption.map (·.1) = some "😀" := by decide +kernel
example : (readString "\\ud83d\"".toList).toOption.isNone = true := by decide +kernel

end Json

end ScriptLexer
