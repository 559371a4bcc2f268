/-!
# Bytes as text

The lexer works on bytes and hands out text. `Utf8.encode` writes text as bytes. `Utf8.decode` reads
bytes as text and never fails: every longest run of bytes that cannot be completed to a character
becomes one replacement character. `decode` reads one byte at a time, so what it has read so far
is a state, and a text cut in two is read by carrying that state across the cut.
-/

namespace ScriptLexer

/-- The contents of a source, a span or a token. -/
abbrev Bytes := List UInt8

namespace Utf8

def encode (text : String) : Bytes :=
  text.toList.flatMap String.utf8EncodeChar

/-- The character that stands for bytes that are not UTF-8. -/
def replacement : Char := '\uFFFD'

/-! A character of several bytes fixes the number of its bytes and the range of the second one with
the first; the later ones range over all continuation bytes. The narrower ranges keep out overlong
forms, surrogates and values past the last character. -/

/-- A character read in part: its bits so far, the bytes it still lacks, and the range that the next
of them must fall in. -/
structure Partial where
  bits : Nat
  missing : Nat
  least : UInt8 := 0x80
  greatest : UInt8 := 0xBF
deriving DecidableEq

namespace Partial

/-- The character that `byte` begins, where it begins one of several bytes. -/
def begin? (byte : UInt8) : Option Partial :=
  if 0xC2 ≤ byte ∧ byte ≤ 0xDF then some { bits := byte.toNat - 0xC0, missing := 1 }
  else if byte = 0xE0 then some { bits := 0x0, missing := 2, least := 0xA0 }
  else if byte = 0xED then some { bits := 0xD, missing := 2, greatest := 0x9F }
  else if 0xE1 ≤ byte ∧ byte ≤ 0xEF then some { bits := byte.toNat - 0xE0, missing := 2 }
  else if byte = 0xF0 then some { bits := 0x0, missing := 3, least := 0x90 }
  else if byte = 0xF4 then some { bits := 0x4, missing := 3, greatest := 0x8F }
  else if 0xF1 ≤ byte ∧ byte ≤ 0xF3 then some { bits := byte.toNat - 0xF0, missing := 3 }
  else none

/-- Whether `byte` may come next. -/
def accepts (character : Partial) (byte : UInt8) : Bool :=
  character.least ≤ byte && byte ≤ character.greatest

/-- Takes in a continuation byte, which adds its six low bits. -/
def extend (character : Partial) (byte : UInt8) : Partial where
  bits := character.bits * 64 + (byte.toNat - 0x80)
  missing := character.missing - 1

end Partial

/-- What `byte` gives between characters: the characters that are complete, and the one begun. -/
def first (byte : UInt8) : List Char × Option Partial :=
  if byte < 0x80 then ([Char.ofNat byte.toNat], none)
  else match Partial.begin? byte with
    | some character => ([], some character)
    | none => ([replacement], none)

/-- What `byte` gives after a part of a character. A byte that may not continue it ends it there and
is read anew. -/
def next (character : Partial) (byte : UInt8) : List Char × Option Partial :=
  if character.accepts byte then
    let extended := character.extend byte
    if extended.missing = 0 then ([Char.ofNat extended.bits], none) else ([], some extended)
  else
    let (characters, begun) := first byte
    (replacement :: characters, begun)

/-- The characters of `bytes` where `begun` came before them. -/
def decodeFrom (begun : Option Partial) : Bytes → List Char
  | [] => if begun.isSome then [replacement] else []
  | byte :: rest =>
    let (characters, begun) := begun.elim (first byte) (next · byte)
    characters ++ decodeFrom begun rest

def decode (bytes : Bytes) : String :=
  String.ofList (decodeFrom none bytes)

/-! Two bytes of a character of three, cut off by a letter, are one replacement; a byte that begins
nothing is one of its own. -/

example : decode (encode "né€😀") = "né€😀" := rfl
example : decode [0xE2, 0x82, 0x41, 0xFF, 0x80] = "\uFFFDA\uFFFD\uFFFD" := rfl
example : decode [0xED, 0xA0, 0x80] = "\uFFFD\uFFFD\uFFFD" := rfl
example : decode [0xF0, 0x9F, 0x98] = "\uFFFD" := rfl

end Utf8

end ScriptLexer
