import ScriptLexer.Comment
import ScriptLexer.Delimiters

/-!
# Gaps and lexemes

Input is an alternation of gaps and lexemes. A gap is blank bytes and comments, in any number and
order; a lexeme is a delimiter, a quoted literal or a word. Both are found from the remaining bytes
alone.
-/

namespace ScriptLexer

/-- The length of the gap that `bytes` begins with: it goes on as long as there are blank bytes or
comments. -/
def gapLength (rules : CommentRules) : Bytes → Nat
  | [] => 0
  | byte :: rest =>
    if Byte.isBlank byte then gapLength rules rest + 1
    else match rules.detect (byte :: rest) with
      | none => 0
      | some kind =>
        let comment := kind.length (byte :: rest)
        comment + gapLength rules ((byte :: rest).drop comment)
  termination_by bytes => bytes.length
  decreasing_by
    · exact Nat.lt_succ_self _
    · have positive := kind.length_pos byte rest
      simp only [List.length_drop, List.length_cons]
      omega

theorem gapLength_le (rules : CommentRules) (bytes : Bytes) :
    gapLength rules bytes ≤ bytes.length := by
  fun_induction gapLength rules bytes with
  | case1 => exact Nat.le_refl 0
  | case2 byte rest _ induction => simpa using induction
  | case3 => exact Nat.zero_le _
  | case4 byte rest _ kind _ comment induction =>
    have within : comment ≤ (byte :: rest).length := kind.length_le (byte :: rest)
    rw [List.length_drop] at induction
    omega

/-- What the lexer cuts the input into. A quoted literal lacks its closing quote where the input ends
before one. -/
inductive Lexeme where
  | delimiter (byte : UInt8)
  | quoted (inner : Bytes) (closed : Bool)
  | word (bytes : Bytes)
deriving DecidableEq

namespace Lexeme

/-- The lexeme as it stands in the input. -/
def bytes : Lexeme → Bytes
  | .delimiter byte => [byte]
  | .quoted inner closed => Byte.quote :: inner ++ if closed then [Byte.quote] else []
  | .word bytes => bytes

def length (lexeme : Lexeme) : Nat :=
  lexeme.bytes.length

/-- The lexeme without its quotes. -/
def content : Lexeme → Bytes
  | .delimiter byte => [byte]
  | .quoted inner _ => inner
  | .word bytes => bytes

def text (lexeme : Lexeme) : String :=
  Utf8.decode lexeme.content

def isQuoted : Lexeme → Bool
  | .quoted .. => true
  | .delimiter _ | .word _ => false

/-- Whether `byte` goes on with a word. Quotes and comment openers inside a word are part of it. -/
def inWord (delimiters : Delimiters) (byte : UInt8) : Bool :=
  !Byte.isBlank byte && !delimiters.contains byte

/-- The lexeme that begins with `first` and goes on in `rest`. A delimiter is one even if it is a
quote. -/
def read (delimiters : Delimiters) (first : UInt8) (rest : Bytes) : Lexeme :=
  if delimiters.contains first then delimiter first
  else if first = Byte.quote then
    let inner := rest.takeWhile (· != Byte.quote)
    quoted inner (inner.length < rest.length)
  else word (first :: rest.takeWhile (inWord delimiters))

/-! A word keeps a quote that is inside of it, and an open literal all that is left. -/

example : read .standard 0x61 [Byte.quote, 0x62, Byte.space] = word [0x61, Byte.quote, 0x62] := rfl
example : read .standard Byte.quote [0x61, Byte.space] = quoted [0x61, Byte.space] false := rfl
example : read (.ofText "\"") Byte.quote [0x61] = delimiter Byte.quote := rfl

end Lexeme

end ScriptLexer
