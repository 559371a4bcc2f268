import ScriptLexer.Event
import ScriptLexer.Lexeme
import ScriptLexer.Source

/-!
# The lexer

A lexer is a cursor and the settings under which it reads. Reading a token skips the gap at the
cursor, then takes the lexeme behind it. At the end of the input the token is an empty one, again and
again.
-/

namespace ScriptLexer

/-- The text of a token lacks the quotes, its span holds them. -/
structure Token where
  text : String
  quoted : Bool
  span : Span
deriving DecidableEq

namespace Token

/-- The token at the end of the input. -/
def finish (position : Position) : Token where
  text := ""
  quoted := false
  span := { start := position, stop := position }

/-- Whether the input was at its end. An empty literal in quotes is not the end. -/
def isEnd (token : Token) : Bool :=
  token.text.isEmpty && !token.quoted

end Token

/-- `quoted` tells whether the last token was a quoted literal, `name` what was loaded last. -/
structure Lexer where
  rules : CommentRules
  delimiters : Delimiters := .standard
  debug : Bool := false
  name : String := "nothing"
  cursor : Cursor := .empty
  quoted : Bool := false
deriving DecidableEq

/-- What reading a token comes to. -/
structure Reading where
  token : Token
  events : List Event
  lexer : Lexer
deriving DecidableEq

namespace Lexer

instance : Inhabited Lexer := ⟨{ rules := .standard }⟩

def size (lexer : Lexer) : Nat :=
  lexer.cursor.size

/-! Loading replaces the input. A load that fails leaves the lexer as it was. -/

def withInput (lexer : Lexer) (name : String) (bytes : Bytes) : Lexer :=
  { lexer with name := name, cursor := .ofBytes bytes, quoted := false }

def load (lexer : Lexer) (files : FileAccess) (source : Source) (name : String) :
    Except LoadError Unit × List Event × Lexer :=
  match source.read files name with
  | .ok bytes => (.ok (), [.loaded name bytes.length], lexer.withInput name bytes)
  | .error error => (.error error, [.loadFailed name error], lexer)

/-! Reading tokens. -/

/-- The cursor behind the gap. -/
def skipGap (lexer : Lexer) : Cursor :=
  lexer.cursor.skip (gapLength lexer.rules lexer.cursor.ahead)

/-- The cursor behind a lexeme that begins where `cursor` stands. -/
def skipLexeme (cursor : Cursor) (lexeme : Lexeme) : Cursor :=
  let behind := cursor.beginToken.skip lexeme.length
  behind.endToken behind.position

/-- The next token, and the lexer behind it. -/
def scan (lexer : Lexer) : Token × Lexer :=
  let cursor := lexer.skipGap
  match cursor.ahead with
  | [] => (.finish cursor.place, { lexer with cursor := cursor, quoted := false })
  | first :: rest =>
    let lexeme := Lexeme.read lexer.delimiters first rest
    let behind := skipLexeme cursor lexeme
    let stop := { line := behind.line, offset := behind.tokenEnd }
    ({ text := lexeme.text, quoted := lexeme.isQuoted, span := { start := cursor.place, stop } },
      { lexer with cursor := behind, quoted := lexeme.isQuoted })

/-- What a lexer in debug mode reports of a token. -/
def echo (lexer : Lexer) (token : Token) : List Event :=
  if lexer.debug && !token.isEnd then
    [.tokenRead token.text lexer.name token.span.start.line token.quoted]
  else []

def next (lexer : Lexer) : Reading :=
  let (token, behind) := lexer.scan
  { token, events := lexer.echo token, lexer := behind }

/-- The text of the next token. The lexer goes back to where it was. -/
def peek (lexer : Lexer) : String × Lexer :=
  let (token, behind) := lexer.scan
  (token.text,
    { behind with cursor := behind.cursor.restore lexer.cursor.mark, quoted := lexer.quoted })

/-- Reads up to `limit` tokens one after the other. The first token at the end of the input is the
last that is read. -/
def readings (lexer : Lexer) : (limit : Nat) → List Reading
  | 0 => []
  | limit + 1 =>
    let reading := lexer.next
    if reading.token.isEnd then [reading] else reading :: reading.lexer.readings limit

/-- Every token takes up a byte, so this many readings reach the end of the input. -/
def remaining (lexer : Lexer) : Nat :=
  lexer.cursor.ahead.length + 1

/-! Comments and blanks separate tokens, and a delimiter needs neither. -/

example :
    let lexer := (default : Lexer).withInput "lump" (Utf8.encode "map/*1*/\"e 1\"=2 // end")
    (lexer.readings lexer.remaining).map (·.token.text) = ["map", "e 1", "=", "2", ""] := by
  decide +kernel

end Lexer

end ScriptLexer
