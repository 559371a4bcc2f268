import ScriptLexer.Lexer
import ScriptLexer.Value.Integer
import ScriptLexer.Value.Numeral
import ScriptLexer.Value.Truth

/-!
# Working with a lexer

All that can be asked of a lexer, as data. Running an operation gives an answer, the events that it
left, and the lexer after it; a script is operations run one after the other.
-/

namespace ScriptLexer

inductive Operation where
  | load (source : Source) (name : String)
  | next
  | text
  | peek
  /-- Reads a token and compares its text. -/
  | check (expected : String)
  | integer
  | single
  | double
  | truth
  /-- Reads up to the end of the input, or until there are as many tokens as the limit says. -/
  | tokens (limit : Option Nat)
  | setDelimiters (delimiters : Delimiters)
  | setDebug (debug : Bool)
deriving DecidableEq

inductive Answer where
  | done
  | loaded (outcome : Except LoadError Unit)
  | token (token : Token)
  | text (text : String)
  | flag (value : Bool)
  | integer (value : Int)
  | float (value : Binary)
  | tokens (tokens : List Token)

/-- What running an operation comes to. -/
structure Outcome where
  answer : Answer
  events : List Event
  lexer : Lexer

namespace Lexer

/-- Reads a token and answers with what is made of it. -/
def consume (lexer : Lexer) (answer : Token → Answer) : Outcome :=
  let reading := lexer.next
  { answer := answer reading.token, events := reading.events, lexer := reading.lexer }

/-- Reads up to `limit` tokens. A token at the end of the input is read but not answered with. -/
def consumeAll (lexer : Lexer) (limit : Nat) : Outcome :=
  let readings := lexer.readings limit
  { answer := .tokens ((readings.map Reading.token).filter (!·.isEnd))
    events := readings.flatMap Reading.events
    lexer := (readings.getLast?.map Reading.lexer).getD lexer }

def run (lexer : Lexer) (files : FileAccess) : Operation → Outcome
  | .load source name =>
    let (outcome, events, after) := lexer.load files source name
    { answer := .loaded outcome, events, lexer := after }
  | .next => lexer.consume .token
  | .text => lexer.consume fun token => .text token.text
  | .peek =>
    let (text, after) := lexer.peek
    { answer := .text text, events := [], lexer := after }
  | .check expected => lexer.consume fun token => .flag (token.text == expected)
  | .integer => lexer.consume fun token => .integer (Integer.ofText token.text)
  | .single => lexer.consume fun token => .float ((Numeral.ofText token.text).convert .single)
  | .double => lexer.consume fun token => .float (Numeral.ofText token.text)
  | .truth => lexer.consume fun token => .flag (Truth.ofText token.text)
  | .tokens limit => lexer.consumeAll (limit.getD lexer.remaining)
  | .setDelimiters delimiters =>
    { answer := .done, events := [], lexer := { lexer with delimiters } }
  | .setDebug debug => { answer := .done, events := [], lexer := { lexer with debug } }

/-- The outcomes of operations run one after the other. -/
def runAll (lexer : Lexer) (files : FileAccess) : List Operation → List Outcome
  | [] => []
  | operation :: later =>
    let outcome := lexer.run files operation
    outcome :: outcome.lexer.runAll files later

end Lexer

end ScriptLexer
