import ScriptLexer.Delimiters
import ScriptLexer.Json.Value

/-!
# Delimiters as JSON

Delimiters are a JSON string: their text.
-/

namespace ScriptLexer

namespace Delimiters

def toJson (delimiters : Delimiters) : String :=
  Json.quote delimiters.text

def ofJson (text : String) : Except Json.Fault Delimiters := do
  let (value, left) ← Json.readText text.toList
  Json.finish left.1
  return ofText value

end Delimiters

end ScriptLexer
