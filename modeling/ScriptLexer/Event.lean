import ScriptLexer.Source.Error

/-!
# Events

What a lexer reports about its work while it does it. Events never change what it answers.
-/

namespace ScriptLexer

inductive Event where
  | loaded (source : String) (size : Nat)
  | loadFailed (source : String) (error : LoadError)
  /-- A token that was read, on the line where it starts. -/
  | tokenRead (text source : String) (line : Nat) (quoted : Bool)
deriving DecidableEq

namespace Event

inductive Level where
  | debug
  | info
  | warn
deriving DecidableEq

def level : Event → Level
  | .loaded .. => .debug
  | .loadFailed .. => .warn
  | .tokenRead .. => .info

/-- A token is its own message. -/
def message : Event → String
  | .loaded .. => "loaded tokenizer input"
  | .loadFailed .. => "unable to load tokenizer input"
  | .tokenRead text .. => text

end Event

end ScriptLexer
