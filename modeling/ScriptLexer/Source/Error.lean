/-!
# Why a load can fail

Scanning never fails; only getting hold of the bytes does. The message of an error is part of what
the lexer reports.
-/

namespace ScriptLexer

inductive LoadError where
  /-- The source of that name could not be opened or read. -/
  | unreadable (name reason : String)
  /-- Memory carries no length of its own, and none was given. -/
  | lengthNotSpecified
  | lengthOutOfBounds (length available : Nat)
  | offsetOutOfRange (name : String) (offset size : Nat)
deriving DecidableEq

def LoadError.message : LoadError → String
  | .unreadable name reason => s!"unable to read {name}: {reason}"
  | .lengthNotSpecified => "length not specified"
  | .lengthOutOfBounds length available =>
    s!"length {length} exceeds the {available} bytes available"
  | .offsetOutOfRange name offset size =>
    s!"offset {offset} is past the end of {name} ({size} bytes)"

end ScriptLexer
