import ScriptLexer.Text.Utf8

/-!
# Bytes with a meaning

Only bytes of the ASCII range mean anything to the lexer. No byte of a longer UTF-8 character falls
into that range, so text in any script passes through it whole.
-/

namespace ScriptLexer

namespace Byte

abbrev tab : UInt8 := 0x09
abbrev newline : UInt8 := 0x0A
abbrev carriageReturn : UInt8 := 0x0D
abbrev space : UInt8 := 0x20
abbrev quote : UInt8 := 0x22
abbrev hash : UInt8 := 0x23
abbrev dollar : UInt8 := 0x24
abbrev star : UInt8 := 0x2A
abbrev slash : UInt8 := 0x2F
abbrev semicolon : UInt8 := 0x3B

/-- What separates tokens. Form feeds and the like do not. -/
def isBlank (byte : UInt8) : Bool :=
  byte == newline || byte == carriageReturn || byte == space || byte == tab

/-- What closes a comment that runs to the end of its line. -/
def isLineEnd (byte : UInt8) : Bool :=
  byte == newline || byte == carriageReturn

end Byte

end ScriptLexer
