import ScriptLexer.Value.Integer

/-!
# Truth values in text

Few texts are false: none at all, the words `no` and `false`, and those that begin with the integer
zero. Words that are neither are true, whatever they mean.
-/

namespace ScriptLexer

namespace Truth

/-- Equality up to the case of ASCII letters. -/
def sameWord (left right : String) : Bool :=
  left.toList.map Char.toLower == right.toList.map Char.toLower

/-- Blanks are left out before a number, but not around a word. -/
def ofText (text : String) : Bool :=
  if sameWord text "no" || sameWord text "false" || text.isEmpty then false
  else if Integer.startsText text then Integer.ofText text != 0
  else true

example : ["No", "FALSE", "", "-0", " 00"].all (!ofText ·) = true := rfl
example : ["yes", "nope", " no", "0.", "2"].map ofText = [true, true, true, false, true] := rfl

end Truth

end ScriptLexer
