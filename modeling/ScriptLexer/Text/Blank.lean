/-!
# Blank characters

The characters of the Unicode property White_Space. Between tokens only four bytes are blank; at the
start of a value all of these are.
-/

namespace ScriptLexer

namespace Blank

/-- The ranges of the property, both ends included. -/
def ranges : List (Nat × Nat) :=
  [(0x9, 0xD), (0x20, 0x20), (0x85, 0x85), (0xA0, 0xA0), (0x1680, 0x1680), (0x2000, 0x200A),
    (0x2028, 0x2029), (0x202F, 0x202F), (0x205F, 0x205F), (0x3000, 0x3000)]

def isBlank (character : Char) : Bool :=
  ranges.any fun (least, greatest) => least ≤ character.toNat && character.toNat ≤ greatest

/-- The characters from the first one on that is not blank. -/
def trimStart (text : List Char) : List Char :=
  text.dropWhile isBlank

example : (ranges.map fun (least, greatest) => greatest + 1 - least).sum = 25 := rfl

end Blank

end ScriptLexer
