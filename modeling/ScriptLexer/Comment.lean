import ScriptLexer.Cursor

/-!
# Comments

Three rules say which comments there are, and each can be on or off: `//` and `/* */` belong to one
rule, `##` and `;` to one each. A `//` before a `$` opens no comment, so that names such as `//$Title`
are ordinary text. A comment that is not closed runs to the end of the input.
-/

namespace ScriptLexer

inductive CommentRule where
  | cStyle
  | hash
  | semicolon
deriving DecidableEq

/-- Which of the rules are on. -/
structure CommentRules where
  cStyle : Bool
  hash : Bool
  semicolon : Bool
deriving DecidableEq

namespace CommentRules

def none : CommentRules where
  cStyle := false
  hash := false
  semicolon := false

def all : CommentRules where
  cStyle := true
  hash := true
  semicolon := true

def enabled (rules : CommentRules) : CommentRule → Bool
  | .cStyle => rules.cStyle
  | .hash => rules.hash
  | .semicolon => rules.semicolon

/-- Turns one rule on or off. -/
def set (rules : CommentRules) (rule : CommentRule) (enabled : Bool) : CommentRules :=
  match rule with
  | .cStyle => { rules with cStyle := enabled }
  | .hash => { rules with hash := enabled }
  | .semicolon => { rules with semicolon := enabled }

theorem enabled_set (rules : CommentRules) (changed rule : CommentRule) (value : Bool) :
    (rules.set changed value).enabled rule = if rule = changed then value else rules.enabled rule := by
  cases changed <;> cases rule <;> rfl

/-- The rules where nothing else is asked for. -/
def standard : CommentRules :=
  none.set .cStyle true

instance : Inhabited CommentRules := ⟨standard⟩

end CommentRules

inductive CommentKind where
  | doubleSlash
  | block
  | doubleHash
  | semicolon
deriving DecidableEq

namespace CommentKind

def all : List CommentKind :=
  [.doubleSlash, .block, .doubleHash, .semicolon]

/-- The rule that admits comments of this kind. -/
def rule : CommentKind → CommentRule
  | .doubleSlash | .block => .cStyle
  | .doubleHash => .hash
  | .semicolon => .semicolon

/-- Whether `bytes` begins with the opener of this kind. -/
def opens (kind : CommentKind) (bytes : Bytes) : Bool :=
  match kind with
  | .doubleSlash => [Byte.slash, Byte.slash].isPrefixOf bytes && bytes[2]? != some Byte.dollar
  | .block => [Byte.slash, Byte.star].isPrefixOf bytes
  | .doubleHash => [Byte.hash, Byte.hash].isPrefixOf bytes
  | .semicolon => [Byte.semicolon].isPrefixOf bytes

/-! The length of a comment, from any of its bytes to behind its end. The end of a block comment is
looked for from its opener on, so `/*/` is closed already. -/

/-- The bytes through the first line end. -/
def lineLength : Bytes → Nat
  | [] => 0
  | byte :: rest => if Byte.isLineEnd byte then 1 else lineLength rest + 1

/-- The bytes through the first `*/`. -/
def blockLength : Bytes → Nat
  | [] => 0
  | byte :: rest =>
    if byte = Byte.star ∧ rest.head? = some Byte.slash then 2 else blockLength rest + 1

def length (kind : CommentKind) (bytes : Bytes) : Nat :=
  match kind with
  | .block => blockLength bytes
  | .doubleSlash | .doubleHash | .semicolon => lineLength bytes

theorem lineLength_le (bytes : Bytes) : lineLength bytes ≤ bytes.length := by
  induction bytes with
  | nil => exact Nat.le_refl 0
  | cons byte rest induction =>
    unfold lineLength
    split <;> simp only [List.length_cons] <;> omega

theorem blockLength_le (bytes : Bytes) : blockLength bytes ≤ bytes.length := by
  induction bytes with
  | nil => exact Nat.le_refl 0
  | cons byte rest induction =>
    unfold blockLength
    split
    · next close =>
      cases rest with
      | nil => simp at close
      | cons => simp
    · simpa using induction

theorem length_le (kind : CommentKind) (bytes : Bytes) : kind.length bytes ≤ bytes.length := by
  cases kind <;> simp only [length, lineLength_le, blockLength_le]

/-- A comment takes up at least its first byte. -/
theorem length_pos (kind : CommentKind) (byte : UInt8) (rest : Bytes) :
    0 < kind.length (byte :: rest) := by
  cases kind <;> simp only [length, lineLength, blockLength] <;> split <;> omega

end CommentKind

namespace CommentRules

/-- The comment that `bytes` begins with under `rules`. -/
def detect (rules : CommentRules) (bytes : Bytes) : Option CommentKind :=
  CommentKind.all.find? fun kind => rules.enabled kind.rule && kind.opens bytes

theorem detect_nil (rules : CommentRules) : rules.detect [] = .none := by
  simp [detect, CommentKind.all, CommentKind.opens]

end CommentRules

namespace Cursor

def detect (cursor : Cursor) (rules : CommentRules) : Option CommentKind :=
  rules.detect cursor.ahead

/-- Moves behind the comment of the given kind that the cursor is in. -/
def skipComment (cursor : Cursor) (kind : CommentKind) : Cursor :=
  cursor.skip (kind.length cursor.ahead)

end Cursor

/-! Openers under the standard rules, and ends. -/

example : CommentRules.standard.detect (Utf8.encode "// text") = some .doubleSlash := rfl
example : CommentRules.standard.detect (Utf8.encode "//$Title") = none := rfl
example : CommentRules.standard.detect (Utf8.encode "; text") = none := rfl
example : CommentKind.block.length (Utf8.encode "/*/ text */") = 3 := rfl
example : CommentKind.semicolon.length (Utf8.encode "; one\ntwo") = 6 := rfl

end ScriptLexer
