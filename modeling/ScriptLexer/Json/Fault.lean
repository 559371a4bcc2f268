/-!
# What is wrong with a JSON text

Settings are read from JSON in one pass from left to right, and the first problem met is the one that
is reported. A reader is given the characters that are left and returns those that are left after it.
That there are fewer of them is part of what it returns, so a reader that is repeated comes to an end.
-/

namespace ScriptLexer

namespace Json

inductive Fault where
  /-- The text ends before the value does. -/
  | truncated
  | malformed
  /-- A number has no finite approximation. -/
  | outOfRange
  /-- The value is of another type than the one asked for. -/
  | wrongType
  /-- A member that may be given once is given again. -/
  | repeatedMember
deriving DecidableEq

/-! What is left of a text. After something was read it is shorter; where there may have been nothing
to read it is no longer. -/

abbrev Shorter (text : List Char) := { rest : List Char // rest.length < text.length }

abbrev Rest (text : List Char) := { rest : List Char // rest.length ≤ text.length }

/-- Nothing was read. -/
def Rest.all (text : List Char) : Rest text :=
  ⟨text, Nat.le_refl _⟩

/-- What is left behind `first` is left of all. -/
def Rest.behind {text : List Char} (first : Char) (rest : Rest text) : Shorter (first :: text) :=
  ⟨rest.1, Nat.lt_succ_of_le rest.2⟩

def Shorter.rest {text : List Char} (left : Shorter text) : Rest text :=
  ⟨left.1, Nat.le_of_lt left.2⟩

/-- After the first character there are no more than the others. -/
def Shorter.ofFirst {first : Char} {text : List Char} (left : Shorter (first :: text)) : Rest text :=
  ⟨left.1, Nat.le_of_lt_succ left.2⟩

/-- What is left of what was left. -/
def Shorter.andThen {text : List Char} (left : Shorter text) (later : Rest left.1) : Shorter text :=
  ⟨later.1, Nat.lt_of_le_of_lt later.2 left.2⟩

/-! Blanks may stand before and after every value and mark. They are fewer here than elsewhere. -/

def isBlank (character : Char) : Bool :=
  character == ' ' || character == '\n' || character == '\t' || character == '\r'

def skipBlanks (text : List Char) : List Char :=
  text.dropWhile isBlank

theorem length_skipBlanks_le (text : List Char) : (skipBlanks text).length ≤ text.length :=
  (List.dropWhile_sublist isBlank).length_le

/-- What is left after blanks and one character. -/
def Shorter.afterBlanks {text : List Char} {first : Char} {rest : List Char}
    (split : skipBlanks text = first :: rest) : Shorter text :=
  ⟨rest, by
    have bound := length_skipBlanks_le text
    rw [split, List.length_cons] at bound
    exact bound⟩

/-- Reads `mark`, and nothing but blanks before it. -/
def expect (mark : Char) (text : List Char) : Except Fault (Shorter text) :=
  match split : skipBlanks text with
  | [] => .error .truncated
  | next :: _ => if next = mark then .ok (.afterBlanks split) else .error .malformed

/-- Whether a list of values or members goes on with a comma after one of them, or is closed by
`closer`. -/
def separator (closer : Char) (text : List Char) : Except Fault (Bool × Shorter text) :=
  match split : skipBlanks text with
  | [] => .error .truncated
  | next :: _ =>
    if next = ',' then .ok (true, .afterBlanks split)
    else if next = closer then .ok (false, .afterBlanks split)
    else .error .malformed

/-- Nothing but blanks may follow the one value of a text. -/
def finish (text : List Char) : Except Fault Unit :=
  if (skipBlanks text).isEmpty then .ok () else .error .malformed

end Json

end ScriptLexer
