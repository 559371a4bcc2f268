import ScriptLexer.Json.Value
import ScriptLexer.Proofs.Grammar.Numbers

/-!
# The grammar of JSON

What JSON texts are, said without the functions that read them. A value is told by its form alone: a
string in it may spell out half a character, and a number may be of any size. The characters of
a string are told of one that spells out whole ones, and of the names of members where they do.
-/

namespace ScriptLexer

namespace Json

open Digits

/-- The characters that may stand around everything else. -/
def blankCharacters : List Char :=
  [' ', '\t', '\n', '\r']

def Blanks (text : List Char) : Prop :=
  ∀ character ∈ text, character ∈ blankCharacters

instance (text : List Char) : Decidable (Blanks text) :=
  List.decidableBAll _ text

/-! ## Strings -/

/-- The character may stand for itself. -/
structure Plain (character : Char) : Prop where
  noControl : 0x20 ≤ character.toNat
  noQuote : character ≠ '"'
  noBackslash : character ≠ '\\'

/-- Behind a backslash the letter stands for the character. -/
inductive Named : Char → Char → Prop
  | quote : Named '"' '"'
  | backslash : Named '\\' '\\'
  | slash : Named '/' '/'
  | backspace : Named 'b' '\x08'
  | formFeed : Named 'f' '\x0C'
  | newline : Named 'n' '\n'
  | carriageReturn : Named 'r' '\r'
  | tab : Named 't' '\t'

/-- Four hexadecimal digits and the unit of sixteen bits that they spell. -/
inductive SpellsUnit : List Char → Nat → Prop
  | intro {characters : List Char} {first second third fourth : Nat}
      (spells : Spells 16 characters [first, second, third, fourth]) :
      SpellsUnit characters (((first * 16 + second) * 16 + third) * 16 + fourth)

/-- What stands between the quotes of a string. -/
inductive Inside : List Char → Prop
  | nil : Inside []
  | plain {character : Char} {rest : List Char} (plain : Plain character) (later : Inside rest) :
      Inside (character :: rest)
  | named {letter character : Char} {rest : List Char} (named : Named letter character)
      (later : Inside rest) : Inside ('\\' :: letter :: rest)
  | unit {digits rest : List Char} {code : Nat} (unit : SpellsUnit digits code)
      (later : Inside rest) : Inside ('\\' :: 'u' :: (digits ++ rest))

/-- The ways to write a character between quotes. One that has no unit of its own is a pair of units. -/
inductive SpellsCharacter : Char → List Char → Prop
  | plain {character : Char} (plain : Plain character) : SpellsCharacter character [character]
  | named {letter character : Char} (named : Named letter character) :
      SpellsCharacter character ['\\', letter]
  | unit {character : Char} {digits : List Char} (unit : SpellsUnit digits character.toNat) :
      SpellsCharacter character ('\\' :: 'u' :: digits)
  | pair {character : Char} {highDigits lowDigits : List Char} {high low : Nat}
      (highUnit : SpellsUnit highDigits high) (isHigh : 0xD800 ≤ high ∧ high < 0xDC00)
      (lowUnit : SpellsUnit lowDigits low) (isLow : 0xDC00 ≤ low ∧ low < 0xE000)
      (joined : character.toNat = 0x10000 + (high - 0xD800) * 0x400 + (low - 0xDC00)) :
      SpellsCharacter character ('\\' :: 'u' :: (highDigits ++ '\\' :: 'u' :: lowDigits))

/-- The ways to write characters between quotes. -/
inductive SpellsText : List Char → List Char → Prop
  | nil : SpellsText [] []
  | cons {character : Char} {characters first rest : List Char}
      (spells : SpellsCharacter character first) (later : SpellsText characters rest) :
      SpellsText (character :: characters) (first ++ rest)

/-! ## Numbers -/

/-- Digits without a zero in front of others. -/
inductive IsWhole : List Char → Prop
  | zero : IsWhole ['0']
  | positive {characters : List Char} {first : Nat} {others : List Nat}
      (spells : Spells 10 characters (first :: others)) (nonzero : first ≠ 0) : IsWhole characters

inductive IsFraction : List Char → Prop
  | none : IsFraction []
  | digits {characters : List Char} {digits : List Nat} (spells : Spells 10 characters digits)
      (nonempty : digits ≠ []) : IsFraction ('.' :: characters)

inductive IsExponent : List Char → Prop
  | none : IsExponent []
  | marked {mark : Char} {sign characters : List Char} {negative : Bool} {digits : List Nat}
      (isMark : mark = 'e' ∨ mark = 'E') (isSign : Sign sign negative)
      (spells : Spells 10 characters digits) (nonempty : digits ≠ []) :
      IsExponent (mark :: (sign ++ characters))

inductive IsNumber : List Char → Prop
  | intro {minus whole fraction exponent : List Char} (sign : minus = [] ∨ minus = ['-'])
      (isWhole : IsWhole whole) (isFraction : IsFraction fraction) (isExponent : IsExponent exponent) :
      IsNumber (minus ++ (whole ++ (fraction ++ exponent)))

/-! ## Values -/

inductive SpellsTruth : List Char → Bool → Prop
  | yes : SpellsTruth "true".toList true
  | no : SpellsTruth "false".toList false

def words : List (List Char) :=
  ["null".toList, "true".toList, "false".toList]

def Frame.opener : Frame → Char
  | .list => '['
  | .object => '\x7b'

/-- What a value is made of: an item is an element of a list or a member of an object. -/
inductive Part where
  | value
  | item (frame : Frame)
  | items (frame : Frame)

/-- The text has the form of that part. Items have the blanks around them. -/
inductive Form : Part → List Char → Prop
  | word {text : List Char} (isWord : text ∈ words) :
      Form .value text
  | number {text : List Char} (isNumber : IsNumber text) : Form .value text
  | string {text : List Char} (inside : Inside text) : Form .value ('"' :: (text ++ ['"']))
  | empty {frame : Frame} {blanks : List Char} (isBlank : Blanks blanks) :
      Form .value (frame.opener :: (blanks ++ [frame.closer]))
  | filled {frame : Frame} {text : List Char} (items : Form (.items frame) text) :
      Form .value (frame.opener :: (text ++ [frame.closer]))
  | element {before text after : List Char} (blankBefore : Blanks before) (value : Form .value text)
      (blankAfter : Blanks after) : Form (.item .list) (before ++ (text ++ after))
  | member {before key between text : List Char} (blankBefore : Blanks before) (inside : Inside key)
      (blankBetween : Blanks between) (value : Form (.item .list) text) :
      Form (.item .object) (before ++ '"' :: (key ++ '"' :: (between ++ ':' :: text)))
  | single {frame : Frame} {text : List Char} (item : Form (.item frame) text) :
      Form (.items frame) text
  | more {frame : Frame} {text later : List Char} (item : Form (.item frame) text)
      (items : Form (.items frame) later) : Form (.items frame) (text ++ ',' :: later)

/-! ## Objects with their members -/

/-- The characters that the name spells out, if they are whole ones, and the value as it is written. -/
structure Member where
  key : Option String
  value : List Char
deriving DecidableEq

/-- A name is any string. One with half a pair of units in it spells out no characters. -/
inductive SpellsName : List Char → Option String → Prop
  | whole {text : List Char} {key : String} (spells : SpellsText key.toList text) :
      SpellsName text (some key)
  | half {text : List Char} (inside : Inside text)
      (unspelled : ∀ characters, ¬ SpellsText characters text) : SpellsName text none

inductive SpellsMember : List Char → Member → Prop
  | intro {before name between lead value after : List Char} {key : Option String}
      (blankBefore : Blanks before) (names : SpellsName name key) (blankBetween : Blanks between)
      (blankLead : Blanks lead) (isValue : Form .value value) (blankAfter : Blanks after) :
      SpellsMember (before ++ '"' :: (name ++ '"' :: (between ++ ':' :: (lead ++ (value ++ after)))))
        { key, value }

inductive SpellsMembers : List Char → List Member → Prop
  | single {text : List Char} {member : Member} (spells : SpellsMember text member) :
      SpellsMembers text [member]
  | more {text later : List Char} {member : Member} {members : List Member}
      (spells : SpellsMember text member) (others : SpellsMembers later members) :
      SpellsMembers (text ++ ',' :: later) (member :: members)

inductive SpellsObject : List Char → List Member → Prop
  | empty {blanks : List Char} (isBlank : Blanks blanks) :
      SpellsObject ('\x7b' :: (blanks ++ ['\x7d'])) []
  | filled {text : List Char} {members : List Member} (spells : SpellsMembers text members) :
      SpellsObject ('\x7b' :: (text ++ ['\x7d'])) members

/-! ## Whole texts -/

/-- The text is a string with blanks around it, and these are its characters. -/
inductive StringText : List Char → String → Prop
  | intro {before spelled after : List Char} {value : String} (blankBefore : Blanks before)
      (spells : SpellsText value.toList spelled) (blankAfter : Blanks after) :
      StringText (before ++ '"' :: (spelled ++ '"' :: after)) value

/-- The text is an object with blanks around it. -/
inductive IsObject : List Char → Prop
  | intro {before text after : List Char} (blankBefore : Blanks before) (isValue : Form .value text)
      (opens : text.head? = some Frame.object.opener) (blankAfter : Blanks after) :
      IsObject (before ++ (text ++ after))

/-- The text is an object with blanks around it, and these are its members in order. -/
inductive ObjectText : List Char → List Member → Prop
  | intro {before text after : List Char} {members : List Member} (blankBefore : Blanks before)
      (spells : SpellsObject text members) (blankAfter : Blanks after) :
      ObjectText (before ++ (text ++ after)) members

end Json

end ScriptLexer
