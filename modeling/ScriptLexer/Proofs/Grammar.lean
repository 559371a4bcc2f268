import ScriptLexer.Lexeme

/-!
# The grammar of the input

What the input is made of, said without a cursor and without the functions that find it: gaps, which
are blank bytes and comments in any number and order, and between them delimiters, quoted literals
and words. Every rule speaks of a part of the input and of what follows it, since most parts end
where something else is found, or where the input ends.
-/

namespace ScriptLexer

namespace Grammar

/-! ## Gaps -/

def Blank (byte : UInt8) : Prop :=
  byte ∈ [Byte.newline, Byte.carriageReturn, Byte.space, Byte.tab]

instance (byte : UInt8) : Decidable (Blank byte) :=
  inferInstanceAs (Decidable (byte ∈ _))

def opener : CommentKind → Bytes
  | .doubleSlash => [Byte.slash, Byte.slash]
  | .block => [Byte.slash, Byte.star]
  | .doubleHash => [Byte.hash, Byte.hash]
  | .semicolon => [Byte.semicolon]

/-- `input` begins with a comment of that kind, and the kind is admitted. -/
structure Opens (rules : CommentRules) (kind : CommentKind) (input : Bytes) : Prop where
  on : rules.enabled kind.rule = true
  begins : opener kind <+: input
  noDollar : kind = .doubleSlash → ¬ [Byte.slash, Byte.slash, Byte.dollar] <+: input

/-- What closes a comment. -/
def closers : CommentKind → List Bytes
  | .block => [[Byte.star, Byte.slash]]
  | .doubleSlash | .doubleHash | .semicolon => [[Byte.newline], [Byte.carriageReturn]]

/-- `part` runs through the first closer in it, or to the end of the input without one. -/
inductive Through (closers : List Bytes) (part following : Bytes) : Prop
  | closed (ends : ∃ closer ∈ closers, closer <:+ part)
      (first : ∀ closer ∈ closers, ¬ closer <:+: part.dropLast)
  | unclosed (absent : ∀ closer ∈ closers, ¬ closer <:+: part) (last : following = [])

/-- One part of a gap. The closer of a comment may share bytes with its opener. -/
inductive Trivia (rules : CommentRules) : Bytes → Bytes → Prop
  | blank {byte : UInt8} {following : Bytes} (blank : Blank byte) :
      Trivia rules [byte] following
  | comment {kind : CommentKind} {part following : Bytes}
      (opens : Opens rules kind (part ++ following))
      (through : Through (closers kind) part following) : Trivia rules part following

inductive Gap (rules : CommentRules) : Bytes → Bytes → Prop
  | nil {following : Bytes} : Gap rules [] following
  | cons {part gap following : Bytes} (trivia : Trivia rules part (gap ++ following))
      (later : Gap rules gap following) : Gap rules (part ++ gap) following

/-! ## Lexemes -/

/-- `input` begins with a byte that is neither blank nor the start of a comment. -/
structure Starts (rules : CommentRules) (input : Bytes) : Prop where
  notBlank : ∃ first rest, input = first :: rest ∧ ¬ Blank first
  noComment : ∀ kind, ¬ Opens rules kind input

/-- The lexeme has that text and is all of the input before `following`. -/
inductive Spells (delimiters : Delimiters) : Lexeme → String → Bytes → Prop
  | delimiter {byte : UInt8} {following : Bytes} (member : byte ∈ delimiters.bytes) :
      Spells delimiters (.delimiter byte) (String.singleton (Char.ofNat byte.toNat)) following
  | closed {inner following : Bytes} (noDelimiter : Byte.quote ∉ delimiters.bytes)
      (inside : Byte.quote ∉ inner) :
      Spells delimiters (.quoted inner true) (Utf8.decode inner) following
  | unclosed {inner : Bytes} (noDelimiter : Byte.quote ∉ delimiters.bytes)
      (inside : Byte.quote ∉ inner) :
      Spells delimiters (.quoted inner false) (Utf8.decode inner) []
  | word {first : UInt8} {rest following : Bytes} (noQuote : first ≠ Byte.quote)
      (inside : ∀ byte ∈ first :: rest, ¬ Blank byte ∧ byte ∉ delimiters.bytes)
      (ends : ∀ byte ∈ following.head?, Blank byte ∨ byte ∈ delimiters.bytes) :
      Spells delimiters (.word (first :: rest)) (Utf8.decode (first :: rest)) following

/-- What there is to say of a token but for lines. -/
structure Piece where
  text : String
  quoted : Bool
  start : Nat
  stop : Nat
deriving DecidableEq

/-- `input`, which begins at `offset`, is an alternation of gaps and lexemes, and these are the
lexemes. -/
inductive Pieces (rules : CommentRules) (delimiters : Delimiters) :
    Nat → Bytes → List Piece → Prop
  | finish {offset : Nat} {gap : Bytes} (isGap : Gap rules gap []) :
      Pieces rules delimiters offset gap []
  | lexeme {offset : Nat} {gap following : Bytes} {lexeme : Lexeme} {text : String}
      {pieces : List Piece} (isGap : Gap rules gap (lexeme.bytes ++ following))
      (starts : Starts rules (lexeme.bytes ++ following))
      (spells : Spells delimiters lexeme text following)
      (later : Pieces rules delimiters (offset + gap.length + lexeme.length) following pieces) :
      Pieces rules delimiters offset (gap ++ (lexeme.bytes ++ following))
        ({ text
           quoted := lexeme.isQuoted
           start := offset + gap.length
           stop := offset + gap.length + lexeme.length } :: pieces)

end Grammar

end ScriptLexer
