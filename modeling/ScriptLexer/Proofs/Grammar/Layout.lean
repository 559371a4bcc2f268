import ScriptLexer.Proofs.Grammar.Endings
import ScriptLexer.Proofs.Grammar.Lexemes
import ScriptLexer.Proofs.Text.Boundaries

/-!
# Lexemes in another layout

A lexeme stays the lexeme that it is where blank bytes come behind it instead of what did. So the
lexemes of an input with blank bytes between them, and with no comments any more, are the same ones.
One case is left out: a `//` before a `$` is no comment, and it is a word of its own where the `$` is a
delimiter. With a blank byte between them it would be a comment.
-/

namespace ScriptLexer

namespace Grammar

/-- The parts in their order, with blank bytes between each two of them, one at least. -/
inductive Joined : List Bytes → Bytes → Prop
  | nil : Joined [] []
  | single {part : Bytes} : Joined [part] part
  | cons {part next separator joined : Bytes} {later : List Bytes} (nonempty : separator ≠ [])
      (blank : ∀ byte ∈ separator, Blank byte) (rest : Joined (next :: later) joined) :
      Joined (part :: next :: later) (part ++ (separator ++ joined))

theorem Joined.exists_behind {part relaid : Bytes} {later : List Bytes}
    (joined : Joined (part :: later) relaid) :
    ∃ separator rest, relaid = part ++ (separator ++ rest) ∧ (∀ byte ∈ separator, Blank byte) ∧
      Joined later rest ∧ (∀ byte ∈ (separator ++ rest).head?, Blank byte) ∧
      (later = [] → separator ++ rest = []) := by
  cases joined with
  | single => exact ⟨[], [], (List.append_nil part).symm, by simp, .nil, by simp, fun _ => rfl⟩
  | @cons _ next separator rest later nonempty blank behind =>
    refine ⟨separator, rest, rfl, blank, behind, ?_, fun none => (List.cons_ne_nil _ _ none).elim⟩
    rcases List.exists_cons_of_ne_nil nonempty with ⟨first, others, rfl⟩
    intro byte member
    cases member
    exact blank first (List.mem_cons_self ..)

/-- No word is kept from being a comment by a delimiter behind it. -/
def DollarFree (rules : CommentRules) (delimiters : Delimiters) : Prop :=
  rules.cStyle = false ∨ Byte.slash ∈ delimiters.bytes ∨ Byte.dollar ∉ delimiters.bytes

theorem gap_of_blank {rules : CommentRules} {gap : Bytes} (following : Bytes)
    (blank : ∀ byte ∈ gap, Blank byte) : Gap rules gap following := by
  induction gap with
  | nil => exact .nil
  | cons byte gap induction =>
    rw [List.forall_mem_cons] at blank
    have longer := Gap.cons (.blank blank.1) (induction blank.2)
    exact longer

section

variable {rules : CommentRules} {delimiters : Delimiters} {lexeme : Lexeme} {text : String}
  {following rest : Bytes} (spells : Spells delimiters lexeme text following)
include spells

/-- A lexeme that is only the opener of a comment is a word before a delimiter. -/
theorem Spells.delimiter_of_slashes (slashes : lexeme.bytes = [Byte.slash, Byte.slash])
    (dollar : following.head? = some Byte.dollar) :
    Byte.slash ∉ delimiters.bytes ∧ Byte.dollar ∈ delimiters.bytes := by
  cases spells with
  | delimiter => cases slashes
  | closed => cases slashes
  | unclosed => cases slashes
  | @word first later _ noQuote inside ends =>
    cases slashes
    refine ⟨(inside Byte.slash (List.mem_cons_self ..)).2, ?_⟩
    exact (ends Byte.dollar dollar).resolve_left (by decide)

/-- A lexeme starts one also without what follows it. -/
theorem Starts.alone (starts : Starts rules (lexeme.bytes ++ following))
    (free : DollarFree rules delimiters) : Starts rules lexeme.bytes := by
  rcases List.exists_cons_of_length_pos spells.length_pos with ⟨first, later, bytes⟩
  constructor
  · rcases starts.notBlank with ⟨_, _, equal, notBlank⟩
    rw [bytes] at equal
    cases equal
    exact ⟨first, later, bytes, notBlank⟩
  · intro kind opens
    refine starts.noComment kind ⟨opens.on, opens.begins.trans (List.prefix_append _ _), ?_⟩
    rintro rfl dollar
    have noDollar := opens.noDollar rfl
    -- The `$` is not in the lexeme, so the lexeme is the opener alone, and the `$` ends it.
    rcases opens.begins with ⟨_ | ⟨third, tail⟩, whole⟩
    · have slashes : lexeme.bytes = [Byte.slash, Byte.slash] := by rw [← whole]; rfl
      have next : following.head? = some Byte.dollar := by
        rw [slashes] at dollar
        rcases dollar with ⟨rest, equal⟩
        cases equal
        rfl
      rcases spells.delimiter_of_slashes slashes next with ⟨noSlash, isDollar⟩
      rcases free with off | slash | noDollar
      · have on : rules.cStyle = true := opens.on
        rw [off] at on
        cases on
      · exact noSlash slash
      · exact noDollar isDollar
    · rw [← whole] at dollar noDollar
      rcases dollar with ⟨rest, equal⟩
      cases equal
      exact noDollar ⟨tail, rfl⟩

/-- Blank bytes may take the place of what follows a lexeme, unless nothing does. -/
theorem Spells.before_blank (blank : ∀ byte ∈ rest.head?, Blank byte)
    (ends : following = [] → rest = []) : Spells delimiters lexeme text rest := by
  cases spells with
  | delimiter member => exact .delimiter member
  | closed noDelimiter inside => exact .closed noDelimiter inside
  | unclosed noDelimiter inside =>
    rw [ends rfl]
    exact .unclosed noDelimiter inside
  | word noQuote inside => exact .word noQuote inside fun byte member => .inl (blank byte member)

end

/-! ## The lexemes of an input -/

/-- What there is to say of a piece but for its place. -/
def Piece.content (piece : Piece) : String × Bool :=
  (piece.text, piece.quoted)

section

variable {rules : CommentRules} {delimiters : Delimiters} {offset : Nat} {input : Bytes}
  {pieces : List Piece}

/-- The part of `buffer` that the piece is. -/
def Piece.part? (buffer : Bytes) (piece : Piece) : Option Bytes :=
  Utf8.slice? buffer piece.start piece.stop

theorem part?_lexeme {front : Bytes} (length : front.length = offset) (gap : Bytes) (text : String)
    (quoted : Bool) (lexeme : Lexeme) (following : Bytes) :
    Piece.part? (front ++ gap ++ lexeme.bytes ++ following)
      ⟨text, quoted, offset + gap.length, offset + gap.length + lexeme.length⟩ =
        some lexeme.bytes := by
  have slice := Utf8.slice?_append (front ++ gap) lexeme.bytes following
  rw [List.length_append, length, ← List.append_assoc] at slice
  exact slice

theorem length_behind_lexeme {front : Bytes} (length : front.length = offset) (gap : Bytes)
    (lexeme : Lexeme) :
    (front ++ gap ++ lexeme.bytes).length = offset + gap.length + lexeme.length := by
  rw [List.length_append, List.length_append, length, Lexeme.length]

/-- Every piece of an input is a part of it, whatever is in front of the input. -/
theorem Pieces.exists_parts (holds : Pieces rules delimiters offset input pieces)
    {front : Bytes} (length : front.length = offset) :
    ∃ parts : List Bytes, pieces.map (Piece.part? (front ++ input)) = parts.map some := by
  induction holds generalizing front with
  | finish => exact ⟨[], rfl⟩
  | @lexeme offset gap following lexeme text pieces _ _ _ _ induction =>
    rcases induction (length_behind_lexeme length gap lexeme) with ⟨parts, found⟩
    have part := part?_lexeme length gap text lexeme.isQuoted lexeme following
    refine ⟨lexeme.bytes :: parts, ?_⟩
    rw [← List.append_assoc, ← List.append_assoc, List.map_cons, List.map_cons, part, found]

/-- The parts of an input with blank bytes between them are the same pieces again. -/
theorem Pieces.relaid (free : DollarFree rules delimiters)
    (holds : Pieces rules delimiters offset input pieces) {front : Bytes}
    (length : front.length = offset) {parts : List Bytes}
    (found : pieces.map (Piece.part? (front ++ input)) = parts.map some)
    {separator relaid : Bytes} (blank : ∀ byte ∈ separator, Blank byte)
    (joined : Joined parts relaid) (otherOffset : Nat) :
    ∃ others, Pieces rules delimiters otherOffset (separator ++ relaid) others ∧
      others.map Piece.content = pieces.map Piece.content := by
  induction holds generalizing front parts separator relaid otherOffset with
  | finish =>
    rcases List.map_eq_nil_iff.mp found.symm with rfl
    cases joined with
    | nil =>
      rw [List.append_nil]
      exact ⟨[], .finish (gap_of_blank [] blank), rfl⟩
  | @lexeme offset gap following lexeme text pieces isGap starts spells later induction =>
    have part := part?_lexeme length gap text lexeme.isQuoted lexeme following
    rw [← List.append_assoc, ← List.append_assoc, List.map_cons, part] at found
    rcases List.map_eq_cons_iff.mp found.symm with ⟨_, laterParts, rfl, equal, laterFound⟩
    cases equal
    rcases joined.exists_behind with ⟨gapBehind, rest, rfl, blankBehind, joinedBehind, blankHead, ends⟩
    -- An unclosed literal takes in all that follows it, so it is the last part.
    have last : following = [] → gapBehind ++ rest = [] := by
      rintro rfl
      rw [later.eq_nil .nil] at laterFound
      exact ends (List.map_eq_nil_iff.mp laterFound)
    rcases induction (length_behind_lexeme length gap lexeme) laterFound.symm blankBehind joinedBehind
      (otherOffset + separator.length + lexeme.length) with ⟨others, otherPieces, content⟩
    have otherStarts := (starts.alone spells free).append blankHead
    have otherSpells := spells.before_blank blankHead last
    refine ⟨_, .lexeme (gap_of_blank _ blank) otherStarts otherSpells otherPieces, ?_⟩
    rw [List.map_cons, List.map_cons, content]
    rfl

end

end Grammar

end ScriptLexer
