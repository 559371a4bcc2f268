import ScriptLexer.Proofs.Grammar.Layout
import ScriptLexer.Proofs.Lexer.Tokens

/-!
# The tokens of another layout

What is between the tokens makes no difference to what they say. Their parts of the input, with
nothing but blank bytes between them, are read as the same tokens again.
-/

namespace ScriptLexer

open Grammar

/-- What there is to say of a token but for its place. -/
def Token.content (token : Token) : String × Bool :=
  (token.text, token.quoted)

/-- The part of `buffer` that the token spans. -/
def Token.part? (buffer : Bytes) (token : Token) : Option Bytes :=
  Utf8.slice? buffer token.span.start.offset token.span.stop.offset

namespace Lexer

theorem pieces_withInput_iff (lexer : Lexer) (name : String) {bytes : Bytes}
    {pieces : List Piece} : Pieces lexer.rules lexer.delimiters 0 bytes pieces ↔
      pieces = (lexer.withInput name bytes).tokensAhead.map Token.piece :=
  (lexer.withInput name bytes).pieces_iff (Cursor.inBuffer_ofBytes bytes) pieces

/-- The parts that the tokens span, with blank bytes between them and nothing else, have the tokens of
the whole input, if no word is kept from being a comment by what follows it. -/
theorem tokens_of_layout (lexer : Lexer) (files : FileAccess) (name : String) (bytes : Bytes)
    (free : lexer.rules.cStyle = false ∨ Byte.slash ∈ lexer.delimiters.bytes ∨
      Byte.dollar ∉ lexer.delimiters.bytes) :
    let found (bytes : Bytes) : Answer :=
      ((lexer.run files (.load (.owned bytes) name)).lexer.run files (.tokens none)).answer
    ∃ (tokens : List Token) (parts : List Bytes), found bytes = .tokens tokens ∧
      tokens.map (Token.part? bytes) = parts.map some ∧
      ∀ relaid, Joined parts relaid → ∃ others : List Token, found relaid = .tokens others ∧
        others.map Token.content = tokens.map Token.content := by
  intro found
  have pieces : Pieces lexer.rules lexer.delimiters 0 bytes
      ((lexer.withInput name bytes).tokensAhead.map Token.piece) :=
    (lexer.pieces_withInput_iff name).mpr rfl
  rcases pieces.exists_parts List.length_nil with ⟨parts, slices⟩
  have parts_eq : (lexer.withInput name bytes).tokensAhead.map (Token.part? bytes) =
      parts.map some := by
    rw [← slices, List.map_map]
    rfl
  refine ⟨_, parts, rfl, parts_eq, fun relaid joined => ⟨_, rfl, ?_⟩⟩
  have blank : ∀ byte ∈ ([] : Bytes), Blank byte := List.forall_mem_nil _
  rcases pieces.relaid free List.length_nil slices blank joined 0 with
    ⟨others, otherPieces, content⟩
  rw [(lexer.pieces_withInput_iff name).mp otherPieces, List.map_map, List.map_map] at content
  exact content

/-- A `//` that is part of a word, comment brackets as well, and a comment before an open literal. -/
theorem tokens_of_layout_unclosed :
    let lexer : Lexer := { rules := .standard, delimiters := .ofText "=" }
    let bytes := Utf8.encode "a=//$b/*c*/ /*d*/\"e f"
    let relaid := Utf8.encode "a\t=  //$b/*c*/\r\n\"e f"
    let found (bytes : Bytes) : Answer :=
      ((lexer.run (fun _ => .ok []) (.load (.owned bytes) "lump")).lexer.run (fun _ => .ok [])
        (.tokens none)).answer
    (lexer.rules.cStyle = false ∨ Byte.slash ∈ lexer.delimiters.bytes ∨
        Byte.dollar ∉ lexer.delimiters.bytes) ∧
      ∃ tokens others : List Token, found bytes = .tokens tokens ∧ found relaid = .tokens others ∧
        others.map Token.content = tokens.map Token.content := by
  intro lexer bytes relaid found
  have free : lexer.rules.cStyle = false ∨ Byte.slash ∈ lexer.delimiters.bytes ∨
      Byte.dollar ∉ lexer.delimiters.bytes := by decide +kernel
  rcases tokens_of_layout lexer (fun _ => .ok []) "lump" bytes free with
    ⟨tokens, parts, answer, slices, same⟩
  cases answer
  have spanned : (lexer.withInput "lump" bytes).tokensAhead.map (Token.part? bytes) =
      (["a", "=", "//$b/*c*/", "\"e f"].map Utf8.encode).map some := by decide +kernel
  have parts_eq := (List.map_inj_right fun _ _ => Option.some.inj).mp (slices.symm.trans spanned)
  subst parts_eq
  have joined : Joined (["a", "=", "//$b/*c*/", "\"e f"].map Utf8.encode) relaid :=
    @Joined.cons _ _ (Utf8.encode "\t") _ _ (by decide) (by decide +kernel)
      (@Joined.cons _ _ (Utf8.encode "  ") _ _ (by decide) (by decide +kernel)
        (@Joined.cons _ _ (Utf8.encode "\r\n") _ _ (by decide) (by decide +kernel) .single))
  rcases same relaid joined with ⟨others, otherAnswer, content⟩
  exact ⟨free, _, others, rfl, otherAnswer, content⟩

/-- With a blank byte behind it, a `//` that only a `$` keeps from it is a comment. -/
example :
    let contents (text : String) :=
      (({ rules := .standard, delimiters := .ofText "$" } : Lexer).withInput "lump"
        (Utf8.encode text)).tokensAhead.map Token.content
    contents "//$" = [("//", false), ("$", false)] ∧ contents "// $" = [] := by
  decide +kernel

end Lexer

end ScriptLexer
