import ScriptLexer.Proofs.Lexer.Respelling

/-!
# Line ends of two bytes

A carriage return and a newline may stand where a newline does: the tokens are the same, on the same
lines. Only a literal holds line ends, and its text has them as they were written.
-/

namespace ScriptLexer

/-! ## Joining line ends -/

section

variable {α : Type _} [DecidableEq α] (carriageReturn newline : α)

/-- Every carriage return with a newline behind it is left out, so that of both the newline is left. -/
def joinLineEnds : List α → List α
  | [] => []
  | first :: rest =>
    if first = carriageReturn ∧ rest.head? = some newline then joinLineEnds rest
    else first :: joinLineEnds rest

variable {carriageReturn newline}

theorem joinLineEnds_cons {first : α} (noReturn : first ≠ carriageReturn) (rest : List α) :
    joinLineEnds carriageReturn newline (first :: rest) =
      first :: joinLineEnds carriageReturn newline rest :=
  if_neg fun pair => noReturn pair.1

theorem joinLineEnds_pair (different : newline ≠ carriageReturn) (rest : List α) :
    joinLineEnds carriageReturn newline (carriageReturn :: newline :: rest) =
      newline :: joinLineEnds carriageReturn newline rest := by
  rw [joinLineEnds, if_pos ⟨rfl, rfl⟩, joinLineEnds_cons different]

theorem joinLineEnds_append {part : List α} (noReturn : carriageReturn ∉ part) (rest : List α) :
    joinLineEnds carriageReturn newline (part ++ rest) =
      part ++ joinLineEnds carriageReturn newline rest := by
  induction part with
  | nil => rfl
  | cons first part induction =>
    rw [List.mem_cons, not_or] at noReturn
    rw [List.cons_append, joinLineEnds_cons (Ne.symm noReturn.1), induction noReturn.2,
      List.cons_append]

end

namespace Byte

def joinLineEnds (bytes : Bytes) : Bytes :=
  ScriptLexer.joinLineEnds carriageReturn newline bytes

example : joinLineEnds (Utf8.encode "a\r\r\nb\rc\n\r\n") = Utf8.encode "a\r\nb\rc\n\n" := by
  decide +kernel

end Byte

/-- A text with a newline for every carriage return and newline. -/
def joinTextLines (text : String) : String :=
  .ofList (joinLineEnds '\r' '\n' text.toList)

namespace Grammar

/-! ## Bytes and texts without returns -/

/-- Line ends are joined and nothing else is changed. -/
def joining : Spelling where
  folds := True
  runs := Eq

theorem respelled_joinLineEnds (bytes : Bytes) :
    Respelled joining bytes (Byte.joinLineEnds bytes) := by
  induction bytes using runs_induction with
  | nil => exact .nil
  | @ascii byte rest ascii induction =>
    unfold Byte.joinLineEnds joinLineEnds
    split
    · next pair =>
      rcases pair with ⟨rfl, newline⟩
      rcases List.head?_eq_some_iff.mp newline with ⟨later, rfl⟩
      -- The newline of the pair was taken as a byte of its own, so what is behind it is taken back.
      have single : Byte.joinLineEnds (Byte.newline :: later) =
          Byte.newline :: Byte.joinLineEnds later := joinLineEnds_cons (by decide) later
      rw [single] at induction
      rcases induction.cons_cases with ⟨-, _, equal, behind⟩ | ⟨-, isReturn, -⟩ | ⟨large, -⟩
      · cases equal
        have joined : Respelled joining _ (Byte.newline :: Byte.joinLineEnds later) :=
          .lineEnd trivial behind
        rw [← single] at joined
        exact joined
      · cases isReturn
      · exact absurd large (by decide)
    · next noPair =>
      exact .ascii ascii (fun _ isReturn newline => noPair ⟨isReturn, newline⟩) induction
  | @run run rest foreign ends induction =>
    unfold Byte.joinLineEnds
    rw [joinLineEnds_append (foreign.not_mem (by decide))]
    exact .run rfl foreign foreign ends induction

/-- What does not begin with a newline is not read as a text that does. -/
theorem head?_decodeFrom {bytes : Bytes} (noNewline : bytes.head? ≠ some Byte.newline) :
    (Utf8.decodeFrom none bytes).head? ≠ some '\n' := by
  intro newline
  induction bytes using runs_induction with
  | nil => cases newline
  | @ascii byte rest ascii =>
    rw [Utf8.decodeFrom_ascii _ ascii] at newline
    have same : Char.ofNat byte.toNat = Char.ofNat Byte.newline.toNat := Option.some.inj newline
    rw [Utf8.ofNat_toNat_inj ascii (by decide) same] at noNewline
    exact noNewline rfl
  | @run run rest foreign ends =>
    rw [(Utf8.seam_of_head? ends).decodeFrom_append] at newline
    rcases List.exists_cons_of_ne_nil (Utf8.decodeFrom_ne_nil none run (.inr foreign.nonempty)) with
      ⟨character, later, characters⟩
    have large := Utf8.decodeFrom_foreign Utf8.begun_none foreign.inside
    rw [characters] at newline large
    cases newline
    exact absurd (large _ (List.mem_cons_self ..)) (by decide)

/-- A text is read from joined lines as it is joined after it is read. -/
theorem Respelled.decodeFrom_joined {content changed : Bytes}
    (respelled : Respelled joining content changed) :
    Utf8.decodeFrom none changed = joinLineEnds '\r' '\n' (Utf8.decodeFrom none content) := by
  have noReturn {characters : List Char}
      (large : ∀ character ∈ characters, 0x80 ≤ character.toNat) : '\r' ∉ characters :=
    fun member => absurd (large _ member) (by decide)
  induction respelled with
  | nil => rfl
  | @ascii byte input other ascii single later induction =>
    rw [Utf8.decodeFrom_ascii _ ascii, Utf8.decodeFrom_ascii _ ascii, joinLineEnds, if_neg,
      induction]
    rintro ⟨isReturn, newline⟩
    have same : byte = Byte.carriageReturn := Utf8.ofNat_toNat_inj ascii (by decide) isReturn
    exact head?_decodeFrom (single trivial same) newline
  | @lineEnd input other folds later induction =>
    have newline (rest : Bytes) : Utf8.decodeFrom none (Byte.newline :: rest) =
        '\n' :: Utf8.decodeFrom none rest := Utf8.decodeFrom_ascii rest (by decide)
    have carriageReturn (rest : Bytes) : Utf8.decodeFrom none (Byte.carriageReturn :: rest) =
        '\r' :: Utf8.decodeFrom none rest := Utf8.decodeFrom_ascii rest (by decide)
    rw [newline, carriageReturn, newline, joinLineEnds_pair (by decide), induction]
  | @run run changed input other becomes foreign changedForeign ends later induction =>
    cases becomes
    have large := Utf8.decodeFrom_foreign Utf8.begun_none foreign.inside
    rw [(Utf8.seam_of_head? ends).decodeFrom_append,
      (Utf8.seam_of_head? (later.head?_ascii ends)).decodeFrom_append,
      joinLineEnds_append (noReturn large), induction]

theorem Respelled.eq_of_noReturn {content changed : Bytes}
    (respelled : Respelled joining content changed) (noReturn : Byte.carriageReturn ∉ content) :
    changed = content := by
  induction respelled with
  | nil => rfl
  | ascii _ _ _ induction =>
    rw [induction fun member => noReturn (List.mem_cons_of_mem _ member)]
  | lineEnd => exact (noReturn (List.mem_cons_self ..)).elim
  | run becomes _ _ _ _ induction =>
    rw [becomes, induction fun member => noReturn (List.mem_append_right _ member)]

/-- Only the texts of literals are changed. -/
theorem changes_joining : Lexer.Changes joining fun quoted text =>
    if quoted then joinTextLines text else text := by
  intro quoted content changed respelled noBlank
  cases quoted with
  | true =>
    simp [Utf8.decode, joinTextLines, respelled.decodeFrom_joined]
  | false =>
    have noReturn : Byte.carriageReturn ∉ content :=
      fun member => noBlank rfl _ member (by decide)
    rw [respelled.eq_of_noReturn noReturn]
    rfl

end Grammar

namespace Lexer

open Grammar

/-- The tokens of an input whose line ends are joined are those of the input, in the same order and on
the same lines, and their texts are the same but for the line ends in literals. -/
theorem line_ends_agree (lexer : Lexer) (files : FileAccess) (name : String) (bytes : Bytes) :
    let found (bytes : Bytes) : Answer :=
      ((lexer.run files (.load (.owned bytes) name)).lexer.run files (.tokens none)).answer
    ∃ tokens joined : List Token, found bytes = .tokens tokens ∧
      found (Byte.joinLineEnds bytes) = .tokens joined ∧
      joined.map Token.snippet = tokens.map fun token =>
        { token.snippet with
          text := if token.quoted then joinTextLines token.text else token.text } := by
  intro found
  have respelled := respelled_withInput (respelled_joinLineEnds bytes) lexer name
  have same := respelled.tokensAhead changes_joining
  exact ⟨_, _, rfl, rfl, same⟩

end Lexer

end ScriptLexer
