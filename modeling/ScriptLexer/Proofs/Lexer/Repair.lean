import ScriptLexer.Proofs.Lexer.Respelling

/-!
# Input that is no text

Bytes that are not UTF-8 are read as replacement characters. It makes no difference whether they are
replaced token by token or in all of the input first: no token is cut where a character could go on.
-/

namespace ScriptLexer

namespace Grammar

/-- Bytes that are not ASCII become the text that is read from them. -/
def repairing : Spelling where
  folds := False
  runs := fun run changed => changed = Utf8.encode (Utf8.decode run)

theorem Foreign.repaired {run : Bytes} (foreign : Foreign run) :
    Foreign (Utf8.encode (Utf8.decode run)) where
  nonempty := by
    intro nothing
    have empty : Utf8.decode run = "" := Utf8.encode_injective nothing
    exact foreign.nonempty (Utf8.decode_eq_empty_iff.mp empty)
  inside := by
    apply Utf8.encode_foreign
    rw [Utf8.decode, String.toList_ofList]
    exact Utf8.decodeFrom_foreign Utf8.begun_none foreign.inside

theorem respelled_repaired (bytes : Bytes) :
    Respelled repairing bytes (Utf8.encode (Utf8.decode bytes)) := by
  induction bytes using runs_induction with
  | nil => exact .nil
  | @ascii byte rest ascii induction =>
    have first : Utf8.encode (Utf8.decode [byte]) = [byte] := by
      rw [Utf8.decode_ascii ascii, Utf8.encode_ascii ascii]
    rw [← List.singleton_append, (Utf8.seam_of_ascii ascii rest).decode_append, Utf8.encode_append,
      first]
    exact .ascii ascii (fun folds => folds.elim) induction
  | run foreign ends induction =>
    rw [(Utf8.seam_of_head? ends).decode_append, Utf8.encode_append]
    exact .run rfl foreign foreign.repaired ends induction

/-- The same text is read from what is repaired. -/
theorem Respelled.decode_eq {content changed : Bytes}
    (respelled : Respelled repairing content changed) :
    Utf8.decode changed = Utf8.decode content := by
  induction respelled with
  | nil => rfl
  | @ascii byte input other ascii _ _ induction =>
    rw [← List.singleton_append, (Utf8.seam_of_ascii ascii other).decode_append, induction,
      ← (Utf8.seam_of_ascii ascii input).decode_append, List.singleton_append]
  | lineEnd folds => exact folds.elim
  | run becomes _ _ ends later induction =>
    rw [(Utf8.seam_of_head? ends).decode_append,
      (Utf8.seam_of_head? (later.head?_ascii ends)).decode_append, becomes, Utf8.decode_encode,
      induction]

theorem changes_repairing : Lexer.Changes repairing fun _ text => text :=
  fun _ _ _ respelled _ => respelled.decode_eq

end Grammar

namespace Lexer

open Grammar

/-- The tokens of an input are those of the text that is read from it, in the same order, with the
same texts and on the same lines. -/
theorem repair_keeps_tokens (lexer : Lexer) (files : FileAccess) (name : String) (bytes : Bytes) :
    let found (bytes : Bytes) : Answer :=
      ((lexer.run files (.load (.owned bytes) name)).lexer.run files (.tokens none)).answer
    ∃ tokens repaired : List Token, found bytes = .tokens tokens ∧
      found (Utf8.encode (Utf8.decode bytes)) = .tokens repaired ∧
      repaired.map Token.snippet = tokens.map Token.snippet := by
  intro found
  have respelled := respelled_withInput (respelled_repaired bytes) lexer name
  have same := respelled.tokensAhead changes_repairing
  exact ⟨_, _, rfl, rfl, same⟩

end Lexer

end ScriptLexer
