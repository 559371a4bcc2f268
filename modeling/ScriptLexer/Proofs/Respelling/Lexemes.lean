import ScriptLexer.Proofs.Grammar.Lexemes
import ScriptLexer.Proofs.Respelling

/-!
# Lexemes that are spelled anew

A lexeme is one of the same kind in both spellings, and so is what follows it. The newlines in front of
a cursor are as many.
-/

namespace ScriptLexer

namespace Grammar

namespace Respelled

variable {spelling : Spelling} {input other : Bytes}

/-! ## Lexemes -/

section

variable (test : UInt8 → Bool) (bytes : Bytes)

private theorem drop_takeWhile :
    bytes.drop (bytes.takeWhile test).length = bytes.dropWhile test := by
  have parts : bytes = bytes.takeWhile test ++ bytes.dropWhile test :=
    List.takeWhile_append_dropWhile.symm
  have dropped := congrArg (List.drop (bytes.takeWhile test).length) parts
  rw [List.drop_left] at dropped
  exact dropped

private theorem length_takeWhile_lt_iff :
    (bytes.takeWhile test).length < bytes.length ↔ bytes.dropWhile test ≠ [] := by
  have left := congrArg List.length (drop_takeWhile test bytes)
  rw [List.length_drop] at left
  rw [Ne, ← List.length_eq_zero_iff]
  omega

end

/-- Behind a literal, which takes its closing quote along. -/
private theorem drop_literal (rest : Bytes) :
    let inner := rest.takeWhile (· != Byte.quote)
    let literal := Lexeme.quoted inner (inner.length < rest.length)
    (Byte.quote :: rest).drop literal.length = (rest.dropWhile (· != Byte.quote)).tail := by
  intro inner literal
  have behind := drop_takeWhile (· != Byte.quote) rest
  have closed := length_takeWhile_lt_iff (· != Byte.quote) rest
  by_cases nothing : rest.dropWhile (· != Byte.quote) = []
  · have length : literal.length = inner.length + 1 := by
      simp [literal, Lexeme.length, Lexeme.bytes, inner, closed, nothing]
    rw [length, List.drop_succ_cons, behind, nothing, List.tail_nil]
  · have length : literal.length = inner.length + 1 + 1 := by
      simp [literal, Lexeme.length, Lexeme.bytes, inner, closed, nothing]
    rw [length, List.drop_succ_cons, ← List.tail_drop, behind]

private theorem read_word {delimiters : Delimiters} {first : UInt8}
    (noDelimiter : first ∉ delimiters.bytes) (noQuote : first ≠ Byte.quote)
    (notBlank : ¬ Byte.isBlank first = true) (rest : Bytes) :
    Lexeme.read delimiters first rest =
      .word ((first :: rest).takeWhile (Lexeme.inWord delimiters)) := by
  have inside : Lexeme.inWord delimiters first = true :=
    inWord_iff.mpr ⟨mt isBlank_iff.mpr notBlank, noDelimiter⟩
  simp [Lexeme.read, Delimiters.contains, noDelimiter, noQuote, inside]

private theorem inWord_of_foreign (delimiters : Delimiters) (byte : UInt8)
    (foreign : 0x80 ≤ byte) : Lexeme.inWord delimiters byte = true := by
  refine inWord_iff.mpr ⟨mt isBlank_iff.mpr (not_isBlank foreign), fun member => ?_⟩
  exact UInt8.not_lt.mpr foreign (delimiters.ascii byte member)

private theorem ne_quote_of_foreign (byte : UInt8) (foreign : 0x80 ≤ byte) :
    (byte != Byte.quote) = true := by
  rw [bne_iff_ne]
  rintro rfl
  exact absurd foreign (by decide)

private theorem inWord_lineEnds (delimiters : Delimiters) :
    Lexeme.inWord delimiters Byte.carriageReturn = Lexeme.inWord delimiters Byte.newline := by
  simp [Lexeme.inWord, Byte.isBlank]

theorem tail (respelled : Respelled spelling input other)
    (fixed : ∀ byte ∈ input.head?, isFixed byte = true) :
    Respelled spelling input.tail other.tail := by
  rcases input with _ | ⟨first, input⟩
  · rw [respelled.nil_iff.mp rfl]
    exact .nil
  · rcases respelled.of_append [first] (by simpa using fixed) with ⟨later, rfl, behind⟩
    exact behind

/-- `lexeme` and what follows it, and the same in the other spelling. -/
structure Reads (spelling : Spelling) (input other : Bytes) (lexeme changed : Lexeme) : Prop where
  isQuoted : changed.isQuoted = lexeme.isQuoted
  content : Respelled spelling lexeme.content changed.content
  behind : Respelled spelling (input.drop lexeme.length) (other.drop changed.length)

section

variable {delimiters : Delimiters} {first head : UInt8} {rest later : Bytes}

private theorem reads_word (noDelimiter : first ∉ delimiters.bytes) (noQuote : first ≠ Byte.quote)
    (notBlank : ¬ Byte.isBlank first = true) (headNoDelimiter : head ∉ delimiters.bytes)
    (headNoQuote : head ≠ Byte.quote) (headNotBlank : ¬ Byte.isBlank head = true)
    (respelled : Respelled spelling (first :: rest) (head :: later)) :
    Reads spelling (first :: rest) (head :: later) (Lexeme.read delimiters first rest)
      (Lexeme.read delimiters head later) := by
  have foreign := inWord_of_foreign delimiters
  have lineEnds := inWord_lineEnds delimiters
  rw [read_word noDelimiter noQuote notBlank, read_word headNoDelimiter headNoQuote headNotBlank]
  refine ⟨rfl, respelled.takeWhile foreign lineEnds, ?_⟩
  rw [Lexeme.length, Lexeme.length, Lexeme.bytes, Lexeme.bytes, drop_takeWhile, drop_takeWhile]
  exact respelled.dropWhile foreign lineEnds

private theorem reads_delimiter (delimiter : first ∈ delimiters.bytes)
    (respelled : Respelled spelling rest later) :
    Reads spelling (first :: rest) (first :: later) (Lexeme.read delimiters first rest)
      (Lexeme.read delimiters first later) := by
  have read (rest : Bytes) : Lexeme.read delimiters first rest = .delimiter first := by
    simp [Lexeme.read, Delimiters.contains, delimiter]
  rw [read, read]
  exact ⟨rfl, .ascii (delimiters.ascii first delimiter) (by simp) .nil, respelled⟩

private theorem reads_literal (noDelimiter : Byte.quote ∉ delimiters.bytes)
    (respelled : Respelled spelling rest later) :
    Reads spelling (Byte.quote :: rest) (Byte.quote :: later)
      (Lexeme.read delimiters Byte.quote rest) (Lexeme.read delimiters Byte.quote later) := by
  have read (rest : Bytes) : Lexeme.read delimiters Byte.quote rest =
      .quoted (rest.takeWhile (· != Byte.quote))
        ((rest.takeWhile (· != Byte.quote)).length < rest.length) := by
    simp [Lexeme.read, Delimiters.contains, noDelimiter]
  rw [read, read]
  refine ⟨rfl, respelled.takeWhile ne_quote_of_foreign rfl, ?_⟩
  rw [drop_literal, drop_literal]
  refine (respelled.dropWhile ne_quote_of_foreign rfl).tail fun byte member => ?_
  have stopped := List.head?_dropWhile_not (· != Byte.quote) rest
  rw [member] at stopped
  have isQuote : byte = Byte.quote := by simpa using stopped
  rw [isQuote]
  decide

variable (delimiters) in
/-- A lexeme is one of its kind in the other spelling too. -/
theorem reads (notBlank : ¬ Byte.isBlank first = true)
    (respelled : Respelled spelling (first :: rest) (head :: later)) :
    Reads spelling (first :: rest) (head :: later) (Lexeme.read delimiters first rest)
      (Lexeme.read delimiters head later) := by
  have noMeaning {byte : UInt8} (foreign : 0x80 ≤ byte) : byte ∉ delimiters.bytes ∧
      byte ≠ Byte.quote ∧ ¬ Byte.isBlank byte = true :=
    ⟨(inWord_iff.mp (inWord_of_foreign delimiters byte foreign)).2,
      bne_iff_ne.mp (ne_quote_of_foreign byte foreign), not_isBlank foreign⟩
  rcases respelled.cons_cases with
    ⟨-, _, equal, behind⟩ | ⟨-, rfl, -⟩ | ⟨large, _, _, equal, headLarge⟩
  · cases equal
    by_cases delimiter : first ∈ delimiters.bytes
    · exact reads_delimiter delimiter behind
    by_cases quote : first = Byte.quote
    · subst quote
      exact reads_literal delimiter behind
    · exact reads_word delimiter quote notBlank delimiter quote notBlank respelled
  · exact absurd (by decide) notBlank
  · cases equal
    rcases noMeaning large with ⟨noDelimiter, noQuote, -⟩
    rcases noMeaning headLarge with ⟨headNoDelimiter, headNoQuote, headNotBlank⟩
    exact reads_word noDelimiter noQuote notBlank headNoDelimiter headNoQuote headNotBlank respelled

end

/-! ## Lines -/

/-- The newlines that a cursor counts on its way to the end. -/
theorem count_newline (respelled : Respelled spelling input other) :
    other.dropLast.count Byte.newline = input.dropLast.count Byte.newline := by
  have none {run : Bytes} (foreign : Foreign run) :
      run.count Byte.newline = 0 ∧ run.dropLast.count Byte.newline = 0 := by
    have absent : Byte.newline ∉ run := foreign.not_mem (by decide)
    exact ⟨List.count_eq_zero.mpr absent,
      List.count_eq_zero.mpr fun member => absent (List.dropLast_subset run member)⟩
  induction respelled with
  | nil => rfl
  | @ascii byte input other ascii single later induction =>
    rcases input with _ | ⟨next, input⟩
    · rw [later.nil_iff.mp rfl]
    · have nonempty : other ≠ [] := mt later.nil_iff.mpr (List.cons_ne_nil next input)
      rw [List.dropLast_cons_of_ne_nil nonempty, List.dropLast_cons_of_ne_nil (by simp),
        List.count_cons, List.count_cons, induction]
  | @lineEnd input other folds later induction =>
    rcases input with _ | ⟨next, input⟩
    · rw [later.nil_iff.mp rfl]
      rfl
    · have nonempty : other ≠ [] := mt later.nil_iff.mpr (List.cons_ne_nil next input)
      rw [List.dropLast_cons_of_ne_nil nonempty, List.dropLast_cons_of_ne_nil (by simp),
        List.dropLast_cons_of_ne_nil (by simp), List.count_cons, List.count_cons, List.count_cons,
        induction]
      rfl
  | @run run changed input other becomes foreign changedForeign ends later induction =>
    rcases input with _ | ⟨next, input⟩
    · rw [later.nil_iff.mp rfl, List.append_nil, List.append_nil, (none foreign).2,
        (none changedForeign).2]
    · have nonempty : other ≠ [] := mt later.nil_iff.mpr (List.cons_ne_nil next input)
      rw [List.dropLast_append_of_ne_nil nonempty, List.dropLast_append_of_ne_nil (by simp),
        List.count_append, List.count_append, (none foreign).1, (none changedForeign).1, induction]

end Respelled

end Grammar

end ScriptLexer
