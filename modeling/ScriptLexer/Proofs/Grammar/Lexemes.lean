import ScriptLexer.Proofs.Grammar.Gaps
import ScriptLexer.Proofs.Text

/-!
# Lexemes are read as the grammar has them

`Lexeme.read` takes the one lexeme that the grammar allows at a byte which starts one, with its text.
With the gaps before them, the pieces of an input are fixed by the grammar alone.
-/

namespace ScriptLexer

namespace Grammar

/-! ## The lexeme at a byte -/

theorem inWord_iff {delimiters : Delimiters} {byte : UInt8} :
    Lexeme.inWord delimiters byte = true ↔ ¬ Blank byte ∧ byte ∉ delimiters.bytes := by
  rw [Lexeme.inWord, Bool.and_eq_true, Bool.not_eq_true', Bool.not_eq_true',
    ← Bool.not_eq_true, ← Bool.not_eq_true, isBlank_iff]
  simp [Delimiters.contains]

theorem not_inWord_iff {delimiters : Delimiters} {byte : UInt8} :
    Lexeme.inWord delimiters byte = false ↔ Blank byte ∨ byte ∈ delimiters.bytes := by
  rw [← Bool.not_eq_true, inWord_iff]
  simp [Classical.or_iff_not_imp_left]

theorem Spells.text_eq {delimiters : Delimiters} {lexeme : Lexeme} {text : String}
    {following : Bytes} (spells : Spells delimiters lexeme text following) :
    lexeme.text = text := by
  cases spells with
  | delimiter member => exact Utf8.decode_ascii (delimiters.ascii _ member)
  | closed => rfl
  | unclosed => rfl
  | word => rfl

theorem Spells.isQuoted_of_empty {delimiters : Delimiters} {lexeme : Lexeme} {text : String}
    {following : Bytes} (spells : Spells delimiters lexeme text following) (empty : text = "") :
    lexeme.isQuoted = true := by
  revert empty
  cases spells with
  | delimiter => simp
  | closed => simp [Lexeme.isQuoted]
  | unclosed => simp [Lexeme.isQuoted]
  | word => simp [Utf8.decode_eq_empty_iff]

theorem Spells.length_pos {delimiters : Delimiters} {lexeme : Lexeme} {text : String}
    {following : Bytes} (spells : Spells delimiters lexeme text following) :
    0 < lexeme.bytes.length := by
  cases spells <;> simp [Lexeme.bytes]

theorem Spells.self {delimiters : Delimiters} {lexeme : Lexeme} {text : String}
    {following : Bytes} (spells : Spells delimiters lexeme text following) :
    Spells delimiters lexeme lexeme.text following := by
  rw [spells.text_eq]
  exact spells

/-! A literal and a word are what `takeWhile` takes: all of it passes the test, and what follows does
not begin with a byte that does. -/

private theorem takeWhile_eq {test : UInt8 → Bool} {inside following : Bytes}
    (holds : ∀ byte ∈ inside, test byte = true)
    (ends : ∀ byte ∈ following.head?, test byte = false) :
    (inside ++ following).takeWhile test = inside := by
  rw [List.takeWhile_append_of_pos holds]
  rcases following with _ | ⟨byte, rest⟩
  · simp
  · simp [ends byte rfl]

private theorem exists_takeWhile (test : UInt8 → Bool) (bytes : Bytes) :
    ∃ following, bytes = bytes.takeWhile test ++ following ∧
      (∀ byte ∈ bytes.takeWhile test, test byte = true) ∧
      ∀ byte ∈ following.head?, test byte = false := by
  refine ⟨bytes.dropWhile test, List.takeWhile_append_dropWhile.symm, ?_, ?_⟩
  · exact List.all_eq_true.mp List.all_takeWhile
  · intro byte member
    have stopped := List.head?_dropWhile_not test bytes
    rw [member] at stopped
    exact stopped

private theorem takeWhile_literal {inner following : Bytes} (inside : Byte.quote ∉ inner)
    (ends : ∀ byte ∈ following.head?, byte = Byte.quote) :
    (inner ++ following).takeWhile (· != Byte.quote) = inner := by
  apply takeWhile_eq
  · intro byte member
    exact bne_iff_ne.mpr fun equal => inside (equal ▸ member)
  · intro byte member
    simp [ends byte member]

/-- The lexeme that the grammar has is the one that is read. -/
theorem Spells.read_eq {delimiters : Delimiters} {lexeme : Lexeme} {text : String}
    {first : UInt8} {rest following : Bytes} (spells : Spells delimiters lexeme text following)
    (input : lexeme.bytes ++ following = first :: rest) :
    Lexeme.read delimiters first rest = lexeme := by
  cases spells with
  | delimiter member =>
    cases input
    simp [Lexeme.read, Delimiters.contains, member]
  | @closed inner following noDelimiter inside =>
    have taken : (inner ++ Byte.quote :: following).takeWhile (· != Byte.quote) = inner :=
      takeWhile_literal inside (by simp)
    have equal : first = Byte.quote ∧ rest = inner ++ Byte.quote :: following := by
      simpa [Lexeme.bytes, eq_comm] using input
    rw [equal.1, equal.2]
    simp [Lexeme.read, Delimiters.contains, noDelimiter, taken]
  | @unclosed inner noDelimiter inside =>
    have taken : (inner ++ []).takeWhile (· != Byte.quote) = inner :=
      takeWhile_literal inside (by simp)
    rw [List.append_nil] at taken
    have equal : first = Byte.quote ∧ rest = inner := by
      simpa [Lexeme.bytes, eq_comm] using input
    rw [equal.1, equal.2]
    simp [Lexeme.read, Delimiters.contains, noDelimiter, taken]
  | @word head tail following noQuote inside ends =>
    have taken : (tail ++ following).takeWhile (Lexeme.inWord delimiters) = tail := by
      apply takeWhile_eq
      · intro byte member
        exact inWord_iff.mpr (inside byte (List.mem_cons_of_mem _ member))
      · intro byte member
        exact not_inWord_iff.mpr (ends byte member)
    have noDelimiter : head ∉ delimiters.bytes := (inside head (List.mem_cons_self ..)).2
    cases input
    simp [Lexeme.read, Delimiters.contains, noDelimiter, noQuote, taken]

/-- A quoted literal is closed unless all that is left is inside of it. -/
private theorem spells_literal {delimiters : Delimiters}
    (noDelimiter : Byte.quote ∉ delimiters.bytes) (rest : Bytes) :
    let inner := rest.takeWhile (· != Byte.quote)
    let literal := Lexeme.quoted inner (inner.length < rest.length)
    ∃ following, Byte.quote :: rest = literal.bytes ++ following ∧
      Spells delimiters literal literal.text following := by
  intro inner literal
  rcases exists_takeWhile (· != Byte.quote) rest with ⟨following, parts, inside, ends⟩
  change rest = inner ++ following at parts
  have inside : Byte.quote ∉ inner := fun member => by simpa using inside _ member
  have lengths := congrArg List.length parts
  rw [List.length_append] at lengths
  rcases following with _ | ⟨last, following⟩
  · have unclosed : ¬ inner.length < rest.length := by simp [lengths]
    have equal : literal = .quoted inner false := congrArg _ (decide_eq_false unclosed)
    rw [equal]
    refine ⟨[], ?_, (Spells.unclosed noDelimiter inside).self⟩
    simpa [Lexeme.bytes] using parts
  · have isQuote : last = Byte.quote := by simpa using ends last rfl
    have closed : inner.length < rest.length := by simp [lengths]
    have equal : literal = .quoted inner true := congrArg _ (decide_eq_true closed)
    rw [equal]
    refine ⟨following, ?_, (Spells.closed noDelimiter inside).self⟩
    simpa [Lexeme.bytes, isQuote] using parts

/-- What is read is a lexeme of the grammar, with what follows it. -/
theorem spells_read (delimiters : Delimiters) {first : UInt8} (notBlank : ¬ Blank first)
    (rest : Bytes) :
    ∃ following, first :: rest = (Lexeme.read delimiters first rest).bytes ++ following ∧
      Spells delimiters (Lexeme.read delimiters first rest)
        (Lexeme.read delimiters first rest).text following := by
  by_cases delimiter : first ∈ delimiters.bytes
  · have read : Lexeme.read delimiters first rest = .delimiter first := by
      simp [Lexeme.read, Delimiters.contains, delimiter]
    rw [read]
    exact ⟨rest, rfl, (Spells.delimiter delimiter).self⟩
  by_cases quote : first = Byte.quote
  · subst quote
    have read : Lexeme.read delimiters Byte.quote rest =
        .quoted (rest.takeWhile (· != Byte.quote))
          ((rest.takeWhile (· != Byte.quote)).length < rest.length) := by
      simp [Lexeme.read, Delimiters.contains, delimiter]
    rw [read]
    exact spells_literal delimiter rest
  · have read : Lexeme.read delimiters first rest =
        .word (first :: rest.takeWhile (Lexeme.inWord delimiters)) := by
      simp [Lexeme.read, Delimiters.contains, delimiter, quote]
    rw [read]
    rcases exists_takeWhile (Lexeme.inWord delimiters) rest with ⟨following, parts, inside, ends⟩
    refine ⟨following, ?_, (Spells.word quote ?_ ?_).self⟩
    · rw [Lexeme.bytes, List.cons_append, ← parts]
    · intro byte member
      rcases List.mem_cons.mp member with equal | member
      · exact equal ▸ ⟨notBlank, delimiter⟩
      · exact inWord_iff.mp (inside byte member)
    · intro byte member
      exact not_inWord_iff.mp (ends byte member)

/-! ## The pieces of an input -/

/-- A gap is not all of the input where a lexeme follows it. -/
theorem Gap.not_all {rules : CommentRules} {delimiters : Delimiters} {gap following : Bytes}
    {lexeme : Lexeme} {text : String} (isGap : Gap rules gap (lexeme.bytes ++ following))
    (starts : Starts rules (lexeme.bytes ++ following))
    (spells : Spells delimiters lexeme text following) :
    ¬ Gap rules (gap ++ (lexeme.bytes ++ following)) [] := by
  intro all
  have whole := all.gapLength_append
  have part := isGap.gapLength_append
  have nonempty := spells.length_pos
  rw [List.append_nil, part, starts.gapLength_eq] at whole
  simp only [List.length_append] at whole
  omega

theorem Pieces.eq_nil {rules : CommentRules} {delimiters : Delimiters} {offset : Nat}
    {input : Bytes} {pieces : List Piece} (isGap : Gap rules input [])
    (holds : Pieces rules delimiters offset input pieces) : pieces = [] := by
  cases holds with
  | finish => rfl
  | lexeme otherGap starts spells later => exact (otherGap.not_all starts spells isGap).elim

/-- An input is cut in one way: both gaps are as long as `gapLength` says, so that the lexemes start at
the same byte. -/
theorem Gap.cut_unique {rules : CommentRules} {delimiters : Delimiters}
    {gap following otherGap otherFollowing : Bytes} {lexeme other : Lexeme}
    {text otherText : String} (isGap : Gap rules gap (lexeme.bytes ++ following))
    (starts : Starts rules (lexeme.bytes ++ following))
    (spells : Spells delimiters lexeme text following)
    (otherIsGap : Gap rules otherGap (other.bytes ++ otherFollowing))
    (otherStarts : Starts rules (other.bytes ++ otherFollowing))
    (otherSpells : Spells delimiters other otherText otherFollowing)
    (same : gap ++ (lexeme.bytes ++ following) = otherGap ++ (other.bytes ++ otherFollowing)) :
    gap = otherGap ∧ lexeme = other ∧ text = otherText ∧ following = otherFollowing := by
  have gapLength := isGap.gapLength_append
  have otherGapLength := otherIsGap.gapLength_append
  rw [starts.gapLength_eq, same] at gapLength
  rw [otherStarts.gapLength_eq, gapLength] at otherGapLength
  rcases List.append_inj same (by omega) with ⟨sameGap, sameLexeme⟩
  rcases starts.notBlank with ⟨first, rest, begins, -⟩
  have equal : lexeme = other :=
    (spells.read_eq begins).symm.trans (otherSpells.read_eq (sameLexeme ▸ begins))
  subst equal
  exact ⟨sameGap, rfl, spells.text_eq.symm.trans otherSpells.text_eq,
    List.append_cancel_left sameLexeme⟩

theorem Pieces.exists_cons {rules : CommentRules} {delimiters : Delimiters} {offset : Nat}
    {gap following : Bytes} {lexeme : Lexeme} {text : String} {pieces : List Piece}
    (isGap : Gap rules gap (lexeme.bytes ++ following))
    (starts : Starts rules (lexeme.bytes ++ following))
    (spells : Spells delimiters lexeme text following)
    (holds : Pieces rules delimiters offset (gap ++ (lexeme.bytes ++ following)) pieces) :
    ∃ later, pieces = ⟨text, lexeme.isQuoted, offset + gap.length,
        offset + gap.length + lexeme.length⟩ :: later ∧
      Pieces rules delimiters (offset + gap.length + lexeme.length) following later := by
  have notAll := isGap.not_all starts spells
  generalize same : gap ++ (lexeme.bytes ++ following) = input at holds notAll
  cases holds with
  | finish otherGap => exact (notAll otherGap).elim
  | lexeme otherIsGap otherStarts otherSpells otherHolds =>
    rcases isGap.cut_unique starts spells otherIsGap otherStarts otherSpells same with
      ⟨rfl, rfl, rfl, rfl⟩
    exact ⟨_, rfl, otherHolds⟩

end Grammar

end ScriptLexer
