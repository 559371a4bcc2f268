import ScriptLexer.Proofs.Grammar.Gaps

/-!
# What a newline ends

The parts of an input are the same where a newline and anything else comes behind it, unless the input
ends inside of a literal or of a block comment. A newline ends everything else that the end of the
input ends, and no opener goes across a newline or another blank byte.
-/

namespace ScriptLexer

namespace Grammar

/-- The input ends in a block comment that is not closed, or in a literal without its closing quote. -/
inductive EndsInside (rules : CommentRules) (delimiters : Delimiters) : Bytes → Prop
  | comment {gap input : Bytes} (isGap : Gap rules gap input) (opens : Opens rules .block input)
      (unclosed : ¬ [Byte.star, Byte.slash] <:+: input) : EndsInside rules delimiters (gap ++ input)
  | literal {gap inner : Bytes} (isGap : Gap rules gap (Byte.quote :: inner))
      (noDelimiter : Byte.quote ∉ delimiters.bytes) (unclosed : Byte.quote ∉ inner) :
      EndsInside rules delimiters (gap ++ Byte.quote :: inner)
  | lexeme {gap following : Bytes} {lexeme : Lexeme} {text : String}
      (isGap : Gap rules gap (lexeme.bytes ++ following))
      (starts : Starts rules (lexeme.bytes ++ following))
      (spells : Spells delimiters lexeme text following)
      (later : EndsInside rules delimiters following) :
      EndsInside rules delimiters (gap ++ (lexeme.bytes ++ following))

section

variable {rules : CommentRules} {delimiters : Delimiters} {input part gap following : Bytes}

theorem EndsInside.behind_trivia (trivia : Trivia rules part input)
    (inside : EndsInside rules delimiters input) : EndsInside rules delimiters (part ++ input) := by
  cases inside with
  | comment isGap opens unclosed =>
    rw [← List.append_assoc]
    exact .comment (.cons trivia isGap) opens unclosed
  | literal isGap noDelimiter unclosed =>
    rw [← List.append_assoc]
    exact .literal (.cons trivia isGap) noDelimiter unclosed
  | lexeme isGap starts spells later =>
    rw [← List.append_assoc]
    exact .lexeme (.cons trivia isGap) starts spells later

theorem EndsInside.behind_gap (isGap : Gap rules gap input)
    (inside : EndsInside rules delimiters input) : EndsInside rules delimiters (gap ++ input) := by
  induction isGap with
  | nil => exact inside
  | cons trivia _ induction =>
    rw [List.append_assoc]
    exact (induction inside).behind_trivia trivia

theorem Spells.endsInside {inner : Bytes} {text : String}
    (spells : Spells delimiters (.quoted inner false) text following) :
    EndsInside rules delimiters ((Lexeme.quoted inner false).bytes ++ following) := by
  cases spells with
  | unclosed noDelimiter inside =>
    have literal : EndsInside rules delimiters ([] ++ Byte.quote :: inner) :=
      .literal .nil noDelimiter inside
    rw [Lexeme.bytes, if_neg Bool.false_ne_true, List.append_nil, List.append_nil]
    exact literal

/-- What an input ends inside of has begun in it. -/
theorem EndsInside.begins (inside : EndsInside rules delimiters input) :
    opener .block <:+: input ∨ Byte.quote ∈ input := by
  induction inside with
  | comment _ opens => exact .inl (opens.begins.isInfix.trans (List.suffix_append _ _).isInfix)
  | literal => exact .inr (by simp)
  | @lexeme gap following lexeme text _ _ _ _ induction =>
    rw [← List.append_assoc]
    rcases induction with begun | member
    · exact .inl (begun.trans (List.suffix_append _ _).isInfix)
    · exact .inr (List.mem_append_right _ member)

/-! ## Blank bytes and more behind the input -/

section

variable {rest : Bytes}

/-- What holds none of the first byte behind the input does not go across the end of the input. -/
theorem prefix_append_iff (fresh : ∀ byte ∈ rest.head?, byte ∉ part) :
    part <+: input ++ rest ↔ part <+: input := by
  induction part generalizing input with
  | nil => simp
  | cons byte part induction =>
    rcases input with _ | ⟨first, input⟩
    · rcases rest with _ | ⟨next, rest⟩
      · rfl
      · have different : byte ≠ next := fun equal => fresh next rfl (equal ▸ List.mem_cons_self ..)
        simp [List.cons_prefix_cons, different]
    · have freshLater : ∀ next ∈ rest.head?, next ∉ part :=
        fun next member inside => fresh next member (List.mem_cons_of_mem byte inside)
      rw [List.cons_append, List.cons_prefix_cons, List.cons_prefix_cons, induction freshLater]

theorem not_blank_of_mem_opener (kind : CommentKind) : ∀ byte ∈ opener kind, ¬ Blank byte := by
  cases kind <;> decide +kernel

variable (blank : ∀ byte ∈ rest.head?, Blank byte)
include blank

theorem opens_append_iff {kind : CommentKind} :
    Opens rules kind (input ++ rest) ↔ Opens rules kind input := by
  have noBlank : ∀ byte ∈ [Byte.slash, Byte.slash, Byte.dollar], ¬ Blank byte := by decide +kernel
  apply opens_congr
  · exact prefix_append_iff fun byte member inside =>
      not_blank_of_mem_opener kind byte inside (blank byte member)
  · exact prefix_append_iff fun byte member inside => noBlank byte inside (blank byte member)

theorem Starts.append (starts : Starts rules input) : Starts rules (input ++ rest) := by
  rcases starts with ⟨⟨first, later, rfl, notBlank⟩, noComment⟩
  refine ⟨⟨first, _, rfl, notBlank⟩, fun kind opens => ?_⟩
  exact noComment kind ((opens_append_iff blank).mp opens)

end

/-! ## A newline and more behind the input -/

variable (more : Bytes)

theorem blank_of_newline : ∀ byte ∈ (Byte.newline :: more).head?, Blank byte := by
  intro byte member
  cases member
  decide

theorem opens_append_newline_iff {kind : CommentKind} :
    Opens rules kind (input ++ Byte.newline :: more) ↔ Opens rules kind input :=
  opens_append_iff (blank_of_newline more)

theorem Trivia.append_newline (trivia : Trivia rules part following) (nonempty : following ≠ []) :
    Trivia rules part (following ++ Byte.newline :: more) := by
  cases trivia with
  | blank blank => exact .blank blank
  | comment opens through =>
    rw [← opens_append_newline_iff more, List.append_assoc] at opens
    cases through with
    | closed ends first => exact .comment opens (.closed ends first)
    | unclosed _ last => exact (nonempty last).elim

theorem Gap.append_newline (isGap : Gap rules gap following) (nonempty : following ≠ []) :
    Gap rules gap (following ++ Byte.newline :: more) := by
  induction isGap with
  | nil => exact .nil
  | cons trivia _ induction =>
    have longer := trivia.append_newline more (List.append_ne_nil_of_right_ne_nil _ nonempty)
    rw [List.append_assoc] at longer
    exact .cons longer (induction nonempty)

theorem Spells.append_newline {lexeme : Lexeme} {text : String}
    (spells : Spells delimiters lexeme text following)
    (closed : ¬ EndsInside rules delimiters (lexeme.bytes ++ following)) :
    Spells delimiters lexeme text (following ++ Byte.newline :: more) := by
  cases spells with
  | delimiter member => exact .delimiter member
  | closed noDelimiter inside => exact .closed noDelimiter inside
  | unclosed noDelimiter inside => exact (closed (Spells.unclosed noDelimiter inside).endsInside).elim
  | word noQuote inside ends =>
    refine .word noQuote inside fun byte member => ?_
    rcases following with _ | ⟨first, following⟩
    · exact .inl (blank_of_newline more byte member)
    · exact ends byte member

/-- A comment that ends with its line is closed by a newline behind the input. -/
theorem Through.append_newline {kind : CommentKind} (notBlock : kind ≠ .block)
    (absent : ∀ closer ∈ closers kind, ¬ closer <:+: part) :
    Through (closers kind) (part ++ [Byte.newline]) more := by
  have member : [Byte.newline] ∈ closers kind := by
    cases kind with
    | block => exact (notBlock rfl).elim
    | doubleSlash | doubleHash | semicolon => exact List.mem_cons_self ..
  refine .closed ⟨[Byte.newline], member, List.suffix_append _ _⟩ ?_
  rw [List.dropLast_concat]
  exact absent

/-- The last part of a gap takes in a newline behind the input if that ends it. -/
theorem Trivia.concat_newline (trivia : Trivia rules part [])
    (closed : ¬ EndsInside rules delimiters part) :
    Gap rules (part ++ [Byte.newline]) more := by
  have newline : Gap rules ([Byte.newline] ++ []) more := .cons (.blank (by decide)) .nil
  cases trivia with
  | blank blank => exact .cons (.blank blank) newline
  | @comment kind _ _ opens through =>
    rw [List.append_nil] at opens
    have longer := (opens_append_newline_iff more).mpr opens
    cases through with
    | closed ends first => exact .cons (.comment longer (.closed ends first)) newline
    | unclosed absent =>
      have notBlock : kind ≠ .block := by
        rintro rfl
        exact closed (.comment .nil opens (absent _ (List.mem_singleton_self _)))
      have through := Through.append_newline more notBlock absent
      rw [← List.append_nil (part ++ [Byte.newline])]
      refine .cons (.comment ?_ through) .nil
      rw [List.nil_append, List.append_assoc]
      exact longer

/-- A gap up to the end of the input goes through a newline that is put there. -/
theorem Gap.concat_newline (isGap : Gap rules gap [])
    (closed : ¬ EndsInside rules delimiters gap) : Gap rules (gap ++ [Byte.newline]) more := by
  obtain ⟨following, nothing⟩ : ∃ following : Bytes, following = [] := ⟨[], rfl⟩
  rw [← nothing] at isGap
  induction isGap with
  | nil =>
    have newline : Gap rules ([Byte.newline] ++ []) more := .cons (.blank (by decide)) .nil
    exact newline
  | @cons part gap following trivia later induction =>
    subst nothing
    rw [List.append_nil] at trivia
    rcases gap with _ | ⟨first, rest⟩
    · rw [List.append_nil] at closed ⊢
      exact trivia.concat_newline more closed
    · have behind := induction (fun inside => closed (inside.behind_trivia trivia)) rfl
      have longer := trivia.append_newline more (List.cons_ne_nil first rest)
      rw [List.append_assoc]
      refine .cons ?_ behind
      rw [List.append_assoc]
      exact longer

end

end Grammar

end ScriptLexer
