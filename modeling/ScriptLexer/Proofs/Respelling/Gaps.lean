import ScriptLexer.Proofs.Respelling

/-!
# Gaps that are spelled anew

What is left behind a gap is the same in both spellings. Within a gap they may be out of step by one
byte: a comment may end with a return in the one and with the newline behind it in the other.
-/

namespace ScriptLexer

namespace Grammar

namespace Respelled

variable {spelling : Spelling} {input other : Bytes}

/-! ## Comments -/

theorem opens_iff {rules : CommentRules} {kind : CommentKind}
    (respelled : Respelled spelling input other) :
    Opens rules kind input ↔ Opens rules kind other := by
  apply opens_congr
  · exact respelled.prefix_iff _ (by cases kind <;> decide)
  · exact respelled.prefix_iff _ (by decide)

theorem detect_eq (rules : CommentRules) (respelled : Respelled spelling input other) :
    rules.detect other = rules.detect input := by
  cases found : rules.detect input with
  | none =>
    rw [detect_eq_none_iff] at found ⊢
    exact fun kind opens => found kind (respelled.opens_iff.mpr opens)
  | some kind => exact detect_eq_some_iff.mpr (respelled.opens_iff.mp (detect_eq_some_iff.mp found))

theorem blockLength_cons {byte : UInt8} (notStar : byte ≠ Byte.star) (rest : Bytes) :
    CommentKind.blockLength (byte :: rest) = CommentKind.blockLength rest + 1 :=
  if_neg fun close => notStar close.1

theorem blockLength_append {run : Bytes} (foreign : ∀ byte ∈ run, 0x80 ≤ byte) (rest : Bytes) :
    CommentKind.blockLength (run ++ rest) = run.length + CommentKind.blockLength rest := by
  induction run with
  | nil => simp
  | cons byte run induction =>
    rw [List.forall_mem_cons] at foreign
    have notStar : byte ≠ Byte.star := by
      rintro rfl
      exact absurd foreign.1 (by decide)
    rw [List.cons_append, blockLength_cons notStar, induction foreign.2, List.length_cons]
    omega

theorem lineLength_append {run : Bytes} (foreign : ∀ byte ∈ run, 0x80 ≤ byte) (rest : Bytes) :
    CommentKind.lineLength (run ++ rest) = run.length + CommentKind.lineLength rest := by
  induction run with
  | nil => simp
  | cons byte run induction =>
    rw [List.forall_mem_cons] at foreign
    have noLineEnd : ¬ Byte.isLineEnd byte = true := by
      rw [isLineEnd_iff]
      rintro (rfl | rfl)
      · exact absurd foreign.1 (by decide)
      · exact absurd foreign.1 (by decide)
    rw [List.cons_append, CommentKind.lineLength, if_neg noLineEnd, induction foreign.2,
      List.length_cons]
    omega

/-- Behind a block comment. -/
theorem drop_blockLength (respelled : Respelled spelling input other) :
    Respelled spelling (input.drop (CommentKind.blockLength input))
      (other.drop (CommentKind.blockLength other)) := by
  induction respelled with
  | nil => exact .nil
  | @ascii byte input other ascii single later induction =>
    have close_iff : byte = Byte.star ∧ input.head? = some Byte.slash ↔
        byte = Byte.star ∧ other.head? = some Byte.slash :=
      and_congr_right fun _ => later.head?_iff (by decide)
    rw [CommentKind.blockLength, CommentKind.blockLength]
    by_cases close : byte = Byte.star ∧ input.head? = some Byte.slash
    · rw [if_pos close, if_pos (close_iff.mp close)]
      rcases List.head?_eq_some_iff.mp close.2 with ⟨rest, rfl⟩
      rcases later.of_append [Byte.slash] (by decide) with ⟨last, rfl, behind⟩
      exact behind
    · rw [if_neg close, if_neg (mt close_iff.mpr close), List.drop_succ_cons, List.drop_succ_cons]
      exact induction
  | lineEnd folds later induction =>
    rw [blockLength_cons (by decide), blockLength_cons (by decide), blockLength_cons (by decide)]
    exact induction
  | @run run changed input other becomes foreign changedForeign ends later induction =>
    rw [blockLength_append foreign.inside, blockLength_append changedForeign.inside]
    simpa [← List.drop_drop] using induction

/-- Behind a comment that its line ends. Where that is a carriage return, the newline that goes with it
may be left in front. -/
theorem drop_lineLength (respelled : Respelled spelling input other) :
    ∃ last, Respelled spelling (input.drop (CommentKind.lineLength input)) last ∧
      (last = other.drop (CommentKind.lineLength other) ∨
        last = Byte.newline :: other.drop (CommentKind.lineLength other)) := by
  induction respelled with
  | nil => exact ⟨[], .nil, .inl rfl⟩
  | @ascii byte input other ascii single later induction =>
    rw [CommentKind.lineLength, CommentKind.lineLength]
    by_cases lineEnd : Byte.isLineEnd byte = true
    · rw [if_pos lineEnd, if_pos lineEnd]
      exact ⟨other, later, .inl rfl⟩
    · rw [if_neg lineEnd, if_neg lineEnd, List.drop_succ_cons, List.drop_succ_cons]
      exact induction
  | @lineEnd input other folds later induction =>
    refine ⟨Byte.newline :: other, .ascii (by decide) (fun _ isReturn => ?_) later, .inr rfl⟩
    exact absurd isReturn (by decide)
  | @run run changed input other becomes foreign changedForeign ends later induction =>
    rw [lineLength_append foreign.inside, lineLength_append changedForeign.inside]
    simpa [← List.drop_drop] using induction

/-! ## Gaps -/

theorem drop_gapLength_blank {rules : CommentRules} {byte : UInt8} (blank : Byte.isBlank byte = true)
    (rest : Bytes) :
    (byte :: rest).drop (gapLength rules (byte :: rest)) = rest.drop (gapLength rules rest) := by
  rw [gapLength, if_pos blank, List.drop_succ_cons]

theorem drop_gapLength_comment {rules : CommentRules} {kind : CommentKind}
    (found : rules.detect input = some kind) :
    input.drop (gapLength rules input) = (input.drop (kind.length input)).drop
      (gapLength rules (input.drop (kind.length input))) := by
  rcases (detect_eq_some_iff.mp found).exists_cons with ⟨first, rest, rfl, notBlank⟩
  rw [gapLength, if_neg (mt isBlank_iff.mp notBlank), List.drop_drop]
  simp only [found]

theorem exists_cons_of_notBlank {byte : UInt8} (notBlank : ¬ Byte.isBlank byte = true)
    (respelled : Respelled spelling (byte :: input) other) :
    ∃ first rest, other = first :: rest ∧ ¬ Byte.isBlank first = true := by
  rcases respelled.cons_cases with ⟨-, later, rfl, -⟩ | ⟨-, rfl, -⟩ | ⟨-, first, later, rfl, large⟩
  · exact ⟨byte, later, rfl, notBlank⟩
  · exact absurd (by decide) notBlank
  · exact ⟨first, later, rfl, not_isBlank large⟩

theorem drop_gapLength (rules : CommentRules) (respelled : Respelled spelling input other) :
    Respelled spelling (input.drop (gapLength rules input))
      (other.drop (gapLength rules other)) := by
  fun_induction gapLength rules input generalizing other with
  | case1 =>
    rw [respelled.nil_iff.mp rfl, List.drop_nil, List.drop_nil]
    exact .nil
  | case2 byte rest blank induction =>
    rw [List.drop_succ_cons]
    rcases respelled.cons_cases with
      ⟨-, later, rfl, behind⟩ | ⟨-, rfl, last, later, rfl, rfl, behind⟩ | ⟨large, -⟩
    · rw [drop_gapLength_blank blank]
      exact induction behind
    · -- The return is skipped alone, so the newline is still in front of both.
      apply induction
      exact .ascii (by decide) (fun _ isReturn => absurd isReturn (by decide)) behind
    · exact absurd blank (not_isBlank large)
  | case3 byte rest notBlank absent =>
    rcases respelled.exists_cons_of_notBlank notBlank with ⟨first, later, rfl, firstNotBlank⟩
    rw [← respelled.detect_eq rules, detect_eq_none_iff] at absent
    have starts : Starts rules (first :: later) :=
      ⟨⟨first, later, rfl, mt isBlank_iff.mpr firstNotBlank⟩, absent⟩
    rw [starts.gapLength_eq]
    exact respelled
  | case4 byte rest notBlank kind found comment =>
    rename_i induction
    have otherFound := respelled.detect_eq rules
    rw [found] at otherFound
    rw [← List.drop_drop, drop_gapLength_comment otherFound]
    cases kind with
    | block => exact induction respelled.drop_blockLength
    | doubleSlash | doubleHash | semicolon =>
      rcases respelled.drop_lineLength with ⟨last, behind, rfl | rfl⟩
      · exact induction behind
      · have skipped := induction behind
        rw [drop_gapLength_blank (by decide)] at skipped
        exact skipped

end Respelled

end Grammar

end ScriptLexer
