import ScriptLexer.Proofs.Grammar

/-!
# Gaps are found as the grammar has them

`gapLength` measures the longest gap that the input begins with: what it measures is a gap, and what
follows is the start of a lexeme or nothing. There is only one such gap, since a comment is over at
its first closer.
-/

namespace ScriptLexer

namespace Grammar

/-! ## Blank bytes and openers -/

theorem isBlank_iff {byte : UInt8} : Byte.isBlank byte = true ↔ Blank byte := by
  simp [Byte.isBlank, Blank, or_assoc]

theorem Blank.ascii {byte : UInt8} (blank : Blank byte) : byte < 0x80 := by
  simp only [Blank, List.mem_cons, List.not_mem_nil, or_false] at blank
  rcases blank with rfl | rfl | rfl | rfl <;> decide

theorem isLineEnd_iff {byte : UInt8} :
    Byte.isLineEnd byte = true ↔ byte = Byte.newline ∨ byte = Byte.carriageReturn := by
  simp [Byte.isLineEnd]

private theorem opens_eq (kind : CommentKind) (input : Bytes) :
    kind.opens input = true ↔ opener kind <+: input ∧
      (kind = .doubleSlash → ¬ [Byte.slash, Byte.slash, Byte.dollar] <+: input) := by
  cases kind with
  | doubleSlash =>
    simp only [CommentKind.opens, Bool.and_eq_true, List.isPrefixOf_iff_prefix, opener, true_implies]
    refine and_congr_right fun begins => ?_
    rcases begins with ⟨_ | ⟨third, rest⟩, rfl⟩
    · simp
    · simpa [List.cons_prefix_cons] using ⟨Ne.symm, Ne.symm⟩
  | block => simp [CommentKind.opens, opener]
  | doubleHash => simp [CommentKind.opens, opener]
  | semicolon => simp [CommentKind.opens, opener]

theorem opens_iff {rules : CommentRules} {kind : CommentKind} {input : Bytes} :
    (rules.enabled kind.rule && kind.opens input) = true ↔ Opens rules kind input := by
  rw [Bool.and_eq_true, opens_eq]
  exact ⟨fun ⟨on, begins, noDollar⟩ => ⟨on, begins, noDollar⟩,
    fun opens => ⟨opens.on, opens.begins, opens.noDollar⟩⟩

/-- What opens a comment is told by how the input begins. -/
theorem opens_congr {rules : CommentRules} {kind : CommentKind} {input other : Bytes}
    (begins_iff : opener kind <+: input ↔ opener kind <+: other)
    (dollar_iff : [Byte.slash, Byte.slash, Byte.dollar] <+: input ↔
      [Byte.slash, Byte.slash, Byte.dollar] <+: other) :
    Opens rules kind input ↔ Opens rules kind other := by
  constructor
  · exact fun ⟨on, begins, noDollar⟩ =>
      ⟨on, begins_iff.mp begins, fun isSlash => mt dollar_iff.mpr (noDollar isSlash)⟩
  · exact fun ⟨on, begins, noDollar⟩ =>
      ⟨on, begins_iff.mpr begins, fun isSlash => mt dollar_iff.mp (noDollar isSlash)⟩

/-- No opener is the beginning of another one. -/
theorem Opens.eq {rules : CommentRules} {left right : CommentKind} {input : Bytes}
    (leftOpens : Opens rules left input) (rightOpens : Opens rules right input) :
    left = right := by
  rcases leftOpens.begins with ⟨rest, rfl⟩
  have begins := rightOpens.begins
  cases left <;> cases right <;>
    first
    | rfl
    | simp [opener, List.cons_prefix_cons, Byte.slash, Byte.star, Byte.hash, Byte.semicolon] at begins

theorem detect_eq_some_iff {rules : CommentRules} {kind : CommentKind} {input : Bytes} :
    rules.detect input = some kind ↔ Opens rules kind input := by
  have sound {other : CommentKind} (found : rules.detect input = some other) :
      Opens rules other input := by
    have holds := List.find?_some found
    exact opens_iff.mp holds
  constructor
  · exact sound
  · intro opens
    have member : kind ∈ CommentKind.all := by cases kind <;> decide
    cases found : rules.detect input with
    | none => exact (List.find?_eq_none.mp found kind member (opens_iff.mpr opens)).elim
    | some other => rw [(sound found).eq opens]

theorem detect_eq_none_iff {rules : CommentRules} {input : Bytes} :
    rules.detect input = none ↔ ∀ kind, ¬ Opens rules kind input := by
  constructor
  · intro absent kind opens
    rw [detect_eq_some_iff.mpr opens] at absent
    cases absent
  · intro noComment
    cases found : rules.detect input with
    | none => rfl
    | some kind => exact (noComment kind (detect_eq_some_iff.mp found)).elim

theorem Opens.exists_cons {rules : CommentRules} {kind : CommentKind} {input : Bytes}
    (opens : Opens rules kind input) :
    ∃ first rest, input = first :: rest ∧ ¬ Blank first := by
  rcases opens.begins with ⟨rest, rfl⟩
  cases kind <;> exact ⟨_, _, rfl, by decide⟩

/-! ## Comments -/

/-- The longer of two parts that run through the first closer would hold all of the shorter one's
closer before its own end. -/
private theorem Through.length_le {closers : List Bytes} {part following other rest : Bytes}
    (through : Through closers part following) (otherThrough : Through closers other rest)
    (same : part ++ following = other ++ rest) : part.length ≤ other.length := by
  apply Nat.le_of_not_lt
  intro shorter
  have isPrefix : other <+: part.dropLast := by
    have inPart : other <+: part :=
      List.prefix_of_prefix_length_le (same ▸ List.prefix_append other rest)
        (List.prefix_append part following) (Nat.le_of_lt shorter)
    rcases inPart with ⟨beyond, equal⟩
    have nonempty : beyond ≠ [] := by
      rintro rfl
      simp [← equal] at shorter
    rw [← equal, List.dropLast_append_of_ne_nil nonempty]
    exact List.prefix_append _ _
  cases otherThrough with
  | closed ends =>
    rcases ends with ⟨closer, member, ends⟩
    have inside : closer <:+: part.dropLast := ends.isInfix.trans isPrefix.isInfix
    cases through with
    | closed _ first => exact first closer member inside
    | unclosed absent => exact absent closer member (inside.trans (List.dropLast_prefix _).isInfix)
  | unclosed _ last =>
    have lengths := congrArg List.length same
    simp only [last, List.length_append, List.length_nil] at lengths
    omega

theorem Through.eq {closers : List Bytes} {part following other rest : Bytes}
    (through : Through closers part following) (otherThrough : Through closers other rest)
    (same : part ++ following = other ++ rest) : part = other := by
  have lengths : part.length = other.length :=
    Nat.le_antisymm (through.length_le otherThrough same)
      (otherThrough.length_le through same.symm)
  exact List.append_inj_left same lengths

/-- A byte that begins no closer may stand in front. -/
private theorem Through.cons {closers : List Bytes} {byte : UInt8} {part following : Bytes}
    (nonempty : [] ∉ closers)
    (fresh : ∀ closer ∈ closers, ¬ closer <+: byte :: (part ++ following))
    (through : Through closers part following) : Through closers (byte :: part) following := by
  have absent_cons {bytes : Bytes} (isPrefix : bytes <+: part ++ following)
      (absent : ∀ closer ∈ closers, ¬ closer <:+: bytes) :
      ∀ closer ∈ closers, ¬ closer <:+: byte :: bytes := by
    intro closer member inside
    rcases List.infix_cons_iff.mp inside with begins | inside
    · exact fresh closer member (begins.trans ((List.prefix_cons_inj byte).mpr isPrefix))
    · exact absent closer member inside
  cases through with
  | closed ends first =>
    rcases ends with ⟨closer, member, ends⟩
    have partNonempty : part ≠ [] := by
      rintro rfl
      exact nonempty (List.suffix_nil.mp ends ▸ member)
    refine .closed ⟨closer, member, ends.trans (List.suffix_cons byte part)⟩ ?_
    rw [List.dropLast_cons_of_ne_nil partNonempty]
    exact absent_cons ((List.dropLast_prefix part).trans (List.prefix_append _ _)) first
  | unclosed absent last =>
    exact .unclosed (absent_cons (List.prefix_append _ _) absent) last

private theorem through_nil {closers : List Bytes} (nonempty : [] ∉ closers) :
    Through closers [] [] :=
  .unclosed (fun _ member inside => nonempty (List.infix_nil.mp inside ▸ member)) rfl

private theorem through_lineLength (bytes : Bytes) :
    Through [[Byte.newline], [Byte.carriageReturn]]
      (bytes.take (CommentKind.lineLength bytes)) (bytes.drop (CommentKind.lineLength bytes)) := by
  induction bytes with
  | nil => exact through_nil (by decide)
  | cons byte rest induction =>
    rw [CommentKind.lineLength]
    split
    · next lineEnd =>
      refine .closed ⟨[byte], ?_, List.suffix_refl _⟩ (by simp)
      rw [isLineEnd_iff] at lineEnd
      simpa using lineEnd
    · next noLineEnd =>
      rw [isLineEnd_iff] at noLineEnd
      refine .cons (by decide) ?_ induction
      simpa [List.cons_prefix_cons, eq_comm] using noLineEnd

private theorem through_blockLength (bytes : Bytes) :
    Through [[Byte.star, Byte.slash]]
      (bytes.take (CommentKind.blockLength bytes)) (bytes.drop (CommentKind.blockLength bytes)) := by
  induction bytes with
  | nil => exact through_nil (by decide)
  | cons byte rest induction =>
    rw [CommentKind.blockLength]
    split
    · next close =>
      rcases close with ⟨rfl, close⟩
      rcases List.head?_eq_some_iff.mp close with ⟨after, rfl⟩
      refine .closed ⟨_, List.mem_singleton_self _, List.suffix_refl _⟩ ?_
      simp [List.infix_cons_iff, List.cons_prefix_cons]
    · next noClose =>
      refine .cons (by decide) ?_ induction
      rw [List.drop_succ_cons, List.take_append_drop]
      intro closer member begins
      rw [List.mem_singleton.mp member, List.cons_prefix_cons] at begins
      rcases begins with ⟨rfl, after, rfl⟩
      exact noClose ⟨rfl, rfl⟩

/-- The length of a comment is that of the part through its first closer. -/
theorem through_length (kind : CommentKind) (bytes : Bytes) :
    Through (closers kind) (bytes.take (kind.length bytes)) (bytes.drop (kind.length bytes)) := by
  cases kind with
  | block => exact through_blockLength bytes
  | doubleSlash => exact through_lineLength bytes
  | doubleHash => exact through_lineLength bytes
  | semicolon => exact through_lineLength bytes

theorem Through.length_eq {kind : CommentKind} {part following : Bytes}
    (through : Through (closers kind) part following) :
    kind.length (part ++ following) = part.length := by
  have equal := through.eq (through_length kind (part ++ following))
    (List.take_append_drop _ _).symm
  have within := kind.length_le (part ++ following)
  have lengths := congrArg List.length equal
  rw [List.length_take, Nat.min_eq_left within] at lengths
  exact lengths.symm

/-! ## Gaps -/

theorem Trivia.gapLength_append {rules : CommentRules} {part following : Bytes}
    (trivia : Trivia rules part following) :
    gapLength rules (part ++ following) = part.length + gapLength rules following := by
  cases trivia with
  | @blank byte _ blank =>
    rw [List.singleton_append, gapLength, if_pos (isBlank_iff.mpr blank), List.length_singleton,
      Nat.add_comm]
  | @comment kind _ _ opens through =>
    rcases opens.exists_cons with ⟨first, rest, equal, notBlank⟩
    have found := detect_eq_some_iff.mpr opens
    have length := through.length_eq
    rw [equal] at found length
    rw [equal, gapLength, if_neg (mt isBlank_iff.mp notBlank)]
    simp only [found, length]
    rw [← equal, List.drop_left]

theorem Gap.gapLength_append {rules : CommentRules} {gap following : Bytes}
    (isGap : Gap rules gap following) :
    gapLength rules (gap ++ following) = gap.length + gapLength rules following := by
  induction isGap with
  | nil => simp
  | cons trivia _ induction =>
    rw [List.append_assoc, trivia.gapLength_append, induction, List.length_append, Nat.add_assoc]

theorem Starts.gapLength_eq {rules : CommentRules} {input : Bytes}
    (starts : Starts rules input) : gapLength rules input = 0 := by
  rcases starts.notBlank with ⟨first, rest, rfl, notBlank⟩
  rw [gapLength, if_neg (mt isBlank_iff.mp notBlank)]
  simp only [detect_eq_none_iff.mpr starts.noComment]

theorem gap_take_gapLength (rules : CommentRules) (input : Bytes) :
    Gap rules (input.take (gapLength rules input)) (input.drop (gapLength rules input)) := by
  fun_induction gapLength rules input with
  | case1 => exact .nil
  | case2 byte rest blank induction =>
    have longer := Gap.cons (.blank (isBlank_iff.mp blank)) induction
    exact longer
  | case3 => exact .nil
  | case4 byte rest notBlank kind found comment induction =>
    have through := through_length kind (byte :: rest)
    have opens := detect_eq_some_iff.mp found
    have parts := List.take_append_drop comment (byte :: rest)
    rw [List.take_add, ← List.drop_drop]
    refine .cons ?_ induction
    rw [List.take_append_drop]
    exact .comment (by rw [parts]; exact opens) through

theorem starts_drop_gapLength (rules : CommentRules) (input : Bytes) :
    input.drop (gapLength rules input) = [] ∨
      Starts rules (input.drop (gapLength rules input)) := by
  fun_induction gapLength rules input with
  | case1 => exact .inl rfl
  | case2 byte rest blank induction => exact induction
  | case3 byte rest notBlank absent =>
    exact .inr ⟨⟨byte, rest, rfl, mt isBlank_iff.mpr notBlank⟩, detect_eq_none_iff.mp absent⟩
  | case4 byte rest notBlank kind found comment induction =>
    rw [← List.drop_drop]
    exact induction

end Grammar

end ScriptLexer
