import ScriptLexer.Proofs.Grammar.Lexemes

/-!
# Settings that agree on an input

Comment rules and delimiters are asked about the bytes of the input only. Settings that agree on what
occurs in it find the same gaps and the same lexemes, whatever else they say.
-/

namespace ScriptLexer

namespace Grammar

/-- An opener that the rule admits is somewhere in the input. -/
def Occurs (rule : CommentRule) (input : Bytes) : Prop :=
  ∃ kind rest, kind.rule = rule ∧ rest <:+ input ∧ Opens .all kind rest

def RulesAgree (input : Bytes) (rules other : CommentRules) : Prop :=
  ∀ rule, rules.enabled rule ≠ other.enabled rule → ¬ Occurs rule input

/-- It makes no difference whether a blank byte is a delimiter. -/
def DelimitersAgree (input : Bytes) (delimiters other : Delimiters) : Prop :=
  ∀ byte ∈ input, ¬ Blank byte → (byte ∈ delimiters.bytes ↔ byte ∈ other.bytes)

/-! ## Comments -/

theorem opens_iff_all {rules : CommentRules} {kind : CommentKind} {input : Bytes} :
    Opens rules kind input ↔ rules.enabled kind.rule = true ∧ Opens .all kind input := by
  have on : CommentRules.all.enabled kind.rule = true := by cases kind <;> rfl
  exact ⟨fun opens => ⟨opens.on, on, opens.begins, opens.noDollar⟩,
    fun both => ⟨both.1, both.2.begins, both.2.noDollar⟩⟩

section

variable {input rest : Bytes} {rules other : CommentRules} (agree : RulesAgree input rules other)
include agree

theorem RulesAgree.of_suffix (isSuffix : rest <:+ input) : RulesAgree rest rules other := by
  rintro rule different ⟨kind, opened, same, within, opens⟩
  exact agree rule different ⟨kind, opened, same, within.trans isSuffix, opens⟩

theorem RulesAgree.detect_eq : other.detect input = rules.detect input := by
  have opens_iff (kind : CommentKind) : Opens other kind input ↔ Opens rules kind input := by
    rw [opens_iff_all, @opens_iff_all rules]
    refine and_congr_left fun opens => ?_
    by_cases same : rules.enabled kind.rule = other.enabled kind.rule
    · rw [same]
    · exact (agree _ same ⟨kind, input, rfl, List.suffix_refl _, opens⟩).elim
  cases found : rules.detect input with
  | none =>
    rw [detect_eq_none_iff] at found ⊢
    exact fun kind => mt (opens_iff kind).mp (found kind)
  | some kind => exact detect_eq_some_iff.mpr ((opens_iff kind).mpr (detect_eq_some_iff.mp found))

theorem RulesAgree.gapLength_eq : gapLength other input = gapLength rules input := by
  fun_induction gapLength rules input with
  | case1 => rw [gapLength]
  | case2 byte rest blank induction =>
    rw [gapLength, if_pos blank, induction (agree.of_suffix (List.suffix_cons byte rest))]
  | case3 byte rest notBlank absent =>
    have same := agree.detect_eq
    rw [absent] at same
    rw [gapLength, if_neg notBlank]
    simp only [same]
  | case4 byte rest notBlank kind found comment induction =>
    have same := agree.detect_eq
    rw [found] at same
    rw [gapLength, if_neg notBlank]
    simp only [same]
    exact congrArg (comment + ·) (induction (agree.of_suffix (List.drop_suffix _ _)))

end

/-! ## Lexemes -/

theorem takeWhile_congr {test other : UInt8 → Bool} {bytes : Bytes}
    (same : ∀ byte ∈ bytes, test byte = other byte) :
    bytes.takeWhile test = bytes.takeWhile other := by
  induction bytes with
  | nil => rfl
  | cons byte bytes induction =>
    rw [List.forall_mem_cons] at same
    rw [List.takeWhile_cons, List.takeWhile_cons, same.1, induction same.2]

section

variable {input rest : Bytes} {delimiters other : Delimiters}
  (agree : DelimitersAgree input delimiters other)
include agree

theorem DelimitersAgree.of_suffix (isSuffix : rest <:+ input) :
    DelimitersAgree rest delimiters other :=
  fun byte member => agree byte (isSuffix.subset member)

theorem DelimitersAgree.contains_eq {byte : UInt8} (member : byte ∈ input)
    (notBlank : ¬ Blank byte) : other.contains byte = delimiters.contains byte := by
  have same := agree byte member notBlank
  simp [Delimiters.contains, same]

theorem DelimitersAgree.inWord_eq {byte : UInt8} (member : byte ∈ input) :
    Lexeme.inWord other byte = Lexeme.inWord delimiters byte := by
  by_cases blank : Blank byte
  · simp [Lexeme.inWord, isBlank_iff.mpr blank]
  · rw [Lexeme.inWord, Lexeme.inWord, agree.contains_eq member blank]

end

theorem DelimitersAgree.read_eq {first : UInt8} {rest : Bytes} {delimiters other : Delimiters}
    (agree : DelimitersAgree (first :: rest) delimiters other) (notBlank : ¬ Blank first) :
    Lexeme.read other first rest = Lexeme.read delimiters first rest := by
  have word : rest.takeWhile (Lexeme.inWord other) = rest.takeWhile (Lexeme.inWord delimiters) :=
    takeWhile_congr fun byte member => agree.inWord_eq (List.mem_cons_of_mem _ member)
  unfold Lexeme.read
  rw [agree.contains_eq (List.mem_cons_self ..) notBlank, word]

end Grammar

end ScriptLexer
