import ScriptLexer.Proofs.Delimiters.Members
import ScriptLexer.Proofs.Grammar.Settings
import ScriptLexer.Proofs.Lexer.Scripts
import ScriptLexer.Proofs.Text.Seams

/-!
# Settings and what is read

Lexers with different settings read the same where their settings agree on what is in the input. What
else was said of delimiters makes no difference to any reading.
-/

namespace ScriptLexer

/-- What there is to see of an outcome but for events and settings. -/
def Outcome.seen (outcome : Outcome) : Answer × Cursor.Mark × Bool :=
  (outcome.answer, outcome.lexer.cursor.mark, outcome.lexer.quoted)

namespace Lexer

open Grammar

/-! ## Lexers at the same place -/

/-- The lexers are at the same place in the same input, and agree on what is ahead. -/
structure Agree (lexer other : Lexer) : Prop where
  rules : RulesAgree lexer.cursor.ahead lexer.rules other.rules
  delimiters : DelimitersAgree lexer.cursor.ahead lexer.delimiters other.delimiters
  cursor_eq : other.cursor = lexer.cursor
  quoted_eq : other.quoted = lexer.quoted

theorem Scans.ahead_suffix {lexer after : Lexer} {token : Token}
    (scans : lexer.Scans token after) : after.cursor.ahead <:+ lexer.cursor.ahead := by
  cases scans with
  | finish =>
    dsimp only
    rw [Cursor.skip_ahead]
    exact List.drop_suffix _ _
  | @lexeme gap following lexeme text start behind ahead _ _ _ start_eq behind_eq =>
    dsimp only
    rw [behind_eq, skipLexeme_ahead, start_eq, Cursor.skip_ahead]
    exact (List.drop_suffix _ _).trans (List.drop_suffix _ _)

section

variable {lexer other : Lexer} (agree : Agree lexer other)
include agree

theorem Agree.scan_eq :
    other.scan = (lexer.scan.1,
      { other with cursor := lexer.scan.2.cursor, quoted := lexer.scan.2.quoted }) := by
  have skipGap : other.skipGap = lexer.skipGap := by
    unfold Lexer.skipGap
    rw [agree.cursor_eq, agree.rules.gapLength_eq]
  have behindGap := starts_drop_gapLength lexer.rules lexer.cursor.ahead
  have within := List.drop_suffix (gapLength lexer.rules lexer.cursor.ahead) lexer.cursor.ahead
  have ahead_eq : lexer.skipGap.ahead =
      lexer.cursor.ahead.drop (gapLength lexer.rules lexer.cursor.ahead) :=
    Cursor.skip_ahead _ _
  rw [← ahead_eq] at behindGap within
  unfold scan
  rw [skipGap]
  dsimp only
  split
  · rfl
  · next first rest ahead =>
    rw [ahead] at behindGap within
    have starts := behindGap.resolve_left (List.cons_ne_nil first rest)
    rcases starts.notBlank with ⟨_, _, equal, notBlank⟩
    cases equal
    rw [(agree.delimiters.of_suffix within).read_eq notBlank]

theorem Agree.next :
    other.next.token = lexer.next.token ∧ Agree lexer.next.lexer other.next.lexer := by
  have scan := agree.scan_eq
  have token : other.next.token = lexer.next.token := by
    change other.scan.1 = _
    rw [scan]
    rfl
  have after : other.next.lexer = { other with
      cursor := lexer.next.lexer.cursor
      quoted := lexer.next.lexer.quoted } := by
    change other.scan.2 = _
    rw [scan]
    rfl
  have within := lexer.scans_next.ahead_suffix
  refine ⟨token, ?_⟩
  rw [after]
  constructor
  · rw [next_rules]
    exact agree.rules.of_suffix within
  · rw [next_delimiters]
    exact agree.delimiters.of_suffix within
  · rfl
  · rfl

theorem Agree.run (files : FileAccess) {operation : Operation}
    (reading : operation = .next ∨ operation = .peek) :
    (other.run files operation).seen = (lexer.run files operation).seen ∧
      Agree (lexer.run files operation).lexer (other.run files operation).lexer := by
  rcases agree.next with ⟨token, after⟩
  rcases reading with rfl | rfl
  · refine ⟨?_, after⟩
    have seen (lexer : Lexer) : (lexer.run files .next).seen =
        (.token lexer.next.token, lexer.next.lexer.cursor.mark, lexer.next.lexer.quoted) := rfl
    rw [seen, seen, token, after.cursor_eq, after.quoted_eq]
  · rw [Lexer.run, Lexer.run, peek_eq, peek_eq]
    refine ⟨?_, agree⟩
    unfold Outcome.seen
    dsimp only
    rw [token, agree.cursor_eq, agree.quoted_eq]

theorem Agree.runAll (files : FileAccess) {script : List Operation}
    (reading : ∀ operation ∈ script, operation = .next ∨ operation = .peek) :
    (other.runAll files script).map Outcome.seen =
      (lexer.runAll files script).map Outcome.seen := by
  induction script generalizing lexer other with
  | nil => rfl
  | cons operation later induction =>
    rw [List.forall_mem_cons] at reading
    rcases agree.run files reading.1 with ⟨seen, after⟩
    rw [Lexer.runAll, Lexer.runAll, List.map_cons, List.map_cons, seen, induction after reading.2]

end

/-! ## Delimiters of a text -/

theorem delimitersAgree_ofText {text otherText : String}
    (same : ∀ character : Char, Delimiters.isAscii character = true →
      character ∉ ['\n', '\r', ' ', '\t'] →
      (character ∈ text.toList ↔ character ∈ otherText.toList)) (input : Bytes) :
    DelimitersAgree input (.ofText text) (.ofText otherText) := by
  intro byte _ notBlank
  rw [Delimiters.mem_ofText_iff, Delimiters.mem_ofText_iff]
  refine and_congr_right fun ascii => same _ ?_ fun member => ?_
  · rw [Delimiters.isAscii, decide_eq_true_eq, Utf8.toNat_ofNat_byte ascii]
    exact ascii
  · have blanks : ['\n', '\r', ' ', '\t'] =
        [Byte.newline, Byte.carriageReturn, Byte.space, Byte.tab].map
          fun blank => Char.ofNat blank.toNat := rfl
    rw [blanks, List.mem_map] at member
    rcases member with ⟨other, blank, equal⟩
    have isBlank : Blank other := blank
    exact notBlank (Utf8.ofNat_toNat_inj ascii isBlank.ascii equal.symm ▸ isBlank)

/-- What settings say of bytes that are not ahead, or of blank ones as delimiters, makes no difference
to what is read. The order of delimiters makes none, nor do those that are named again or are no
ASCII characters. -/
theorem settings_matter_where_they_occur (files : FileAccess) (script : List Operation)
    (reading : ∀ operation ∈ script, operation = .next ∨ operation = .peek) :
    (∀ (lexer other : Lexer) (name otherName : String) (bytes : Bytes),
      RulesAgree bytes lexer.rules other.rules →
      DelimitersAgree bytes lexer.delimiters other.delimiters →
      let loaded := (lexer.run files (.load (.owned bytes) name)).lexer
      let otherLoaded := (other.run files (.load (.owned bytes) otherName)).lexer
      (loaded.runAll files script).map Outcome.seen =
        (otherLoaded.runAll files script).map Outcome.seen) ∧
    ∀ (lexer : Lexer) (text otherText : String),
      (∀ character : Char, Delimiters.isAscii character = true →
        character ∉ ['\n', '\r', ' ', '\t'] →
        (character ∈ text.toList ↔ character ∈ otherText.toList)) →
      (lexer.runAll files (.setDelimiters (.ofText text) :: script)).map Outcome.seen =
        (lexer.runAll files (.setDelimiters (.ofText otherText) :: script)).map Outcome.seen := by
  refine ⟨fun lexer other name otherName bytes rules delimiters => ?_,
    fun lexer text otherText same => ?_⟩
  · have agree : Agree (lexer.withInput name bytes) (other.withInput otherName bytes) :=
      ⟨rules, delimiters, rfl, rfl⟩
    exact (agree.runAll files reading).symm
  · have agree : Agree { lexer with delimiters := .ofText text }
        { lexer with delimiters := .ofText otherText } :=
      ⟨fun _ different => (different rfl).elim, delimitersAgree_ofText same _, rfl, rfl⟩
    have later := agree.runAll files reading
    rw [runAll, runAll, List.map_cons, List.map_cons]
    exact congrArg _ later.symm

/-- No comments at all, and a delimiter that is blank or not in the input, make no difference here. -/
theorem settings_matter_where_they_occur_dollar :
    let files : FileAccess := fun _ => .ok []
    let script : List Operation := [.peek, .next, .next, .peek, .next, .next]
    let bytes := Utf8.encode "a=b //$c"
    let lexer : Lexer := { rules := .standard }
    let other : Lexer := { rules := .none, delimiters := .ofText "/= ;=ä" }
    let loaded := (lexer.run files (.load (.owned bytes) "lump")).lexer
    let otherLoaded := (other.run files (.load (.owned bytes) "other")).lexer
    (∀ operation ∈ script, operation = .next ∨ operation = .peek) ∧
      RulesAgree bytes lexer.rules other.rules ∧
      DelimitersAgree bytes lexer.delimiters other.delimiters ∧
      (loaded.runAll files script).map Outcome.seen =
        (otherLoaded.runAll files script).map Outcome.seen ∧
      (loaded.runAll files (.setDelimiters (.ofText "=a") :: script)).map Outcome.seen =
        (loaded.runAll files (.setDelimiters (.ofText "ä a=\na") :: script)).map Outcome.seen := by
  intro files script bytes lexer other loaded otherLoaded
  have reading : ∀ operation ∈ script, operation = .next ∨ operation = .peek := by decide
  have absent : ∀ count < 9, CommentRules.all.detect (bytes.drop count) = none := by
    decide +kernel
  have rules : RulesAgree bytes lexer.rules other.rules := by
    rintro rule - ⟨kind, rest, -, within, opens⟩
    rw [List.suffix_iff_eq_drop] at within
    have few : bytes.length - rest.length < 9 := Nat.lt_succ_of_le (Nat.sub_le 8 _)
    have none := absent _ few
    rw [← within, detect_eq_some_iff.mpr opens] at none
    cases none
  have delimiters : DelimitersAgree bytes lexer.delimiters other.delimiters := by
    unfold DelimitersAgree
    decide +kernel
  have matters := settings_matter_where_they_occur files script reading
  refine ⟨reading, rules, delimiters,
    matters.1 lexer other "lump" "other" bytes rules delimiters, matters.2 loaded _ _ ?_⟩
  intro character ascii notBlank
  have foreign : character ≠ 'ä' := by
    rintro rfl
    exact absurd ascii (by decide)
  have written : "=a".toList = ['=', 'a'] := by decide
  have otherWritten : "ä a=\na".toList = ['ä', ' ', 'a', '=', '\n', 'a'] := by decide
  rw [written, otherWritten]
  grind

end Lexer

end ScriptLexer
