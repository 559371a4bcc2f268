import ScriptLexer.Proofs.Grammar.Gaps
import ScriptLexer.Proofs.Text.Seams

/-!
# Inputs that are spelled anew

An input is spelled anew where bytes without a meaning are others: runs of bytes that are not ASCII
may become other such runs, and a carriage return before a newline may be left out. All ASCII bytes but
for such returns are the same in both spellings, so the same tests hold of them.
-/

namespace ScriptLexer

namespace Grammar

/-- Bytes of characters that are no ASCII characters, one of them at least. -/
structure Foreign (run : Bytes) : Prop where
  nonempty : run ≠ []
  inside : ∀ byte ∈ run, 0x80 ≤ byte

/-- Ways to spell an input anew. -/
structure Spelling where
  /-- Whether a carriage return and a newline become a newline. -/
  folds : Prop
  /-- What bytes that are not ASCII may become. -/
  runs : Bytes → Bytes → Prop

/-- The second bytes spell the first ones anew, with all that has a meaning as it was. -/
inductive Respelled (spelling : Spelling) : Bytes → Bytes → Prop
  | nil : Respelled spelling [] []
  | ascii {byte : UInt8} {input other : Bytes} (ascii : byte < 0x80)
      (single : spelling.folds → byte = Byte.carriageReturn → input.head? ≠ some Byte.newline)
      (later : Respelled spelling input other) :
      Respelled spelling (byte :: input) (byte :: other)
  | lineEnd {input other : Bytes} (folds : spelling.folds)
      (later : Respelled spelling input other) :
      Respelled spelling (Byte.carriageReturn :: Byte.newline :: input) (Byte.newline :: other)
  | run {run changed input other : Bytes} (becomes : spelling.runs run changed)
      (foreign : Foreign run) (changedForeign : Foreign changed)
      (ends : ∀ byte ∈ input.head?, byte < 0x80) (later : Respelled spelling input other) :
      Respelled spelling (run ++ input) (changed ++ other)

theorem Foreign.exists_cons {run : Bytes} (foreign : Foreign run) :
    ∃ byte rest, run = byte :: rest ∧ 0x80 ≤ byte := by
  rcases run with _ | ⟨byte, rest⟩
  · exact (foreign.nonempty rfl).elim
  · exact ⟨byte, rest, rfl, foreign.inside byte (List.mem_cons_self ..)⟩

theorem Foreign.not_mem {run : Bytes} (foreign : Foreign run) {byte : UInt8}
    (ascii : byte < 0x80) : byte ∉ run :=
  fun member => UInt8.not_lt.mpr (foreign.inside byte member) ascii

private theorem exists_run (bytes : Bytes) :
    ∃ run rest, bytes = run ++ rest ∧ (∀ byte ∈ run, 0x80 ≤ byte) ∧
      ∀ byte ∈ rest.head?, byte < 0x80 := by
  induction bytes with
  | nil => exact ⟨[], [], rfl, by simp, by simp⟩
  | cons byte bytes induction =>
    by_cases ascii : byte < 0x80
    · exact ⟨[], byte :: bytes, rfl, by simp, by simpa using ascii⟩
    · rcases induction with ⟨run, rest, rfl, inside, ends⟩
      exact ⟨byte :: run, rest, rfl,
        List.forall_mem_cons.mpr ⟨UInt8.not_lt.mp ascii, inside⟩, ends⟩

/-- Bytes are ASCII bytes and, between them, runs of others that are as long as can be. -/
theorem runs_induction {motive : Bytes → Prop} (nil : motive [])
    (ascii : ∀ {byte : UInt8} {rest : Bytes}, byte < 0x80 → motive rest → motive (byte :: rest))
    (run : ∀ {run rest : Bytes}, Foreign run → (∀ byte ∈ rest.head?, byte < 0x80) → motive rest →
      motive (run ++ rest))
    (bytes : Bytes) : motive bytes := by
  induction size : bytes.length using Nat.strongRecOn generalizing bytes with
  | ind size induction =>
    subst size
    rcases bytes with _ | ⟨byte, bytes⟩
    · exact nil
    by_cases isAscii : byte < 0x80
    · exact ascii isAscii (induction _ (Nat.lt_succ_self _) bytes rfl)
    · rcases exists_run bytes with ⟨inner, rest, rfl, inside, ends⟩
      have foreign : Foreign (byte :: inner) :=
        ⟨List.cons_ne_nil _ _, List.forall_mem_cons.mpr ⟨UInt8.not_lt.mp isAscii, inside⟩⟩
      have shorter : rest.length < (byte :: (inner ++ rest)).length := by
        rw [List.length_cons, List.length_append]
        omega
      exact run foreign ends (induction _ shorter rest rfl)

theorem not_isBlank {byte : UInt8} (foreign : 0x80 ≤ byte) : ¬ Byte.isBlank byte = true := by
  rw [isBlank_iff]
  exact fun blank => UInt8.not_lt.mpr foreign blank.ascii

namespace Respelled

variable {spelling : Spelling} {input other : Bytes}

/-! ## First bytes -/

theorem nil_iff (respelled : Respelled spelling input other) : input = [] ↔ other = [] := by
  cases respelled with
  | nil => exact Iff.rfl
  | ascii => simp
  | lineEnd => simp
  | run _ foreign changedForeign => simp [foreign.nonempty, changedForeign.nonempty]

/-- How a byte is spelled. -/
theorem cons_cases {byte : UInt8} (respelled : Respelled spelling (byte :: input) other) :
    (byte < 0x80 ∧ ∃ later, other = byte :: later ∧ Respelled spelling input later) ∨
      (spelling.folds ∧ byte = Byte.carriageReturn ∧ ∃ rest later, input = Byte.newline :: rest ∧
        other = Byte.newline :: later ∧ Respelled spelling rest later) ∨
      (0x80 ≤ byte ∧ ∃ first later, other = first :: later ∧ 0x80 ≤ first) := by
  generalize equal : byte :: input = whole at respelled
  cases respelled with
  | nil => cases equal
  | ascii ascii _ later =>
    cases equal
    exact .inl ⟨ascii, _, rfl, later⟩
  | lineEnd folds later =>
    cases equal
    exact .inr (.inl ⟨folds, rfl, _, _, rfl, rfl, later⟩)
  | run _ foreign changedForeign =>
    rcases foreign.exists_cons with ⟨first, rest, rfl, large⟩
    rcases changedForeign.exists_cons with ⟨changed, later, rfl, changedLarge⟩
    cases equal
    exact .inr (.inr ⟨large, changed, _, rfl, changedLarge⟩)

/-- Where an input does not begin in the middle of a character, the other one does not either. -/
theorem head?_ascii (respelled : Respelled spelling input other)
    (ascii : ∀ byte ∈ input.head?, byte < 0x80) : ∀ byte ∈ other.head?, byte < 0x80 := by
  rcases input with _ | ⟨byte, input⟩
  · simp [respelled.nil_iff.mp rfl]
  · have first : byte < 0x80 := ascii byte rfl
    rcases respelled.cons_cases with ⟨-, _, rfl, -⟩ | ⟨-, -, _, _, -, rfl, -⟩ | ⟨large, -⟩
    · simpa using first
    · simpa using (by decide : Byte.newline < 0x80)
    · exact absurd first (UInt8.not_lt.mpr large)

/-- Whether a byte is the same in every spelling. -/
def isFixed (byte : UInt8) : Bool :=
  byte < 0x80 && !Byte.isLineEnd byte

theorem isFixed_iff {byte : UInt8} :
    isFixed byte = true ↔ byte < 0x80 ∧ Byte.isLineEnd byte = false := by
  simp [isFixed]

theorem of_append (part : Bytes) (fixed : part.all isFixed = true)
    (respelled : Respelled spelling (part ++ input) other) :
    ∃ later, other = part ++ later ∧ Respelled spelling input later := by
  induction part generalizing other with
  | nil => exact ⟨other, rfl, respelled⟩
  | cons byte part induction =>
    rw [List.all_cons, Bool.and_eq_true, isFixed_iff] at fixed
    rcases respelled.cons_cases with ⟨-, rest, rfl, behind⟩ | ⟨-, rfl, -⟩ | ⟨large, -⟩
    · rcases induction fixed.2 behind with ⟨later, rfl, after⟩
      exact ⟨later, rfl, after⟩
    · exact absurd fixed.1.2 (by decide)
    · exact absurd fixed.1.1 (UInt8.not_lt.mpr large)

theorem of_append_right (part : Bytes) (fixed : part.all isFixed = true)
    (respelled : Respelled spelling input (part ++ other)) :
    ∃ earlier, input = part ++ earlier ∧ Respelled spelling earlier other := by
  induction part generalizing input with
  | nil => exact ⟨input, rfl, respelled⟩
  | cons byte part induction =>
    rw [List.all_cons, Bool.and_eq_true, isFixed_iff] at fixed
    generalize equal : byte :: part ++ other = whole at respelled
    cases respelled with
    | nil => cases equal
    | ascii _ _ later =>
      cases equal
      rcases induction fixed.2 later with ⟨earlier, rfl, behind⟩
      exact ⟨earlier, rfl, behind⟩
    | lineEnd =>
      rcases List.cons.inj equal with ⟨rfl, -⟩
      exact absurd fixed.1.2 (by decide)
    | run _ _ changedForeign =>
      rcases changedForeign.exists_cons with ⟨first, rest, rfl, large⟩
      rcases List.cons.inj equal with ⟨rfl, -⟩
      exact absurd fixed.1.1 (UInt8.not_lt.mpr large)

theorem prefix_iff (part : Bytes) (fixed : part.all isFixed = true)
    (respelled : Respelled spelling input other) : part <+: input ↔ part <+: other := by
  constructor
  · rintro ⟨rest, rfl⟩
    rcases respelled.of_append part fixed with ⟨later, rfl, -⟩
    exact List.prefix_append _ _
  · rintro ⟨rest, rfl⟩
    rcases respelled.of_append_right part fixed with ⟨earlier, rfl, -⟩
    exact List.prefix_append _ _

theorem head?_iff {byte : UInt8} (fixed : isFixed byte = true)
    (respelled : Respelled spelling input other) :
    input.head? = some byte ↔ other.head? = some byte := by
  have alone : [byte].all isFixed = true := by simpa using fixed
  rw [List.head?_eq_some_iff, List.head?_eq_some_iff]
  constructor
  · rintro ⟨rest, rfl⟩
    rcases respelled.of_append [byte] alone with ⟨later, rfl, -⟩
    exact ⟨later, rfl⟩
  · rintro ⟨rest, rfl⟩
    rcases respelled.of_append_right [byte] alone with ⟨earlier, rfl, -⟩
    exact ⟨earlier, rfl⟩

/-! ## Bytes up to one that fails a test -/

section

variable {test : UInt8 → Bool} (foreign : ∀ byte, 0x80 ≤ byte → test byte = true)
  (lineEnds : test Byte.carriageReturn = test Byte.newline)
  (respelled : Respelled spelling input other)
include foreign lineEnds respelled

theorem takeWhile : Respelled spelling (input.takeWhile test) (other.takeWhile test) := by
  induction respelled with
  | nil => exact .nil
  | @ascii byte input other ascii single later induction =>
    cases holds : test byte with
    | false => simp [holds, Respelled.nil]
    | true =>
      rw [List.takeWhile_cons_of_pos holds, List.takeWhile_cons_of_pos holds]
      refine .ascii ascii (fun folds isReturn => ?_) induction
      rw [List.head?_takeWhile, Ne, Option.filter_eq_some_iff]
      exact fun both => single folds isReturn both.1
  | lineEnd folds later induction =>
    cases holds : test Byte.newline with
    | false => simp [holds, lineEnds, Respelled.nil]
    | true =>
      simp only [List.takeWhile_cons, holds, lineEnds, if_true]
      exact .lineEnd folds induction
  | run becomes isForeign changedForeign ends later induction =>
    rw [List.takeWhile_append_of_pos fun byte member => foreign byte (isForeign.inside byte member),
      List.takeWhile_append_of_pos fun byte member =>
        foreign byte (changedForeign.inside byte member)]
    refine .run becomes isForeign changedForeign (fun byte member => ends byte ?_) induction
    rw [List.head?_takeWhile] at member
    exact (Option.filter_eq_some_iff.mp member).1

theorem dropWhile : Respelled spelling (input.dropWhile test) (other.dropWhile test) := by
  induction respelled with
  | nil => exact .nil
  | @ascii byte input other ascii single later induction =>
    cases holds : test byte with
    | false =>
      rw [List.dropWhile_cons_of_neg (by simp [holds]), List.dropWhile_cons_of_neg (by simp [holds])]
      exact .ascii ascii single later
    | true =>
      rw [List.dropWhile_cons_of_pos holds, List.dropWhile_cons_of_pos holds]
      exact induction
  | lineEnd folds later induction =>
    cases holds : test Byte.newline with
    | false =>
      simp only [List.dropWhile_cons, holds, lineEnds, Bool.false_eq_true, if_false]
      exact .lineEnd folds later
    | true =>
      simp only [List.dropWhile_cons, holds, lineEnds, if_true]
      exact induction
  | run becomes isForeign changedForeign ends later induction =>
    rw [List.dropWhile_append_of_pos fun byte member => foreign byte (isForeign.inside byte member),
      List.dropWhile_append_of_pos fun byte member =>
        foreign byte (changedForeign.inside byte member)]
    exact induction

end

end Respelled

end Grammar

end ScriptLexer
