import ScriptLexer.Source

/-!
# Readers

A reader stands for its data before the end of the stream, however they are cut into reads, or for the
first failure if there is one before the end. An open file is such a reader: the system may cut its
contents as it likes.
-/

namespace ScriptLexer

namespace Read

def bytes : Read → Bytes
  | .data bytes => bytes
  | .interrupted | .failure _ => []

def reason? : Read → Option String
  | .failure reason => some reason
  | .data _ | .interrupted => none

def beforeEnd (reads : List Read) : List Read :=
  reads.takeWhile (· ≠ .data [])

/-- All data before the end of the stream. -/
def contents (reads : List Read) : Bytes :=
  (beforeEnd reads).flatMap bytes

/-- Why the first read failed that did so before the end of the stream. -/
def failure? (reads : List Read) : Option String :=
  (beforeEnd reads).findSome? reason?

theorem collect_data {chunk : Bytes} (nonempty : chunk ≠ []) (later : List Read) :
    collect (.data chunk :: later) = (chunk ++ ·) <$> collect later := by
  rw [collect]
  exact nonempty

theorem collect_eq (reads : List Read) :
    collect reads = ((failure? reads).map Except.error).getD (.ok (contents reads)) := by
  induction reads with
  | nil => rfl
  | cons read later induction =>
    cases read with
    | data chunk =>
      rcases chunk with _ | ⟨byte, rest⟩
      · rfl
      · have failure : failure? (.data (byte :: rest) :: later) = failure? later := rfl
        have contents : contents (.data (byte :: rest) :: later) =
            byte :: rest ++ contents later := rfl
        rw [failure, contents, collect_data (List.cons_ne_nil byte rest), induction]
        cases failure? later <;> rfl
    | interrupted => exact induction
    | failure reason => rfl

theorem collect_filter_interrupted (reads : List Read) :
    collect (reads.filter (· ≠ .interrupted)) = collect reads := by
  induction reads with
  | nil => rfl
  | cons read later induction =>
    cases read with
    | data chunk =>
      rcases chunk with _ | ⟨byte, rest⟩
      · rfl
      · have kept : (Read.data (byte :: rest) :: later).filter (· ≠ .interrupted) =
            .data (byte :: rest) :: later.filter (· ≠ .interrupted) := rfl
        have nonempty := List.cons_ne_nil byte rest
        rw [kept, collect_data nonempty, collect_data nonempty, induction]
    | interrupted => exact induction
    | failure reason => rfl

end Read

/-! ## Files -/

/-- A regular file that was opened, and where the next read from it starts. -/
structure OpenFile where
  contents : Bytes
  position : Nat := 0

namespace OpenFile

def seek (file : OpenFile) (offset : Nat) : OpenFile :=
  { file with position := offset }

/-- What is left to read of a file where no more than `limit` bytes are asked for. -/
def left (file : OpenFile) (limit : Nat) : Bytes :=
  (file.contents.drop file.position).take limit

/-- What successive reads of at most `limit` bytes in all can come to: each takes one byte of what is
left or more, or is interrupted, and nothing where nothing is left. -/
inductive Reads : OpenFile → Nat → List Read → Prop
  | finish {file : OpenFile} {limit : Nat} (nothing : file.left limit = []) :
      Reads file limit [.data []]
  | data {file : OpenFile} {limit count : Nat} {later : List Read} (positive : 0 < count)
      (within : count ≤ (file.left limit).length)
      (reads : Reads (file.seek (file.position + count)) (limit - count) later) :
      Reads file limit (.data ((file.left limit).take count) :: later)
  | interrupted {file : OpenFile} {limit : Nat} {later : List Read}
      (reads : Reads file limit later) : Reads file limit (.interrupted :: later)

theorem drop_left (file : OpenFile) (limit count : Nat) :
    (file.left limit).drop count = (file.seek (file.position + count)).left (limit - count) := by
  rw [left, left, List.drop_take, List.drop_drop]
  rfl

theorem Reads.collect_eq {file : OpenFile} {limit : Nat} {reads : List Read}
    (holds : file.Reads limit reads) : Read.collect reads = .ok (file.left limit) := by
  induction holds with
  | finish nothing => rw [nothing]; rfl
  | @data file limit count later positive within _ induction =>
    have nonempty : (file.left limit).take count ≠ [] := by
      apply List.ne_nil_of_length_pos
      rw [List.length_take, Nat.min_eq_left within]
      exact positive
    rw [Read.collect_data nonempty, induction, ← drop_left]
    exact congrArg Except.ok (List.take_append_drop count _)
  | interrupted _ induction => exact induction

theorem exists_reads (file : OpenFile) (limit : Nat) : ∃ reads, file.Reads limit reads := by
  by_cases nothing : file.left limit = []
  · exact ⟨_, .finish nothing⟩
  · refine ⟨_, .data (List.length_pos_iff.mpr nothing) (Nat.le_refl _) (.finish ?_)⟩
    rw [← drop_left, List.drop_length]

end OpenFile

end ScriptLexer
