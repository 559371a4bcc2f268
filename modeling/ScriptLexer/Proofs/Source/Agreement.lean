import ScriptLexer.Proofs.Source.Regions

/-!
# Sources agree

Whatever holds some bytes, a lexer is given the same part of them or the same error: a file, a text, a
piece of memory, and a reader however it cuts them.
-/

namespace ScriptLexer

namespace Source

section

variable {files : FileAccess} {name : String}

/-! ## Memory -/

section

variable {bytes : Bytes} {length : Nat}

theorem read_memory_of_le (positive : 1 ≤ length) (within : length ≤ bytes.length) :
    (Source.memory bytes length).read files name =
      ({ length } : Region).select name bytes := by
  have count : ({ length } : Region).count bytes.length = length :=
    if_neg (by simp only [Nat.sub_zero]; omega)
  rw [Region.select_of_le name (Nat.zero_le _), count]
  simp only [read]
  rw [if_neg (by omega), if_neg (by omega)]
  rfl

theorem read_memory_eq_lengthNotSpecified_iff :
    (Source.memory bytes length).read files name = .error .lengthNotSpecified ↔ length = 0 := by
  simp only [read]
  split
  · simp [*]
  · split <;> simp [*]

theorem read_memory_eq_lengthOutOfBounds_iff :
    (Source.memory bytes length).read files name =
      .error (.lengthOutOfBounds length bytes.length) ↔ bytes.length < length := by
  simp only [read]
  split
  · next zero => simp [zero]
  · split <;> simp [*]

end

/-! ## Readers -/

section

variable {reads : List Read}

theorem read_reader :
    (Source.reader reads).read files name =
      ((Read.failure? reads).map fun reason => .error (.unreadable name reason)).getD
        (.ok (Read.contents reads)) := by
  rw [read, Read.collect_eq]
  cases Read.failure? reads <;> rfl

theorem read_reader_eq_ok_iff {part : Bytes} :
    (Source.reader reads).read files name = .ok part ↔
      Read.failure? reads = none ∧ part = Read.contents reads := by
  rw [read_reader]
  cases Read.failure? reads with
  | none => simp [eq_comm]
  | some reason => simp

theorem read_reader_eq_error_iff {error : LoadError} :
    (Source.reader reads).read files name = .error error ↔
      ∃ reason, Read.failure? reads = some reason ∧ error = .unreadable name reason := by
  rw [read_reader]
  cases Read.failure? reads with
  | none => simp
  | some reason => simp [eq_comm]

end

end

/-- All that can hold `bytes` gives the same region of them. A machine with words of 64 bits computes
it without leaving them, and the system may cut a file or a stream into reads as it likes. -/
theorem sources_agree {bytes : Bytes} {files : FileAccess} {path : String}
    (stored : files path = .ok bytes) (name : String) (offset length : UInt64) :
    let region := Region.ofWords offset length
    let file := (Source.file path region).read files name
    let memory := (Source.memory bytes region.length).read files name
    (∀ part, file = .ok part ↔ region.Selects bytes part) ∧
    (∀ error, file = .error error ↔
      bytes.length < region.offset ∧
        error = .offsetOutOfRange name region.offset bytes.length) ∧
    (∀ written, Utf8.encode written = bytes →
      (Source.text written region).read files name = file) ∧
    (bytes.length < UInt64.size →
      Region.selectWords name bytes offset length = some file ∧
      ∀ loaded, OpenFile.Loads { contents := bytes } name offset length loaded ↔ loaded = file) ∧
    (1 ≤ region.length → region.length ≤ bytes.length →
      memory = (Source.file path (.ofWords 0 length)).read files name) ∧
    (memory = .error .lengthNotSpecified ↔ region.length = 0) ∧
    (memory = .error (.lengthOutOfBounds region.length bytes.length) ↔
      bytes.length < region.length) ∧
    ∀ reads,
      let reader := (Source.reader reads).read files name
      (∀ part, reader = .ok part ↔
        Read.failure? reads = none ∧ part = Read.contents reads) ∧
      (∀ error, reader = .error error ↔
        ∃ reason, Read.failure? reads = some reason ∧ error = .unreadable name reason) ∧
      (Source.reader (reads.filter (· ≠ .interrupted))).read files name = reader ∧
      (Read.failure? reads = none → Read.contents reads = bytes →
        reader = (Source.file path .whole).read files name) := by
  intro region file memory
  have file_eq : ∀ region : Region,
      (Source.file path region).read files name = region.select name bytes := by
    intro region
    simp only [read, stored]
  refine ⟨fun part => ?_, fun error => ?_, ?_, fun fits => ⟨?_, fun loaded => ?_⟩,
    fun positive within => ?_, read_memory_eq_lengthNotSpecified_iff,
    read_memory_eq_lengthOutOfBounds_iff, fun reads =>
    ⟨fun part => read_reader_eq_ok_iff, fun error => read_reader_eq_error_iff, ?_, ?_⟩⟩
  · rw [← region.select_eq_ok_iff name, ← file_eq]
  · rw [← region.select_eq_error_iff name, ← file_eq]
  · rintro written rfl
    exact (file_eq region).symm
  · rw [Region.selectWords_eq name fits offset length, ← file_eq]
  · rw [OpenFile.loads_iff fits, ← file_eq]
  · rw [file_eq]
    exact read_memory_of_le positive within
  · simp only [read, Read.collect_filter_interrupted]
  · intro noFailure contents
    rw [file_eq, Region.select_whole]
    exact read_reader_eq_ok_iff.mpr ⟨noFailure, contents.symm⟩

theorem sources_agree_to_the_end :
    let bytes := Utf8.encode "abc"
    let files : FileAccess := fun _ => .ok bytes
    let most : UInt64 := 0xFFFFFFFFFFFFFFFF
    let reads : List Read := [.data [0x61], .interrupted, .data [0x62, 0x63], .data [], .failure ""]
    files "file" = .ok bytes ∧ bytes.length < UInt64.size ∧
      (Source.file "file" (.ofWords 1 most)).read files "lump" = .ok [0x62, 0x63] ∧
      Region.selectWords "lump" bytes 1 most = some (.ok [0x62, 0x63]) ∧
      (Source.memory bytes most.toNat).read files "lump" =
        .error (.lengthOutOfBounds most.toNat 3) ∧
      (Source.reader reads).read files "lump" =
        (Source.file "file" .whole).read files "lump" := by
  intro bytes files most reads
  have stored : files "file" = .ok bytes := rfl
  have fits : bytes.length < UInt64.size := by decide
  rcases sources_agree stored "lump" 1 most with ⟨selected, -, -, words, -, -, beyond, readers⟩
  have part : (Source.file "file" (.ofWords 1 most)).read files "lump" = .ok [0x62, 0x63] :=
    (selected _).mpr ⟨⟨[0x61], [], rfl, rfl⟩, by decide⟩
  have computed := (words fits).1
  rw [part] at computed
  exact ⟨stored, fits, part, computed, beyond.mpr (by decide), (readers reads).2.2.2 rfl rfl⟩

end Source

end ScriptLexer
