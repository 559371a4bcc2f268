import ScriptLexer.Proofs.Source.Readers

/-!
# Regions

All sources that hold the same bytes give the same ones to a lexer. Texts and files are read on a
machine with words of 64 bits, so the sums and slices of that machine are compared with the numbers and
lists of the library.
-/

namespace ScriptLexer

namespace Region

/-! ## What a region is -/

/-- The number of bytes that the region has in a source of `size` bytes. -/
def count (region : Region) (size : Nat) : Nat :=
  if region.length = 0 ∨ size - region.offset < region.length then size - region.offset
  else region.length

/-- `part` is the region of `bytes`. -/
structure Selects (region : Region) (bytes part : Bytes) : Prop where
  isPart : ∃ before after, bytes = before ++ (part ++ after) ∧ before.length = region.offset
  length_eq : part.length = region.count bytes.length

section

variable {region : Region} {size : Nat} {bytes part : Bytes} (name : String)

theorem count_le (region : Region) (size : Nat) : region.count size ≤ size - region.offset := by
  unfold count
  split <;> omega

theorem clamp_of_lt (beyond : size < region.offset) :
    region.clamp name size = .error (.offsetOutOfRange name region.offset size) :=
  if_pos beyond

theorem clamp_of_le (within : region.offset ≤ size) :
    region.clamp name size = .ok (region.count size) :=
  if_neg (Nat.not_lt.mpr within)

theorem select_of_lt (beyond : bytes.length < region.offset) :
    region.select name bytes = .error (.offsetOutOfRange name region.offset bytes.length) := by
  rw [select, clamp_of_lt name beyond]
  rfl

theorem select_of_le (within : region.offset ≤ bytes.length) :
    region.select name bytes =
      .ok ((bytes.drop region.offset).take (region.count bytes.length)) := by
  rw [select, clamp_of_le name within]
  rfl

theorem select_whole : whole.select name bytes = .ok bytes := by
  have all : whole.count bytes.length = bytes.length := if_pos (.inl rfl)
  rw [select_of_le name (Nat.zero_le _), all]
  exact congrArg Except.ok List.take_length

theorem Selects.offset_le (selects : region.Selects bytes part) :
    region.offset ≤ bytes.length := by
  rcases selects.isPart with ⟨before, after, rfl, offset⟩
  rw [List.length_append]
  omega

theorem selects_iff (within : region.offset ≤ bytes.length) :
    region.Selects bytes part ↔
      part = (bytes.drop region.offset).take (region.count bytes.length) := by
  constructor
  · rintro ⟨⟨before, after, rfl, offset⟩, length_eq⟩
    rw [← offset, List.drop_left, ← length_eq, List.take_left]
  · rintro rfl
    refine ⟨⟨bytes.take region.offset, (bytes.drop region.offset).drop (region.count bytes.length),
      ?_, ?_⟩, ?_⟩
    · rw [List.take_append_drop, List.take_append_drop]
    · rw [List.length_take, Nat.min_eq_left within]
    · rw [List.length_take, List.length_drop, Nat.min_eq_left (region.count_le _)]

theorem select_eq_ok_iff : region.select name bytes = .ok part ↔ region.Selects bytes part := by
  by_cases within : region.offset ≤ bytes.length
  · rw [select_of_le name within, selects_iff within, Except.ok.injEq]
    exact eq_comm
  · rw [select_of_lt name (Nat.lt_of_not_le within)]
    constructor
    · intro equal
      cases equal
    · exact fun selects => (within selects.offset_le).elim

theorem select_eq_error_iff {error : LoadError} :
    region.select name bytes = .error error ↔
      bytes.length < region.offset ∧
        error = .offsetOutOfRange name region.offset bytes.length := by
  by_cases within : region.offset ≤ bytes.length
  · rw [select_of_le name within]
    constructor
    · intro equal
      cases equal
    · exact fun beyond => (Nat.not_lt.mpr within beyond.1).elim
  · have beyond := Nat.lt_of_not_le within
    rw [select_of_lt name beyond, Except.error.injEq]
    exact ⟨fun equal => ⟨beyond, equal.symm⟩, fun both => both.2.symm⟩

end

end Region

/-! ## Words

What a machine computes on words of 64 bits. There is no result where a number does not fit into a word
or a slice is not in range. -/

namespace Word

def ofNat? (number : Nat) : Option UInt64 :=
  if number < UInt64.size then some (.ofNat number) else none

def add? (left right : UInt64) : Option UInt64 :=
  ofNat? (left.toNat + right.toNat)

def sub? (left right : UInt64) : Option UInt64 :=
  if right ≤ left then some (left - right) else none

/-- The bytes from `start` up to and without `stop`. -/
def slice? (bytes : Bytes) (start stop : UInt64) : Option Bytes :=
  if start ≤ stop ∧ stop.toNat ≤ bytes.length then
    some ((bytes.drop start.toNat).take (stop - start).toNat)
  else none

theorem exists_ofNat? {number : Nat} (fits : number < UInt64.size) :
    ∃ word, ofNat? number = some word ∧ word.toNat = number :=
  ⟨.ofNat number, if_pos fits, UInt64.toNat_ofNat_of_lt' fits⟩

theorem exists_sub? {left right : UInt64} (within : right.toNat ≤ left.toNat) :
    ∃ word, sub? left right = some word ∧ word.toNat = left.toNat - right.toNat := by
  have le : right ≤ left := UInt64.le_iff_toNat_le.mpr within
  exact ⟨left - right, if_pos le, UInt64.toNat_sub_of_le left right le⟩

theorem slice?_eq {bytes : Bytes} {start stop : UInt64} (ordered : start.toNat ≤ stop.toNat)
    (within : stop.toNat ≤ bytes.length) :
    slice? bytes start stop = some ((bytes.drop start.toNat).take (stop.toNat - start.toNat)) := by
  have le : start ≤ stop := UInt64.le_iff_toNat_le.mpr ordered
  rw [← UInt64.toNat_sub_of_le stop start le]
  exact if_pos ⟨le, within⟩

end Word

namespace Region

def ofWords (offset length : UInt64) : Region where
  offset := offset.toNat
  length := length.toNat

def clampWords (name : String) (size : Nat) (offset length : UInt64) :
    Option (Except LoadError UInt64) :=
  (Word.ofNat? size).bind fun size =>
    if size < offset then some (.error (.offsetOutOfRange name offset.toNat size.toNat))
    else (Word.sub? size offset).map fun available =>
      .ok (if length = 0 ∨ available < length then available else length)

def selectWords (name : String) (bytes : Bytes) (offset length : UInt64) :
    Option (Except LoadError Bytes) :=
  (clampWords name bytes.length offset length).bind fun
    | .error error => some (.error error)
    | .ok count => (Word.add? offset count).bind fun stop =>
      (Word.slice? bytes offset stop).map .ok

section

variable (name : String) (length : UInt64) {size : Nat} (fits : size < UInt64.size)
  {offset : UInt64}
include fits

theorem clampWords_of_lt (beyond : size < offset.toNat) :
    clampWords name size offset length =
      some (.error (.offsetOutOfRange name offset.toNat size)) := by
  rcases Word.exists_ofNat? fits with ⟨word, ofNat, rfl⟩
  rw [clampWords, ofNat, Option.bind_some, if_pos (UInt64.lt_iff_toNat_lt.mpr beyond)]

theorem exists_clampWords (within : offset.toNat ≤ size) :
    ∃ count, clampWords name size offset length = some (.ok count) ∧
      count.toNat = (ofWords offset length).count size := by
  rcases Word.exists_ofNat? fits with ⟨word, ofNat, rfl⟩
  rcases Word.exists_sub? within with ⟨available, sub, available_eq⟩
  have notBeyond : ¬ word < offset := by
    rw [UInt64.lt_iff_toNat_lt]
    omega
  have test : (length = 0 ∨ available < length) ↔
      (length.toNat = 0 ∨ word.toNat - offset.toNat < length.toNat) := by
    rw [UInt64.lt_iff_toNat_lt, available_eq, ← UInt64.toNat_inj]
    rfl
  refine ⟨if length = 0 ∨ available < length then available else length, ?_, ?_⟩
  · rw [clampWords, ofNat, Option.bind_some, if_neg notBeyond, sub]
    rfl
  · rw [apply_ite UInt64.toNat, available_eq, count]
    simp only [test]
    rfl

end

/-- Neither sum nor difference nor slice goes out of range. -/
theorem selectWords_eq (name : String) {bytes : Bytes} (fits : bytes.length < UInt64.size)
    (offset length : UInt64) :
    selectWords name bytes offset length =
      some ((ofWords offset length).select name bytes) := by
  rw [selectWords]
  by_cases within : offset.toNat ≤ bytes.length
  · rcases exists_clampWords name length fits within with ⟨count, clamped, count_eq⟩
    have bound : count.toNat ≤ bytes.length - offset.toNat := by
      rw [count_eq]
      exact (ofWords offset length).count_le bytes.length
    rcases Word.exists_ofNat? (show offset.toNat + count.toNat < UInt64.size by omega) with
      ⟨stop, add, stop_eq⟩
    have slice : Word.slice? bytes offset stop = _ := Word.slice?_eq (by omega) (by omega)
    rw [stop_eq, Nat.add_sub_cancel_left, count_eq] at slice
    rw [clamped, select_of_le name within]
    simp only [Word.add?, add, Option.bind_some, slice]
    rfl
  · have beyond := Nat.lt_of_not_le within
    rw [clampWords_of_lt name length fits beyond, select_of_lt name beyond]
    rfl

end Region

/-! ## Files -/

namespace OpenFile

/-- What loading a region of a file can come to: its size clamps the region, which is then read from
its offset on. -/
inductive Loads (file : OpenFile) (name : String) (offset length : UInt64) :
    Except LoadError Bytes → Prop
  | refused {error : LoadError}
      (clamped : Region.clampWords name file.contents.length offset length =
        some (.error error)) :
      Loads file name offset length (.error error)
  | read {count : UInt64} {reads : List Read}
      (clamped : Region.clampWords name file.contents.length offset length = some (.ok count))
      (cut : (file.seek offset.toNat).Reads count.toNat reads) :
      Loads file name offset length ((Read.collect reads).mapError (.unreadable name))

theorem loads_iff {file : OpenFile} (fits : file.contents.length < UInt64.size) (name : String)
    (offset length : UInt64) (loaded : Except LoadError Bytes) :
    file.Loads name offset length loaded ↔
      loaded = (Region.ofWords offset length).select name file.contents := by
  by_cases within : offset.toNat ≤ file.contents.length
  · rcases Region.exists_clampWords name length fits within with ⟨count, clamped, count_eq⟩
    have selected : (Region.ofWords offset length).select name file.contents =
        .ok ((file.seek offset.toNat).left count.toNat) := by
      rw [Region.select_of_le name within, ← count_eq]
      rfl
    rw [selected]
    constructor
    · intro loads
      cases loads with
      | refused refused => cases clamped.symm.trans refused
      | read otherClamped cut =>
        cases clamped.symm.trans otherClamped
        rw [cut.collect_eq]
        rfl
    · rintro rfl
      rcases exists_reads (file.seek offset.toNat) count.toNat with ⟨reads, cut⟩
      have loads := Loads.read clamped cut
      rw [cut.collect_eq] at loads
      exact loads
  · have beyond := Nat.lt_of_not_le within
    have refused := Region.clampWords_of_lt name length fits beyond
    rw [Region.select_of_lt name beyond]
    constructor
    · intro loads
      cases loads with
      | refused otherRefused =>
        cases refused.symm.trans otherRefused
        rfl
      | read clamped => cases refused.symm.trans clamped
    · rintro rfl
      exact .refused refused

end OpenFile

end ScriptLexer
