import ScriptLexer.Proofs.Text.Seams

/-!
# Slices of a text

A text is cut at the number of a byte, and not every such number is between two characters. The length
of what is written for the characters in front always is. ASCII characters are told by their bytes: no
byte of another character is taken for one of them.
-/

namespace ScriptLexer

namespace Utf8

/-! ## Characters as bytes -/

/-- What is written for characters. -/
def bytes (characters : List Char) : Bytes :=
  characters.flatMap String.utf8EncodeChar

theorem encode_eq (text : String) : encode text = bytes text.toList :=
  rfl

theorem encode_ofList (characters : List Char) : encode (.ofList characters) = bytes characters := by
  rw [encode, String.toList_ofList]
  rfl

@[simp] theorem bytes_nil : bytes [] = [] :=
  rfl

@[simp] theorem bytes_append (front behind : List Char) :
    bytes (front ++ behind) = bytes front ++ bytes behind :=
  List.flatMap_append

theorem bytes_injective {left right : List Char} (same : bytes left = bytes right) : left = right := by
  rw [← encode_ofList, ← encode_ofList] at same
  exact String.ofList_injective (encode_injective same)

/-- The byte of an ASCII character. -/
def letterByte (letter : Char) : UInt8 :=
  .ofNat letter.toNat

theorem toNat_letterByte {letter : Char} (ascii : letter.toNat < 0x80) :
    (letterByte letter).toNat = letter.toNat :=
  UInt8.toNat_ofNat_of_lt' (show _ < 0x100 by omega)

theorem bytes_cons {letter : Char} (ascii : letter.toNat < 0x80) (rest : List Char) :
    bytes (letter :: rest) = letterByte letter :: bytes rest := by
  rw [bytes, List.flatMap_cons, utf8EncodeChar_one ascii]
  rfl

theorem ofNat_letterByte {letter : Char} (ascii : letter.toNat < 0x80) :
    Char.ofNat (letterByte letter).toNat = letter := by
  rw [toNat_letterByte ascii, Char.ofNat_toNat]

/-- A word is ASCII if its letters are so one by one. -/
theorem ascii_of_all {word : List Char} (all : word.all (·.toNat < 0x80) = true) :
    ∀ letter ∈ word, letter.toNat < 0x80 := by
  simpa using all

theorem bytes_eq_map {characters : List Char}
    (ascii : ∀ character ∈ characters, character.toNat < 0x80) :
    bytes characters = characters.map letterByte := by
  induction characters with
  | nil => rfl
  | cons letter rest induction =>
    rw [List.forall_mem_cons] at ascii
    rw [bytes_cons ascii.1, induction ascii.2, List.map_cons]

/-- Other characters begin with a byte above those that continue a character. -/
theorem exists_bytes_cons {character : Char} (foreign : 0x80 ≤ character.toNat) (rest : List Char) :
    ∃ first others, bytes (character :: rest) = first :: others ∧ 0xC0 ≤ first := by
  have begins {bits lead : Nat} (above : 0xC0 ≤ bits + lead) (below : bits + lead < 0x100) :
      0xC0 ≤ UInt8.ofNat (bits + lead) := by
    rw [UInt8.le_iff_toNat_le, UInt8.toNat_ofNat_of_lt' (show _ < 0x100 from below)]
    exact above
  have first : ∃ first others, String.utf8EncodeChar character = first :: others ∧ 0xC0 ≤ first := by
    apply utf8EncodeChar_cases
      (motive := fun written => ∃ first others, written = first :: others ∧ 0xC0 ≤ first)
    · intro small
      exact absurd foreign (Nat.not_le.mpr small)
    · exact fun _ _ => ⟨_, _, rfl, begins (by omega) (by omega)⟩
    · exact fun _ _ _ => ⟨_, _, rfl, begins (by omega) (by omega)⟩
    · exact fun _ _ => ⟨_, _, rfl, begins (by omega) (by omega)⟩
  rcases first with ⟨first, others, written, above⟩
  refine ⟨first, others ++ bytes rest, ?_, above⟩
  rw [bytes, List.flatMap_cons, written]
  rfl

private theorem letterByte_ne {letter : Char} {first : UInt8} (ascii : letter.toNat < 0x80)
    (above : 0xC0 ≤ first) : letterByte letter ≠ first := by
  rintro rfl
  rw [UInt8.le_iff_toNat_le, toNat_letterByte ascii] at above
  exact absurd (Nat.lt_of_le_of_lt above ascii) (by decide)

theorem letterByte_inj {left right : Char} (leftAscii : left.toNat < 0x80)
    (rightAscii : right.toNat < 0x80) : letterByte left = letterByte right ↔ left = right := by
  rw [← UInt8.toNat_inj, toNat_letterByte leftAscii, toNat_letterByte rightAscii, Char.toNat_inj]

/-- A text begins with a letter if it begins with its byte. -/
theorem head?_bytes_iff {letter : Char} (ascii : letter.toNat < 0x80) {text : List Char} :
    (bytes text).head? = some (letterByte letter) ↔ ∃ rest, text = letter :: rest := by
  rcases text with _ | ⟨character, rest⟩
  · simp
  rcases Nat.lt_or_ge character.toNat 0x80 with small | foreign
  · rw [bytes_cons small, List.head?_cons, Option.some.injEq, letterByte_inj small ascii]
    simp
  · rcases exists_bytes_cons foreign rest with ⟨first, others, written, above⟩
    rw [written, List.head?_cons, Option.some.injEq]
    refine iff_of_false (letterByte_ne ascii above).symm ?_
    rintro ⟨_, equal⟩
    cases equal
    exact absurd ascii (Nat.not_lt.mpr foreign)

/-- A text begins with a word if its bytes begin with those of the word. -/
theorem bytes_prefix_iff {word text : List Char} (ascii : ∀ letter ∈ word, letter.toNat < 0x80) :
    bytes word <+: bytes text ↔ word <+: text := by
  induction word generalizing text with
  | nil => simp
  | cons letter later induction =>
    rw [List.forall_mem_cons] at ascii
    rw [bytes_cons ascii.1]
    rcases text with _ | ⟨character, rest⟩
    · simp
    rcases Nat.lt_or_ge character.toNat 0x80 with small | foreign
    · rw [bytes_cons small, List.cons_prefix_cons, List.cons_prefix_cons,
        letterByte_inj ascii.1 small, induction ascii.2]
    · rcases exists_bytes_cons foreign rest with ⟨first, others, written, above⟩
      rw [written, List.cons_prefix_cons, List.cons_prefix_cons]
      refine iff_of_false (fun both => letterByte_ne ascii.1 above both.1) ?_
      rintro ⟨rfl, -⟩
      exact absurd ascii.1 (Nat.not_lt.mpr foreign)

/-! ## Runs of characters -/

/-- A run of ASCII characters is a run of bytes. -/
theorem takeWhile_bytes {test : Char → Bool}
    (ascii : ∀ character, test character = true → character.toNat < 0x80) (text : List Char) :
    (bytes text).takeWhile (fun byte => test (Char.ofNat byte.toNat)) =
      bytes (text.takeWhile test) := by
  induction text with
  | nil => rfl
  | cons character rest induction =>
    rcases Nat.lt_or_ge character.toNat 0x80 with small | foreign
    · have read := ofNat_letterByte small
      cases taken : test character with
      | true =>
        rw [bytes_cons small, List.takeWhile_cons_of_pos (by rw [read]; exact taken), induction,
          List.takeWhile_cons_of_pos taken, bytes_cons small]
      | false =>
        rw [bytes_cons small, List.takeWhile_cons_of_neg (by rw [read, taken]; decide),
          List.takeWhile_cons_of_neg (by rw [taken]; decide)]
        rfl
    · have notTaken (other : Char) (large : 0x80 ≤ other.toNat) : ¬ test other = true :=
        fun taken => absurd (ascii other taken) (Nat.not_lt.mpr large)
      rcases exists_bytes_cons foreign rest with ⟨first, others, written, above⟩
      have large : 0x80 ≤ (Char.ofNat first.toNat).toNat := by
        rw [UInt8.le_iff_toNat_le] at above
        have small := first.toNat_lt
        rw [Partial.toNat_ofNat (.inl (Nat.lt_trans small (by decide)))]
        exact Nat.le_trans (by decide) above
      rw [written, List.takeWhile_cons_of_neg (by exact notTaken _ large),
        List.takeWhile_cons_of_neg (notTaken _ foreign)]
      rfl

/-! ## Cases of letters -/

/-- The lower case of an ASCII letter. -/
def lowerByte (byte : UInt8) : UInt8 :=
  if 0x41 ≤ byte ∧ byte ≤ 0x5A then byte + 0x20 else byte

theorem toLower_foreign {character : Char} (foreign : 0x80 ≤ character.toNat) :
    character.toLower = character := by
  have noLetter : ¬ (character.val ≥ 'A'.val ∧ character.val ≤ 'Z'.val) := by
    simp only [ge_iff_le, UInt32.le_iff_toNat_le, Char.toNat_val, Char.reduceVal,
      UInt32.reduceToNat]
    omega
  exact dif_neg noLetter

private theorem map_lowerByte (character : Char) :
    (String.utf8EncodeChar character).map lowerByte = String.utf8EncodeChar character.toLower := by
  rcases Nat.lt_or_ge character.toNat 0x80 with small | foreign
  · have letters : ∀ code < 0x80, (String.utf8EncodeChar (Char.ofNat code)).map lowerByte =
        String.utf8EncodeChar (Char.ofNat code).toLower := by decide
    rw [← Char.ofNat_toNat character]
    exact letters _ small
  · rw [toLower_foreign foreign]
    have kept : ∀ byte ∈ String.utf8EncodeChar character, lowerByte byte = byte := by
      intro byte member
      have large := utf8EncodeChar_foreign foreign byte member
      refine if_neg fun range => ?_
      exact absurd (UInt8.le_trans large range.2) (by decide)
    exact (List.map_congr_left kept).trans (List.map_id' _)

theorem map_lowerByte_bytes (text : List Char) :
    (bytes text).map lowerByte = bytes (text.map Char.toLower) := by
  rw [bytes, bytes, List.map_flatMap, List.flatMap_map]
  exact congrArg (List.flatMap · text) (funext map_lowerByte)

/-! ## Slices -/

/-- Whether a text can be cut there: at its ends, or in front of a byte that begins a character. -/
def isBoundary (text : Bytes) (index : Nat) : Bool :=
  index == 0 || index == text.length || text[index]?.any fun byte => byte < 0x80 || 0xC0 ≤ byte

def sliceFrom? (text : Bytes) (start : Nat) : Option Bytes :=
  if isBoundary text start then some (text.drop start) else none

def sliceTo? (text : Bytes) (stop : Nat) : Option Bytes :=
  if isBoundary text stop then some (text.take stop) else none

section

variable (front behind : List Char)

theorem getElem?_bytes :
    (bytes (front ++ behind))[(bytes front).length]? = (bytes behind).head? := by
  rw [bytes_append, List.getElem?_append_right (Nat.le_refl _), Nat.sub_self, List.head?_eq_getElem?]

theorem isBoundary_bytes : isBoundary (bytes (front ++ behind)) (bytes front).length = true := by
  rw [isBoundary, getElem?_bytes]
  rcases behind with _ | ⟨character, rest⟩
  · simp
  · rcases Nat.lt_or_ge character.toNat 0x80 with small | foreign
    · have ascii : letterByte character < 0x80 := by
        rw [UInt8.lt_iff_toNat_lt, toNat_letterByte small]
        exact small
      simp [bytes_cons small, ascii]
    · rcases exists_bytes_cons foreign rest with ⟨first, others, written, above⟩
      simp [written, above]

theorem sliceFrom?_bytes :
    sliceFrom? (bytes (front ++ behind)) (bytes front).length = some (bytes behind) := by
  rw [sliceFrom?, if_pos (isBoundary_bytes front behind), bytes_append, List.drop_left]

theorem sliceTo?_bytes :
    sliceTo? (bytes (front ++ behind)) (bytes front).length = some (bytes front) := by
  rw [sliceTo?, if_pos (isBoundary_bytes front behind), bytes_append, List.take_left]

end

end Utf8

end ScriptLexer
