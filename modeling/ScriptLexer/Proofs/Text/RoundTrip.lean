import ScriptLexer.Proofs.Text

/-!
# What was written is read back

A text that was written as bytes is read back as it was: a character is cut into groups of six bits,
and the reader puts them together again.
-/

namespace ScriptLexer

namespace Utf8

/-! ## How a character is written -/

/-- The byte that adds the last six of the bits to a character. -/
def continuation (bits : Nat) : UInt8 :=
  .ofNat (bits % 0x40 + 0x80)

theorem toNat_continuation (bits : Nat) : (continuation bits).toNat = bits % 0x40 + 0x80 :=
  UInt8.toNat_ofNat_of_lt' (show _ < 0x100 by omega)

/-- One byte for ASCII; else the first byte tells how many others follow and has the first bits. -/
theorem utf8EncodeChar_cases {motive : Bytes → Prop} (character : Char)
    (one : character.toNat < 0x80 → motive [.ofNat character.toNat])
    (two : 0x80 ≤ character.toNat → character.toNat < 0x800 →
      motive [.ofNat (character.toNat / 0x40 + 0xC0), continuation character.toNat])
    (three : 0x800 ≤ character.toNat → character.toNat < 0x10000 →
      (character.toNat < 0xD800 ∨ 0xDFFF < character.toNat) →
      motive [.ofNat (character.toNat / 0x1000 + 0xE0), continuation (character.toNat / 0x40),
        continuation character.toNat])
    (four : 0x10000 ≤ character.toNat → character.toNat < 0x110000 →
      motive [.ofNat (character.toNat / 0x40000 + 0xF0), continuation (character.toNat / 0x1000),
        continuation (character.toNat / 0x40), continuation character.toNat]) :
    motive (String.utf8EncodeChar character) := by
  have valid : character.toNat < 0xD800 ∨
      0xDFFF < character.toNat ∧ character.toNat < 0x110000 :=
    character.valid
  have value : character.val.toNat = character.toNat := rfl
  unfold String.utf8EncodeChar
  simp only [value]
  split
  · exact one (by omega)
  split
  · rw [Nat.mod_eq_of_lt (by omega)]
    exact two (by omega) (by omega)
  split
  · rw [Nat.mod_eq_of_lt (by omega)]
    exact three (by omega) (by omega) (by omega)
  · rw [Nat.mod_eq_of_lt (by omega)]
    exact four (by omega) (by omega)

/-! ## How its bytes are read -/

theorem begin?_two {bits : Nat} (least : 0x2 ≤ bits) (greatest : bits < 0x20) :
    Partial.begin? (.ofNat (bits + 0xC0)) = some { bits, missing := 1 } := by
  have value : (UInt8.ofNat (bits + 0xC0)).toNat = bits + 0xC0 :=
    UInt8.toNat_ofNat_of_lt' (show _ < 0x100 by omega)
  simp only [Partial.begin?, UInt8.le_iff_toNat_le, ← UInt8.toNat_inj, value]
  grind

theorem begin?_three {bits : Nat} (greatest : bits < 0x10) :
    Partial.begin? (.ofNat (bits + 0xE0)) = some
      { bits, missing := 2
        least := if bits = 0 then 0xA0 else 0x80
        greatest := if bits = 0xD then 0x9F else 0xBF } := by
  have value : (UInt8.ofNat (bits + 0xE0)).toNat = bits + 0xE0 :=
    UInt8.toNat_ofNat_of_lt' (show _ < 0x100 by omega)
  simp only [Partial.begin?, UInt8.le_iff_toNat_le, ← UInt8.toNat_inj, value]
  grind

theorem begin?_four {bits : Nat} (greatest : bits < 0x5) :
    Partial.begin? (.ofNat (bits + 0xF0)) = some
      { bits, missing := 3
        least := if bits = 0 then 0x90 else 0x80
        greatest := if bits = 0x4 then 0x8F else 0xBF } := by
  have value : (UInt8.ofNat (bits + 0xF0)).toNat = bits + 0xF0 :=
    UInt8.toNat_ofNat_of_lt' (show _ < 0x100 by omega)
  simp only [Partial.begin?, UInt8.le_iff_toNat_le, ← UInt8.toNat_inj, value]
  grind

/-- No byte of the ASCII range begins a longer character. -/
theorem begin?_ascii {byte : UInt8} (ascii : byte < 0x80) : Partial.begin? byte = none := by
  rw [UInt8.lt_iff_toNat_lt] at ascii
  simp only [Partial.begin?, UInt8.le_iff_toNat_le, ← UInt8.toNat_inj]
  grind

section

variable (rest : Bytes)

theorem decodeFrom_ascii {byte : UInt8} (ascii : byte < 0x80) :
    decodeFrom none (byte :: rest) = Char.ofNat byte.toNat :: decodeFrom none rest := by
  simp [decodeFrom, first, ascii]

theorem decodeFrom_begin {byte : UInt8} {character : Partial}
    (begins : Partial.begin? byte = some character) :
    decodeFrom none (byte :: rest) = decodeFrom (some character) rest := by
  have large : ¬ byte < 0x80 := by
    intro ascii
    rw [begin?_ascii ascii] at begins
    cases begins
  simp [decodeFrom, first, large, begins]

variable {bits digits : Nat} {least greatest : UInt8} (above : least.toNat ≤ digits % 0x40 + 0x80)
  (below : digits % 0x40 + 0x80 ≤ greatest.toNat)
include above below

private theorem accepts_continuation (missing : Nat) :
    Partial.accepts { bits, missing, least, greatest } (continuation digits) = true := by
  simp only [Partial.accepts, Bool.and_eq_true, decide_eq_true_eq, UInt8.le_iff_toNat_le,
    toNat_continuation]
  exact ⟨above, below⟩

omit above below in
private theorem extend_continuation (missing : Nat) :
    Partial.extend { bits, missing, least, greatest } (continuation digits) =
      { bits := bits * 64 + digits % 0x40, missing := missing - 1 } := by
  have digit : (continuation digits).toNat - 0x80 = digits % 0x40 := by
    have value := toNat_continuation digits
    omega
  unfold Partial.extend
  rw [digit]

theorem decodeFrom_last :
    decodeFrom (some { bits, missing := 1, least, greatest }) (continuation digits :: rest) =
      Char.ofNat (bits * 64 + digits % 0x40) :: decodeFrom none rest := by
  rw [decodeFrom]
  simp [next, accepts_continuation above below, extend_continuation]

theorem decodeFrom_more (missing : Nat) :
    decodeFrom (some { bits, missing := missing + 2, least, greatest })
        (continuation digits :: rest) =
      decodeFrom (some { bits := bits * 64 + digits % 0x40, missing := missing + 1 }) rest := by
  rw [decodeFrom]
  simp [next, accepts_continuation above below, extend_continuation]

end

/-- A character that was written is read back. -/
theorem decodeFrom_utf8EncodeChar (character : Char) (rest : Bytes) :
    decodeFrom none (String.utf8EncodeChar character ++ rest) =
      character :: decodeFrom none rest := by
  have whole : Char.ofNat character.toNat = character := Char.ofNat_toNat character
  apply utf8EncodeChar_cases (motive := fun bytes =>
    decodeFrom none (bytes ++ rest) = character :: decodeFrom none rest)
  · intro small
    have value : (UInt8.ofNat character.toNat).toNat = character.toNat :=
      UInt8.toNat_ofNat_of_lt' (show _ < 0x100 by omega)
    have ascii : UInt8.ofNat character.toNat < 0x80 := by
      rw [UInt8.lt_iff_toNat_lt, value]
      exact small
    rw [List.singleton_append, decodeFrom_ascii _ ascii, value, whole]
  · intro least greatest
    have bits : character.toNat / 0x40 * 64 + character.toNat % 0x40 = character.toNat := by omega
    simp only [List.cons_append, List.nil_append]
    rw [decodeFrom_begin _ (begin?_two (by omega) (by omega)),
      decodeFrom_last _ (by simp) (by simp; omega), bits, whole]
  · intro least greatest valid
    have bits : (character.toNat / 0x1000 * 64 + character.toNat / 0x40 % 0x40) * 64 +
        character.toNat % 0x40 = character.toNat := by omega
    simp only [List.cons_append, List.nil_append]
    rw [decodeFrom_begin _ (begin?_three (by omega)), decodeFrom_more _ ?_ ?_ 0,
      decodeFrom_last _ (by simp) (by simp; omega), bits, whole]
    · split
      · simp
        omega
      · simp
    · split
      · simp
        omega
      · simp
        omega
  · intro least greatest
    have bits : ((character.toNat / 0x40000 * 64 + character.toNat / 0x1000 % 0x40) * 64 +
        character.toNat / 0x40 % 0x40) * 64 + character.toNat % 0x40 = character.toNat := by omega
    simp only [List.cons_append, List.nil_append]
    rw [decodeFrom_begin _ (begin?_four (by omega)), decodeFrom_more _ ?_ ?_ 1,
      decodeFrom_more _ (by simp) (by simp; omega) 0,
      decodeFrom_last _ (by simp) (by simp; omega), bits, whole]
    · split
      · simp
        omega
      · simp
    · split
      · simp
        omega
      · simp
        omega

theorem decodeFrom_encode (text : String) (rest : Bytes) :
    decodeFrom none (encode text ++ rest) = text.toList ++ decodeFrom none rest := by
  rw [encode]
  induction text.toList with
  | nil => rfl
  | cons character later induction =>
    rw [List.flatMap_cons, List.append_assoc, decodeFrom_utf8EncodeChar, induction,
      List.cons_append]

@[simp] theorem decode_encode (text : String) : decode (encode text) = text := by
  have whole := decodeFrom_encode text []
  rw [List.append_nil] at whole
  rw [decode, whole]
  simp [decodeFrom]

theorem encode_injective {left right : String} (same : encode left = encode right) :
    left = right := by
  rw [← decode_encode left, same, decode_encode]

@[simp] theorem encode_append (left right : String) :
    encode (left ++ right) = encode left ++ encode right := by
  simp [encode]

end Utf8

end ScriptLexer
