import ScriptLexer.Text.Utf8

/-!
# What decoding gives

Bytes never decode to nothing: what is not a character yet is owed, and what is owed at the end is a
replacement.
-/

namespace ScriptLexer

namespace Utf8

theorem first_gives (byte : UInt8) : (first byte).1 ≠ [] ∨ (first byte).2.isSome := by
  unfold first
  split
  · exact .inl (by simp)
  · split
    · exact .inr rfl
    · exact .inl (by simp)

theorem next_gives (character : Partial) (byte : UInt8) :
    (next character byte).1 ≠ [] ∨ (next character byte).2.isSome := by
  unfold next
  split
  · dsimp only
    split
    · exact .inl (by simp)
    · exact .inr rfl
  · exact .inl (by simp)

theorem decodeFrom_ne_nil (begun : Option Partial) (bytes : Bytes)
    (some : begun.isSome ∨ bytes ≠ []) : decodeFrom begun bytes ≠ [] := by
  induction bytes generalizing begun with
  | nil =>
    rcases some with some | nonempty
    · simp [decodeFrom, some]
    · exact (nonempty rfl).elim
  | cons byte rest induction =>
    have gives : (begun.elim (first byte) (next · byte)).1 ≠ [] ∨
        (begun.elim (first byte) (next · byte)).2.isSome := by
      cases begun with
      | none => exact first_gives byte
      | some character => exact next_gives character byte
    rw [decodeFrom]
    dsimp only
    intro nothing
    rcases List.append_eq_nil_iff.mp nothing with ⟨noCharacter, noLater⟩
    rcases gives with characters | owed
    · exact characters noCharacter
    · exact induction _ (.inl owed) noLater

theorem decode_eq_empty_iff {bytes : Bytes} : decode bytes = "" ↔ bytes = [] := by
  constructor
  · intro empty
    apply Classical.byContradiction
    intro nonempty
    apply decodeFrom_ne_nil none bytes (.inr nonempty)
    simpa [decode] using empty
  · rintro rfl
    rfl

theorem decode_ascii {byte : UInt8} (ascii : byte < 0x80) :
    decode [byte] = String.singleton (Char.ofNat byte.toNat) := by
  simp [decode, decodeFrom, first, ascii]

end Utf8

end ScriptLexer
