import ScriptLexer.Text.Utf8

/-!
# Delimiters

The bytes that are a token by themselves wherever they stand. A set of them is written as the text
of its members, each once, in the order in which they were first named. Two sets are equal when these
texts are; their order has no bearing on a scan.
-/

namespace ScriptLexer

/-- A list that keeps the first of equal members has no two that are equal. -/
theorem nodup_eraseDups {α : Type _} [BEq α] [LawfulBEq α] (members : List α) :
    members.eraseDups.Nodup := by
  induction size : members.length using Nat.strongRecOn generalizing members with
  | ind _ induction =>
    cases members with
    | nil => exact .nil
    | cons member rest =>
      rw [List.eraseDups_cons]
      subst size
      refine List.nodup_cons.mpr ⟨by simp [List.mem_eraseDups], induction _ ?_ _ rfl⟩
      exact Nat.lt_succ_of_le (List.length_filter_le _ _)

structure Delimiters where
  bytes : List UInt8
  ascii : ∀ byte ∈ bytes, byte < 0x80
  nodup : bytes.Nodup
deriving DecidableEq

namespace Delimiters

def isAscii (character : Char) : Bool :=
  character.toNat < 0x80

/-- The characters of `text` that are one byte long; the others cannot delimit. -/
def ofText (text : String) : Delimiters where
  bytes := ((text.toList.filter isAscii).map fun character => character.toNat.toUInt8).eraseDups
  ascii := by
    intro byte member
    rw [List.mem_eraseDups, List.mem_map] at member
    rcases member with ⟨character, member, rfl⟩
    have small : character.toNat < 0x80 := by simpa [isAscii] using (List.mem_filter.mp member).2
    rw [UInt8.lt_iff_toNat_lt, Nat.toUInt8_eq, UInt8.toNat_ofNat']
    exact Nat.lt_of_le_of_lt (Nat.mod_le _ _) small
  nodup := nodup_eraseDups _

def empty : Delimiters where
  bytes := []
  ascii := by simp
  nodup := .nil

/-- The delimiters of a lexer that was told of none. -/
def standard : Delimiters :=
  ofText ";,:|=\x7b\x7d/"

instance : Inhabited Delimiters := ⟨standard⟩

def contains (delimiters : Delimiters) (byte : UInt8) : Bool :=
  delimiters.bytes.contains byte

def size (delimiters : Delimiters) : Nat :=
  delimiters.bytes.length

def isEmpty (delimiters : Delimiters) : Bool :=
  delimiters.bytes.isEmpty

def text (delimiters : Delimiters) : String :=
  String.ofList (delimiters.bytes.map fun byte => Char.ofNat byte.toNat)

example : (ofText "=ö;==,").text = "=;," := rfl
example : ofText "=;" ≠ ofText ";=" := by decide

end Delimiters

end ScriptLexer
