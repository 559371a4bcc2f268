import Mathlib.Data.List.Induction
import ScriptLexer.Delimiters
import ScriptLexer.Proofs.Text.Slices

/-!
# The members of delimiters

Delimiters hold the ASCII characters of a text, each once and in the order in which they stand there
first. Going through the bytes of the text and putting each behind the others, unless it is one of them
already, comes to the same. The members written next to each other are a text that gives them back.
-/

namespace ScriptLexer

namespace Utf8

/-- What was written is a text for a strict reader too. -/
theorem fromUTF8?_encode (text : String) :
    String.fromUTF8? (encode text).toByteArray = some text := by
  have bytes : (encode text).toByteArray = text.toUTF8 := by
    rw [encode, ← List.utf8Encode, ← String.toByteArray_ofList, String.ofList_toList]
    rfl
  rw [bytes]
  exact dif_pos text.isValidUTF8

theorem toNat_ofNat_byte {byte : UInt8} (ascii : byte < 0x80) :
    (Char.ofNat byte.toNat).toNat = byte.toNat :=
  Partial.toNat_ofNat (.inl (Nat.lt_trans (UInt8.lt_iff_toNat_lt.mp ascii) (by decide)))

theorem letterByte_ofNat {byte : UInt8} (ascii : byte < 0x80) :
    letterByte (Char.ofNat byte.toNat) = byte := by
  rw [letterByte, toNat_ofNat_byte ascii, UInt8.ofNat_toNat]

end Utf8

namespace Delimiters

open Utf8

/-! ## Where characters stand first -/

/-- The ASCII characters of a text that do not stand further in front as well. -/
def firstOccurrences (characters : List Char) : List Char :=
  (characters.zipIdx.filter fun occurrence =>
    occurrence.1.toNat < 0x80 ∧ occurrence.1 ∉ characters.take occurrence.2).map Prod.fst

theorem firstOccurrences_concat (front : List Char) (character : Char) :
    firstOccurrences (front ++ [character]) = firstOccurrences front ++
      if character.toNat < 0x80 ∧ character ∉ front then [character] else [] := by
  have before : ∀ occurrence ∈ front.zipIdx,
      (front ++ [character]).take occurrence.2 = front.take occurrence.2 := by
    intro occurrence member
    have place := (List.mem_zipIdx member).2.1
    rw [Nat.zero_add] at place
    exact List.take_append_of_le_length (Nat.le_of_lt place)
  have kept := List.filter_congr fun occurrence member =>
    congrArg (fun taken => decide (occurrence.1.toNat < 0x80 ∧ occurrence.1 ∉ taken))
      (before occurrence member)
  rw [firstOccurrences, List.zipIdx_append, List.filter_append, List.map_append]
  refine congrArg₂ _ (congrArg _ kept) ?_
  simp only [Nat.zero_add, List.zipIdx_singleton, List.filter_cons, List.filter_nil, List.take_left,
    decide_eq_true_eq]
  split <;> rfl

theorem mem_firstOccurrences_iff {characters : List Char} {character : Char} :
    character ∈ firstOccurrences characters ↔ character.toNat < 0x80 ∧ character ∈ characters := by
  induction characters using List.reverseRecOn with
  | nil => simp [firstOccurrences]
  | append_singleton front last induction =>
    rw [firstOccurrences_concat, List.mem_append, induction, List.mem_append, List.mem_singleton]
    split
    · next new => grind
    · next old => grind

/-! ## One byte after the other -/

/-- Puts a byte behind the others, unless it is one of them. -/
def insert (members : Bytes) (byte : UInt8) : Bytes :=
  if members.contains byte then members else members ++ [byte]

/-- Goes through the bytes of a text and takes in those that are ASCII characters. -/
def collect (bytes : Bytes) : Bytes :=
  (bytes.filter (· < 0x80)).foldl insert []

theorem insert_of_mem {members : Bytes} {byte : UInt8} (member : byte ∈ members) :
    insert members byte = members :=
  if_pos (List.contains_iff_mem.mpr member)

theorem insert_of_not_mem {members : Bytes} {byte : UInt8} (new : byte ∉ members) :
    insert members byte = members ++ [byte] :=
  if_neg fun member => new (List.contains_iff_mem.mp member)

theorem foldl_insert_eq_eraseDups (bytes : Bytes) : bytes.foldl insert [] = bytes.eraseDups := by
  induction bytes using List.reverseRecOn with
  | nil => rfl
  | append_singleton front byte induction =>
    rw [List.foldl_append, induction, List.foldl_cons, List.foldl_nil, List.eraseDups_append,
      List.cons_removeAll]
    by_cases member : byte ∈ front
    · rw [insert_of_mem (List.mem_eraseDups.mpr member)]
      simp [member]
    · rw [insert_of_not_mem (mt List.mem_eraseDups.mp member)]
      simp [member, List.eraseDups_cons]

theorem foldl_insert_of_nodup {bytes : Bytes} (nodup : bytes.Nodup) :
    bytes.foldl insert [] = bytes := by
  induction bytes using List.reverseRecOn with
  | nil => rfl
  | append_singleton front byte induction =>
    rw [List.nodup_append] at nodup
    have new : byte ∉ front := fun member => nodup.2.2 byte member byte (List.mem_singleton_self _) rfl
    rw [List.foldl_append, induction nodup.1]
    exact insert_of_not_mem new

/-- The bytes of a character: its own one if it is an ASCII character, and else none. -/
theorem filter_utf8EncodeChar (character : Char) :
    (String.utf8EncodeChar character).filter (· < 0x80) =
      if isAscii character then [letterByte character] else [] := by
  rcases Nat.lt_or_ge character.toNat 0x80 with small | foreign
  · have ascii : letterByte character < 0x80 := by
      rw [UInt8.lt_iff_toNat_lt, toNat_letterByte small]
      exact small
    have one : String.utf8EncodeChar character = [letterByte character] := utf8EncodeChar_one small
    simp [one, isAscii, small, ascii]
  · have none : ∀ byte ∈ String.utf8EncodeChar character, ¬ decide (byte < 0x80) = true :=
      fun byte member ascii => UInt8.not_lt.mpr (utf8EncodeChar_foreign foreign byte member)
        (of_decide_eq_true ascii)
    rw [List.filter_eq_nil_iff.mpr none, isAscii, if_neg (by simpa using foreign)]

theorem filter_bytes (characters : List Char) :
    (Utf8.bytes characters).filter (· < 0x80) = (characters.filter isAscii).map letterByte := by
  rw [Utf8.bytes, List.filter_flatMap]
  induction characters with
  | nil => rfl
  | cons character rest induction =>
    rw [List.flatMap_cons, induction, filter_utf8EncodeChar, List.filter_cons]
    split <;> rfl

/-- After every character of a text, those are taken in that stand first in what was gone through. -/
theorem collect_bytes (characters : List Char) :
    collect (Utf8.bytes characters) = (firstOccurrences characters).map letterByte := by
  rw [collect, filter_bytes]
  -- From the end, since a character is taken in or not by what is in front of it.
  induction characters using List.reverseRecOn with
  | nil => rfl
  | append_singleton front character induction =>
    rw [List.filter_append, List.map_append, List.foldl_append, induction, firstOccurrences_concat,
      List.map_append, List.filter_cons, isAscii]
    by_cases small : character.toNat < 0x80
    · have known : letterByte character ∈ (firstOccurrences front).map letterByte ↔
          character ∈ front := by
        rw [List.mem_map]
        constructor
        · rintro ⟨other, member, equal⟩
          rw [mem_firstOccurrences_iff] at member
          exact (letterByte_inj member.1 small).mp equal ▸ member.2
        · exact fun member => ⟨character, mem_firstOccurrences_iff.mpr ⟨small, member⟩, rfl⟩
      rw [if_pos (decide_eq_true small)]
      by_cases member : character ∈ front
      · rw [if_neg fun new => new.2 member, List.map_nil, List.append_nil]
        exact insert_of_mem (known.mpr member)
      · rw [if_pos ⟨small, member⟩]
        exact insert_of_not_mem (mt known.mp member)
    · rw [if_neg (by simpa using small), if_neg fun new => small new.1]
      exact (List.append_nil _).symm

/-! ## The members of a text -/

theorem ext_of_bytes {left right : Delimiters} (same : left.bytes = right.bytes) : left = right := by
  cases left
  cases right
  cases same
  rfl

theorem bytes_ofText (text : String) : (ofText text).bytes = collect (encode text) := by
  rw [collect, foldl_insert_eq_eraseDups, encode_eq, filter_bytes]
  rfl

theorem bytes_ofText_eq_map (text : String) :
    (ofText text).bytes = (firstOccurrences text.toList).map letterByte := by
  rw [bytes_ofText, encode_eq, collect_bytes]

theorem contains_ofText_iff {text : String} {byte : UInt8} :
    (ofText text).contains byte = true ↔ byte < 0x80 ∧ byte ∈ encode text := by
  rw [contains, List.contains_iff_mem, bytes_ofText, collect, foldl_insert_eq_eraseDups,
    List.mem_eraseDups, List.mem_filter, decide_eq_true_eq, and_comm]

theorem mem_ofText_iff {text : String} {byte : UInt8} :
    byte ∈ (ofText text).bytes ↔ byte < 0x80 ∧ Char.ofNat byte.toNat ∈ text.toList := by
  rw [bytes_ofText_eq_map, List.mem_map]
  constructor
  · rintro ⟨character, member, rfl⟩
    rw [mem_firstOccurrences_iff] at member
    rw [ofNat_letterByte member.1, UInt8.lt_iff_toNat_lt, toNat_letterByte member.1]
    exact member
  · rintro ⟨ascii, member⟩
    refine ⟨_, mem_firstOccurrences_iff.mpr ⟨?_, member⟩, letterByte_ofNat ascii⟩
    rw [toNat_ofNat_byte ascii]
    exact ascii

/-! ## The text of members -/

theorem encode_text (delimiters : Delimiters) : encode delimiters.text = delimiters.bytes := by
  rw [text, encode_ofList, bytes_eq_map, List.map_map]
  · refine (List.map_congr_left fun byte member => ?_).trans (List.map_id _)
    exact letterByte_ofNat (delimiters.ascii byte member)
  · intro character member
    rcases List.mem_map.mp member with ⟨byte, inBytes, rfl⟩
    have ascii := delimiters.ascii byte inBytes
    rw [toNat_ofNat_byte ascii]
    exact ascii

/-- Delimiters are told by their text. -/
theorem ofText_text (delimiters : Delimiters) : ofText delimiters.text = delimiters := by
  have ascii : delimiters.bytes.filter (· < 0x80) = delimiters.bytes :=
    List.filter_eq_self.mpr fun byte member => decide_eq_true (delimiters.ascii byte member)
  apply ext_of_bytes
  rw [bytes_ofText, encode_text, collect, ascii, foldl_insert_of_nodup delimiters.nodup]

theorem text_ofText (text : String) :
    (ofText text).text = .ofList (firstOccurrences text.toList) := by
  rw [Delimiters.text, bytes_ofText_eq_map, List.map_map]
  refine congrArg _ ((List.map_congr_left fun character member => ?_).trans (List.map_id _))
  exact ofNat_letterByte (mem_firstOccurrences_iff.mp member).1

theorem ofText_eq_iff {left right : String} :
    ofText left = ofText right ↔
      firstOccurrences left.toList = firstOccurrences right.toList := by
  constructor
  · intro same
    have texts := congrArg text same
    rw [text_ofText, text_ofText] at texts
    exact String.ofList_injective texts
  · intro same
    apply ext_of_bytes
    rw [bytes_ofText_eq_map, bytes_ofText_eq_map, same]

end Delimiters

end ScriptLexer
