import ScriptLexer.Proofs.Text.Seams

/-!
# Character boundaries

The offsets at which a text can be cut into two texts. What is between two of them is a text again.
-/

namespace ScriptLexer

namespace Utf8

/-- Texts end and begin at `offset`. -/
def Boundary (bytes : Bytes) (offset : Nat) : Prop :=
  ∃ left right : Bytes, bytes = left ++ right ∧ IsText left ∧ IsText right ∧ left.length = offset

section

variable {left right : Bytes}

theorem boundary_append (leftIsText : IsText left) (rightIsText : IsText right) :
    Boundary (left ++ right) left.length :=
  ⟨left, right, rfl, leftIsText, rightIsText, rfl⟩

theorem Boundary.isText (boundary : Boundary (left ++ right) left.length) :
    IsText left ∧ IsText right := by
  rcases boundary with ⟨otherLeft, otherRight, same, leftIsText, rightIsText, length⟩
  rcases List.append_inj same length.symm with ⟨rfl, rfl⟩
  exact ⟨leftIsText, rightIsText⟩

/-- A text in front of a text can be taken away. -/
theorem IsText.of_append (leftIsText : IsText left) (isText : IsText (left ++ right)) :
    IsText right := by
  rcases leftIsText with ⟨front, rfl⟩
  rcases isText with ⟨whole, written⟩
  have read : whole = front ++ decode right := by
    rw [← decode_encode whole, ← written, decode, decodeFrom_encode, String.ofList_append,
      String.ofList_toList]
    rfl
  rw [read, encode_append] at written
  exact ⟨decode right, List.append_cancel_left written⟩

end

/-- What is between two boundaries is a text, and so is what is on either side. -/
theorem isText_between {before part after : Bytes}
    (start : Boundary (before ++ (part ++ after)) before.length)
    (stop : Boundary (before ++ (part ++ after)) (before.length + part.length)) :
    IsText before ∧ IsText part ∧ IsText after := by
  rw [← List.append_assoc, ← List.length_append] at stop
  exact ⟨start.isText.1, start.isText.1.of_append stop.isText.1, stop.isText.2⟩

/-- The bytes from `start` up to and without `stop`, where the two are in order and within `bytes`. -/
def slice? (bytes : Bytes) (start stop : Nat) : Option Bytes :=
  if start ≤ stop ∧ stop ≤ bytes.length then some ((bytes.drop start).take (stop - start)) else none

theorem slice?_append (before part after : Bytes) :
    slice? (before ++ (part ++ after)) before.length (before.length + part.length) = some part := by
  have within : before.length + part.length ≤ (before ++ (part ++ after)).length := by
    simp only [List.length_append]
    omega
  rw [slice?, if_pos ⟨Nat.le_add_right _ _, within⟩, List.drop_left, Nat.add_sub_cancel_left,
    List.take_left]

end Utf8

end ScriptLexer
