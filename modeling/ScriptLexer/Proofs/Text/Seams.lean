import ScriptLexer.Proofs.Text.RoundTrip

/-!
# Where bytes can be cut

Bytes that are cut next to an ASCII byte are read in two parts as they are read in one, since no
character goes across such a cut. What is not ASCII between two such cuts is read as characters that
are not ASCII.
-/

namespace ScriptLexer

namespace Utf8

namespace Partial

/-- How many characters differ in the last `missing` bytes only. -/
def span : (missing : Nat) → Nat
  | 0 => 1
  | missing + 1 => 64 * span missing

/-- The least number that the character can be completed to. -/
def low (character : Partial) : Nat :=
  (character.bits * 64 + (character.least.toNat - 0x80)) * span (character.missing - 1)

/-- The number behind the greatest one that the character can be completed to. -/
def high (character : Partial) : Nat :=
  (character.bits * 64 + (character.greatest.toNat - 0x80) + 1) * span (character.missing - 1)

/-- Whether the character can be completed, to characters behind the ASCII range only. -/
structure Sound (character : Partial) : Prop where
  least_ge : 0x80 ≤ character.least.toNat
  low_ge : 0x80 ≤ character.low
  valid : character.high ≤ 0xD800 ∨ 0xE000 ≤ character.low ∧ character.high ≤ 0x110000

theorem sound_begin? {byte : UInt8} {character : Partial}
    (begins : begin? byte = some character) : character.Sound := by
  simp only [begin?, UInt8.le_iff_toNat_le, ← UInt8.toNat_inj] at begins
  generalize byte.toNat = value at begins
  -- The ranges of first bytes, one after the other, with the numbers that they come to.
  repeat' split at begins
  all_goals simp only [Option.some.injEq, reduceCtorEq] at begins
  all_goals subst begins
  all_goals constructor
  all_goals simp [low, high, span] at *
  all_goals omega

theorem accepts_iff {character : Partial} {byte : UInt8} :
    character.accepts byte = true ↔
      character.least.toNat ≤ byte.toNat ∧ byte.toNat ≤ character.greatest.toNat := by
  simp [accepts, UInt8.le_iff_toNat_le]

section

variable {character : Partial} {byte : UInt8}

/-! A byte that is taken in narrows the range. -/

theorem low_le (accepts : character.accepts byte = true) :
    character.low ≤ (character.extend byte).bits * span (character.extend byte).missing := by
  have range := accepts_iff.mp accepts
  exact Nat.mul_le_mul_right _ (Nat.add_le_add_left (Nat.sub_le_sub_right range.1 _) _)

theorem le_high (accepts : character.accepts byte = true) :
    ((character.extend byte).bits + 1) * span (character.extend byte).missing ≤
      character.high := by
  have range := accepts_iff.mp accepts
  exact Nat.mul_le_mul_right _
    (Nat.succ_le_succ (Nat.add_le_add_left (Nat.sub_le_sub_right range.2 _) _))

theorem low_extend (more : (character.extend byte).missing ≠ 0) :
    (character.extend byte).low =
      (character.extend byte).bits * span (character.extend byte).missing := by
  rcases Nat.exists_eq_succ_of_ne_zero more with ⟨missing, equal⟩
  have least : (character.extend byte).least = 0x80 := rfl
  rw [low, equal, least, span]
  simp [Nat.mul_assoc]

theorem high_extend (more : (character.extend byte).missing ≠ 0) :
    (character.extend byte).high =
      ((character.extend byte).bits + 1) * span (character.extend byte).missing := by
  rcases Nat.exists_eq_succ_of_ne_zero more with ⟨missing, equal⟩
  have greatest : (character.extend byte).greatest = 0xBF := rfl
  have next : (character.extend byte).bits * 64 + 63 + 1 =
      ((character.extend byte).bits + 1) * 64 := by omega
  rw [high, equal, greatest, span, ← Nat.mul_assoc, ← next]
  rfl

theorem Sound.extend (sound : character.Sound) (accepts : character.accepts byte = true)
    (more : (character.extend byte).missing ≠ 0) : (character.extend byte).Sound where
  least_ge := Nat.le_refl _
  low_ge := by
    rw [low_extend more]
    exact Nat.le_trans sound.low_ge (low_le accepts)
  valid := by
    have low_le := low_le accepts
    have le_high := le_high accepts
    have valid := sound.valid
    rw [low_extend more, high_extend more]
    omega

theorem toNat_ofNat {bits : Nat} (valid : bits.isValidChar) :
    (Char.ofNat bits).toNat = bits := by
  rw [Char.ofNat, dif_pos valid]
  rfl

/-- No character that is complete is an ASCII character. -/
theorem Sound.toNat_ge (sound : character.Sound) (accepts : character.accepts byte = true)
    (last : (character.extend byte).missing = 0) :
    0x80 ≤ (Char.ofNat (character.extend byte).bits).toNat := by
  have low_le := low_le accepts
  have le_high := le_high accepts
  have low_ge := sound.low_ge
  have valid := sound.valid
  rw [last, span] at low_le le_high
  have isValid : (character.extend byte).bits.isValidChar := by
    rw [Nat.isValidChar]
    omega
  rw [toNat_ofNat isValid]
  omega

end

end Partial

/-! ## One byte -/

/-- What a byte gives in a state of the reader, as in `decodeFrom`. -/
def step (begun : Option Partial) (byte : UInt8) : List Char × Option Partial :=
  begun.elim (first byte) (next · byte)

theorem decodeFrom_cons (begun : Option Partial) (byte : UInt8) (rest : Bytes) :
    decodeFrom begun (byte :: rest) =
      (step begun byte).1 ++ decodeFrom (step begun byte).2 rest :=
  rfl

/-- The states that the reader comes to. -/
def Begun (begun : Option Partial) : Prop :=
  ∀ character ∈ begun, character.Sound

theorem begun_none : Begun none := by
  intro character begins
  cases begins

theorem begun_first (byte : UInt8) : Begun (first byte).2 := by
  intro character begins
  unfold first at begins
  split at begins
  · cases begins
  · split at begins
    · next begun found =>
      cases begins
      exact Partial.sound_begin? found
    · cases begins

theorem begun_step {begun : Option Partial} (sound : Begun begun) (byte : UInt8) :
    Begun (step begun byte).2 := by
  rcases begun with _ | character
  · exact begun_first byte
  · intro extended begins
    simp only [step, Option.elim_some, next] at begins
    split at begins
    · next accepts =>
      split at begins
      · cases begins
      · next more =>
        obtain rfl := Option.mem_some_iff.mp begins
        exact (sound character rfl).extend accepts more
    · exact begun_first byte extended begins

/-- An ASCII byte ends the character before it. -/
theorem step_ascii {begun : Option Partial} (sound : Begun begun) {byte : UInt8}
    (ascii : byte < 0x80) :
    step begun byte = (decodeFrom begun [] ++ [Char.ofNat byte.toNat], none) := by
  have first_eq : first byte = ([Char.ofNat byte.toNat], none) := by rw [first, if_pos ascii]
  rcases begun with _ | character
  · exact first_eq
  · have refuses : character.accepts byte = false := by
      apply Bool.eq_false_iff.mpr
      intro accepts
      have least := (sound character rfl).least_ge
      have range := Partial.accepts_iff.mp accepts
      rw [UInt8.lt_iff_toNat_lt] at ascii
      exact absurd (Nat.le_trans least range.1) (Nat.not_le.mpr ascii)
    simp [step, next, refuses, first_eq, decodeFrom]

/-- Other bytes give no ASCII characters. -/
theorem step_foreign {begun : Option Partial} (sound : Begun begun) {byte : UInt8}
    (foreign : 0x80 ≤ byte) : ∀ character ∈ (step begun byte).1, 0x80 ≤ character.toNat := by
  have replaced : 0x80 ≤ replacement.toNat := by decide
  have first_foreign : ∀ character ∈ (first byte).1, 0x80 ≤ character.toNat := by
    rw [first, if_neg (UInt8.not_lt.mpr foreign)]
    split
    · simp
    · simpa using replaced
  rcases begun with _ | character
  · exact first_foreign
  · simp only [step, Option.elim_some, next]
    split
    · next accepts =>
      split
      · next last => simpa using (sound character rfl).toNat_ge accepts last
      · simp
    · simpa using ⟨replaced, first_foreign⟩

/-! ## Bytes -/

theorem decodeFrom_append_ascii {begun : Option Partial} (sound : Begun begun) (left : Bytes)
    {byte : UInt8} (ascii : byte < 0x80) (right : Bytes) :
    decodeFrom begun (left ++ byte :: right) =
      decodeFrom begun left ++ Char.ofNat byte.toNat :: decodeFrom none right := by
  induction left generalizing begun with
  | nil =>
    rw [List.nil_append, decodeFrom_cons, step_ascii sound ascii]
    simp
  | cons head left induction =>
    rw [List.cons_append, decodeFrom_cons, decodeFrom_cons, induction (begun_step sound head),
      List.append_assoc]

theorem decodeFrom_foreign {begun : Option Partial} (sound : Begun begun) {run : Bytes}
    (foreign : ∀ byte ∈ run, 0x80 ≤ byte) :
    ∀ character ∈ decodeFrom begun run, 0x80 ≤ character.toNat := by
  induction run generalizing begun with
  | nil =>
    have replaced : 0x80 ≤ replacement.toNat := by decide
    rcases begun with _ | character <;> simp [decodeFrom, replaced]
  | cons byte run induction =>
    rw [List.forall_mem_cons] at foreign
    rw [decodeFrom_cons, List.forall_mem_append]
    exact ⟨step_foreign sound foreign.1, induction (begun_step sound byte) foreign.2⟩

/-! ## Seams -/

/-- A cut at an end or next to an ASCII byte. -/
inductive Seam : Bytes → Bytes → Prop
  | start {right : Bytes} : Seam [] right
  | finish {left : Bytes} : Seam left []
  | behind {before right : Bytes} {byte : UInt8} (ascii : byte < 0x80) :
      Seam (before ++ [byte]) right
  | before {left after : Bytes} {byte : UInt8} (ascii : byte < 0x80) : Seam left (byte :: after)

theorem seam_of_head? {left right : Bytes} (ends : ∀ byte ∈ right.head?, byte < 0x80) :
    Seam left right := by
  rcases right with _ | ⟨byte, after⟩
  · exact .finish
  · exact .before (ends byte rfl)

theorem seam_of_ascii {byte : UInt8} (ascii : byte < 0x80) (right : Bytes) :
    Seam [byte] right := by
  have seam : Seam ([] ++ [byte]) right := .behind ascii
  exact seam

theorem Seam.append {first second following : Bytes} (seam : Seam first (second ++ following))
    (later : Seam second following) : Seam (first ++ second) following := by
  cases later with
  | start =>
    rw [List.append_nil]
    exact seam
  | finish => exact .finish
  | behind ascii =>
    rw [← List.append_assoc]
    exact .behind ascii
  | before ascii => exact .before ascii

theorem Seam.decodeFrom_append {left right : Bytes} (seam : Seam left right) :
    decodeFrom none (left ++ right) = decodeFrom none left ++ decodeFrom none right := by
  cases seam with
  | start => rfl
  | finish => simp [decodeFrom]
  | @behind before right byte ascii =>
    have whole := decodeFrom_append_ascii begun_none before ascii right
    have part := decodeFrom_append_ascii begun_none before ascii []
    rw [List.append_assoc, List.singleton_append, whole, part]
    simp [decodeFrom]
  | before ascii =>
    rw [decodeFrom_append_ascii begun_none left ascii, decodeFrom_ascii _ ascii]

theorem Seam.decode_append {left right : Bytes} (seam : Seam left right) :
    decode (left ++ right) = decode left ++ decode right := by
  rw [decode, seam.decodeFrom_append, String.ofList_append]
  rfl

/-! ## Texts -/

/-- Bytes that a text is written as. -/
def IsText (bytes : Bytes) : Prop :=
  ∃ text, bytes = encode text

theorem isText_encode (text : String) : IsText (encode text) :=
  ⟨text, rfl⟩

theorem IsText.encode_decode {bytes : Bytes} (isText : IsText bytes) :
    encode (decode bytes) = bytes := by
  rcases isText with ⟨text, rfl⟩
  rw [decode_encode]

theorem IsText.append {left right : Bytes} (leftIsText : IsText left)
    (rightIsText : IsText right) : IsText (left ++ right) := by
  rcases leftIsText with ⟨left, rfl⟩
  rcases rightIsText with ⟨right, rfl⟩
  exact ⟨left ++ right, (encode_append left right).symm⟩

theorem utf8EncodeChar_foreign {character : Char} (foreign : 0x80 ≤ character.toNat) :
    ∀ byte ∈ String.utf8EncodeChar character, 0x80 ≤ byte := by
  have later (bits : Nat) : 0x80 ≤ continuation bits := by
    rw [UInt8.le_iff_toNat_le, toNat_continuation]
    exact Nat.le_add_left _ _
  have begins {bits : Nat} (large : 0x80 ≤ bits) (small : bits < 0x100) :
      0x80 ≤ UInt8.ofNat bits := by
    rw [UInt8.le_iff_toNat_le, UInt8.toNat_ofNat_of_lt' (show _ < 0x100 from small)]
    exact large
  apply utf8EncodeChar_cases (motive := fun bytes => ∀ byte ∈ bytes, 0x80 ≤ byte)
  · intro small
    exact absurd foreign (Nat.not_le.mpr small)
  · intro least greatest
    simp only [List.forall_mem_cons, later]
    exact ⟨begins (by omega) (by omega), by simp⟩
  · intro least greatest _
    simp only [List.forall_mem_cons, later, true_and]
    exact ⟨begins (by omega) (by omega), by simp⟩
  · intro least greatest
    simp only [List.forall_mem_cons, later, true_and]
    exact ⟨begins (by omega) (by omega), by simp⟩

theorem utf8EncodeChar_one {character : Char} (small : character.toNat < 0x80) :
    String.utf8EncodeChar character = [.ofNat character.toNat] :=
  if_pos (Nat.le_of_lt_succ small)

theorem encode_ascii {byte : UInt8} (ascii : byte < 0x80) :
    encode (String.singleton (Char.ofNat byte.toNat)) = [byte] := by
  have small : byte.toNat < 0x80 := by simpa [UInt8.lt_iff_toNat_lt] using ascii
  have value := Partial.toNat_ofNat (.inl (Nat.lt_trans small (by decide)))
  rw [← value] at small
  simp [encode, utf8EncodeChar_one small, value]

theorem ofNat_toNat_inj {left right : UInt8} (leftAscii : left < 0x80) (rightAscii : right < 0x80)
    (same : Char.ofNat left.toNat = Char.ofNat right.toNat) : left = right := by
  have bytes := encode_ascii leftAscii
  rw [same, encode_ascii rightAscii] at bytes
  cases bytes
  rfl

/-- An ASCII byte is a character of its own. -/
theorem utf8EncodeChar_of_ascii {character : Char} {byte : UInt8}
    (member : byte ∈ String.utf8EncodeChar character) (ascii : byte < 0x80) :
    String.utf8EncodeChar character = [byte] := by
  have small : character.toNat < 0x80 := by
    apply Nat.lt_of_not_le
    intro foreign
    exact UInt8.not_lt.mpr (utf8EncodeChar_foreign foreign byte member) ascii
  rw [utf8EncodeChar_one small] at member ⊢
  rw [List.mem_singleton.mp member]

theorem encode_foreign {text : String}
    (foreign : ∀ character ∈ text.toList, 0x80 ≤ character.toNat) :
    ∀ byte ∈ encode text, 0x80 ≤ byte := by
  intro byte member
  rcases List.mem_flatMap.mp member with ⟨character, inText, member⟩
  exact utf8EncodeChar_foreign (foreign character inText) byte member

private theorem exists_flatMap {characters : List Char} {right : Bytes} {byte : UInt8}
    (ascii : byte < 0x80) (left : Bytes)
    (written : characters.flatMap String.utf8EncodeChar = left ++ byte :: right) :
    ∃ before after : List Char, before.flatMap String.utf8EncodeChar = left ∧
      after.flatMap String.utf8EncodeChar = right := by
  induction characters generalizing left with
  | nil => simp at written
  | cons character later induction =>
    rw [List.flatMap_cons, List.append_eq_append_iff] at written
    rcases written with ⟨rest, rfl, written⟩ | ⟨rest, character_eq, written⟩
    · rcases induction rest written with ⟨before, after, rfl, rfl⟩
      exact ⟨character :: before, after, List.flatMap_cons, rfl⟩
    · -- The byte is in this character, so it is all of it, or it begins what is left.
      rcases List.cons_eq_append_iff.mp written with ⟨rfl, written⟩ | ⟨inner, rfl, rfl⟩
      · rcases induction [] written.symm with ⟨-, after, -, rfl⟩
        rw [List.append_nil] at character_eq
        exact ⟨[character], after, by simp [character_eq], rfl⟩
      · have member : byte ∈ String.utf8EncodeChar character := by simp [character_eq]
        rw [utf8EncodeChar_of_ascii member ascii] at character_eq
        rcases left with _ | ⟨_, left⟩
        · cases character_eq
          exact ⟨[], later, rfl, rfl⟩
        · simp at character_eq

theorem isText_nil : IsText [] :=
  ⟨"", rfl⟩

theorem isText_ascii {byte : UInt8} (ascii : byte < 0x80) : IsText [byte] :=
  ⟨_, (encode_ascii ascii).symm⟩

/-- The parts of a text on the two sides of a seam are texts. -/
theorem Seam.isText {left right : Bytes} (seam : Seam left right)
    (isText : IsText (left ++ right)) : IsText left ∧ IsText right := by
  have split {left right : Bytes} {byte : UInt8} (ascii : byte < 0x80)
      (isText : IsText (left ++ byte :: right)) : IsText left ∧ IsText right := by
    rcases isText with ⟨text, written⟩
    rcases exists_flatMap ascii left written.symm with ⟨before, after, rfl, rfl⟩
    exact ⟨⟨.ofList before, by simp [encode]⟩, ⟨.ofList after, by simp [encode]⟩⟩
  cases seam with
  | start => exact ⟨isText_nil, isText⟩
  | finish =>
    rw [List.append_nil] at isText
    exact ⟨isText, isText_nil⟩
  | behind ascii =>
    rw [List.append_assoc, List.singleton_append] at isText
    rcases split ascii isText with ⟨before, right⟩
    exact ⟨before.append (isText_ascii ascii), right⟩
  | before ascii =>
    rcases split ascii isText with ⟨left, after⟩
    exact ⟨left, (isText_ascii ascii).append after⟩

end Utf8

end ScriptLexer
