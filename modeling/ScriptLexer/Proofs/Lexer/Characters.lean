import ScriptLexer.Proofs.Lexer.Scripts
import ScriptLexer.Proofs.Source.Regions
import ScriptLexer.Proofs.Text.Boundaries

/-!
# Texts come through whole

Where the input is a text, no token is cut out of the middle of a character: every cut is next to an
ASCII byte. So what a token says is what is written in its span, and nothing in it is a replacement.
-/

namespace ScriptLexer

open Utf8

/-- The quotes around the text of a token that `following` comes after: none, or two, or only the first
one where the input ends before another. -/
inductive Quotes (text : String) (following : Bytes) : Bool → Bytes → Bytes → Prop
  | none : Quotes text following false [] []
  | both (inside : Byte.quote ∉ encode text) :
      Quotes text following true [Byte.quote] [Byte.quote]
  | first (inside : Byte.quote ∉ encode text) (last : following = []) :
      Quotes text following true [Byte.quote] []

/-- The span of a token holds its text, with the quotes around it, and no part of a character. -/
structure Token.KeepsText (token : Token) (buffer : Bytes) : Prop where
  start : Boundary buffer token.span.start.offset
  stop : Boundary buffer token.span.stop.offset
  written : ∃ opening closing,
    Quotes token.text (buffer.drop token.span.stop.offset) token.quoted opening closing ∧
    slice? buffer token.span.start.offset token.span.stop.offset =
      some (opening ++ (encode token.text ++ closing)) ∧
    slice? buffer (token.span.start.offset + opening.length)
      (token.span.stop.offset - closing.length) = some (encode token.text)
  part : ∃ before after : String, buffer = encode (before ++ token.text ++ after)

namespace Grammar

/-! ## Cuts -/

theorem closer_ascii {kind : CommentKind} {closer : Bytes} (member : closer ∈ closers kind) :
    ∃ before byte, closer = before ++ [byte] ∧ byte < 0x80 := by
  cases kind with
  | block =>
    cases List.mem_singleton.mp member
    exact ⟨[Byte.star], Byte.slash, rfl, by decide⟩
  | doubleSlash | doubleHash | semicolon =>
    simp only [closers, List.mem_cons, List.not_mem_nil, or_false] at member
    rcases member with rfl | rfl
    · exact ⟨[], Byte.newline, rfl, by decide⟩
    · exact ⟨[], Byte.carriageReturn, rfl, by decide⟩

theorem Trivia.seam {rules : CommentRules} {part following : Bytes}
    (trivia : Trivia rules part following) : Seam part following := by
  cases trivia with
  | blank blank => exact seam_of_ascii blank.ascii following
  | comment _ through =>
    cases through with
    | closed ends =>
      rcases ends with ⟨closer, member, before, rfl⟩
      rcases closer_ascii member with ⟨inner, byte, rfl, ascii⟩
      rw [← List.append_assoc]
      exact .behind ascii
    | unclosed _ last =>
      rw [last]
      exact .finish

theorem Gap.seam {rules : CommentRules} {gap following : Bytes}
    (isGap : Gap rules gap following) : Seam gap following := by
  induction isGap with
  | nil => exact .start
  | cons trivia _ induction => exact trivia.seam.append induction

theorem Spells.seam {delimiters : Delimiters} {lexeme : Lexeme} {text : String}
    {following : Bytes} (spells : Spells delimiters lexeme text following) :
    Seam lexeme.bytes following := by
  cases spells with
  | delimiter member => exact seam_of_ascii (delimiters.ascii _ member) following
  | @closed inner =>
    have seam : Seam (Byte.quote :: inner ++ [Byte.quote]) following := .behind (by decide)
    exact seam
  | unclosed => exact .finish
  | word _ _ ends =>
    apply seam_of_head?
    intro byte member
    rcases ends byte member with blank | delimiter
    · exact blank.ascii
    · exact delimiters.ascii byte delimiter

/-- A lexeme is its text and the quotes around it. -/
theorem Spells.quotes {delimiters : Delimiters} {lexeme : Lexeme} {text : String}
    {following : Bytes} (spells : Spells delimiters lexeme text following)
    (isText : IsText lexeme.bytes) :
    ∃ opening closing, Quotes text following lexeme.isQuoted opening closing ∧
      lexeme.bytes = opening ++ (encode text ++ closing) := by
  have quote : Byte.quote < 0x80 := by decide
  cases spells with
  | delimiter member =>
    refine ⟨[], [], .none, ?_⟩
    rw [encode_ascii (delimiters.ascii _ member)]
    rfl
  | @closed inner _ _ inside =>
    have behind : IsText (inner ++ [Byte.quote]) :=
      ((seam_of_ascii quote (inner ++ [Byte.quote])).isText isText).2
    have text := ((Seam.before quote).isText behind).1.encode_decode
    rw [← text] at inside
    exact ⟨_, _, .both inside, by rw [text]; rfl⟩
  | @unclosed inner _ inside =>
    have behind : IsText (inner ++ []) := ((seam_of_ascii quote (inner ++ [])).isText isText).2
    rw [List.append_nil] at behind
    have text := behind.encode_decode
    rw [← text] at inside
    exact ⟨_, _, .first inside rfl, by rw [text]; rfl⟩
  | word =>
    refine ⟨[], [], .none, ?_⟩
    rw [List.append_nil, List.nil_append]
    exact isText.encode_decode.symm

end Grammar

/-! ## Tokens -/

theorem Quotes.isText {text : String} {following opening closing : Bytes} {quoted : Bool}
    (quotes : Quotes text following quoted opening closing) : IsText opening ∧ IsText closing := by
  have quote : IsText [Byte.quote] := isText_ascii (by decide)
  cases quotes with
  | none => exact ⟨isText_nil, isText_nil⟩
  | both => exact ⟨quote, quote⟩
  | first => exact ⟨quote, isText_nil⟩

theorem Token.keepsText {token : Token} {before written following opening closing : Bytes}
    (quotes : Quotes token.text following token.quoted opening closing)
    (written_eq : written = opening ++ (encode token.text ++ closing))
    (beforeIsText : IsText before) (followingIsText : IsText following)
    (start : token.span.start.offset = before.length)
    (stop : token.span.stop.offset = (before ++ written).length) :
    token.KeepsText (before ++ (written ++ following)) := by
  rcases quotes.isText with ⟨openingIsText, closingIsText⟩
  have writtenIsText : IsText written :=
    written_eq ▸ openingIsText.append ((isText_encode token.text).append closingIsText)
  have whole := slice?_append before written following
  rw [← List.length_append] at whole
  have inner := slice?_append (before ++ opening) (encode token.text) (closing ++ following)
  have start_inner : token.span.start.offset + opening.length = (before ++ opening).length := by
    rw [start, List.length_append]
  have stop_inner : token.span.stop.offset - closing.length =
      (before ++ opening).length + (encode token.text).length := by
    rw [stop, written_eq]
    simp only [List.length_append]
    omega
  constructor
  · rw [start]
    exact boundary_append beforeIsText (writtenIsText.append followingIsText)
  · rw [stop, ← List.append_assoc]
    exact boundary_append (beforeIsText.append writtenIsText) followingIsText
  · refine ⟨opening, closing, ?_, ?_, ?_⟩
    · rw [stop, ← List.append_assoc, List.drop_left]
      exact quotes
    · rw [start, stop, whole, written_eq]
    · rw [start_inner, stop_inner, ← inner, written_eq]
      simp only [List.append_assoc]
  · rcases beforeIsText.append openingIsText with ⟨left, left_eq⟩
    rcases closingIsText.append followingIsText with ⟨right, right_eq⟩
    refine ⟨left, right, ?_⟩
    rw [encode_append, encode_append, ← left_eq, ← right_eq, written_eq]
    simp only [List.append_assoc]

namespace Lexer

open Grammar

/-- The cursor goes from boundary to boundary. -/
theorem Scans.keepsText {lexer after : Lexer} {token : Token} (scans : lexer.Scans token after)
    (boundary : Boundary lexer.cursor.buffer lexer.cursor.position) :
    token.KeepsText lexer.cursor.buffer ∧
      Boundary lexer.cursor.buffer after.cursor.position := by
  rcases boundary with ⟨left, right, buffer, leftIsText, rightIsText, position⟩
  have inBuffer : lexer.cursor.InBuffer := by
    rw [Cursor.InBuffer, buffer, ← position, List.length_append]
    exact Nat.le_add_right _ _
  have ahead_eq : lexer.cursor.ahead = right := by
    rw [lexer.cursor.ahead_eq, buffer, ← position, List.drop_left]
  have all : IsText lexer.cursor.buffer := buffer ▸ leftIsText.append rightIsText
  have keeps : token.KeepsText lexer.cursor.buffer ∧
      token.span.stop.offset = after.cursor.position := by
    cases scans with
    | finish =>
      have stop := Cursor.skip_all_position inBuffer
      have whole : lexer.cursor.buffer = lexer.cursor.buffer ++ ([] ++ []) := by simp
      refine ⟨?_, rfl⟩
      rw [whole]
      exact Token.keepsText .none rfl all isText_nil stop (by rw [List.append_nil]; exact stop)
    | @lexeme gap following lexeme text start behind ahead isGap starts spells start_eq behind_eq =>
      have passes := passes inBuffer ahead start_eq behind_eq
      rw [← ahead_eq, ahead] at rightIsText buffer
      rcases isGap.seam.isText rightIsText with ⟨gapIsText, restIsText⟩
      rcases spells.seam.isText restIsText with ⟨lexemeIsText, followingIsText⟩
      rcases spells.quotes lexemeIsText with ⟨opening, closing, quotes, written⟩
      have start_position : start.position = (left ++ gap).length := by
        rw [passes.start_position, ← position, List.length_append]
      have behind_position : behind.tokenEnd = (left ++ gap ++ lexeme.bytes).length := by
        rw [passes.tokenEnd_eq, passes.behind_position, start_position]
        exact List.length_append.symm
      refine ⟨?_, passes.tokenEnd_eq⟩
      rw [buffer, ← List.append_assoc]
      exact Token.keepsText quotes written (leftIsText.append gapIsText) followingIsText
        start_position behind_position
  exact ⟨keeps.1, keeps.2 ▸ keeps.1.stop⟩

/-- What a script reads, as long as it loads nothing else. -/
theorem keepsText_of_script {lexer : Lexer}
    (boundary : Boundary lexer.cursor.buffer lexer.cursor.position) {files : FileAccess}
    {script : List Operation} (keeps : ∀ operation ∈ script, operation.loads files = false) :
    ∀ token ∈ lexer.consumedAll files script, token.KeepsText lexer.cursor.buffer := by
  have none : ∀ token ∈ ([] : List Token), token.KeepsText lexer.cursor.buffer := by simp
  have invariant := script_preserves (motive := fun after history =>
    after.cursor.buffer = lexer.cursor.buffer ∧
      Boundary lexer.cursor.buffer after.cursor.position ∧
      ∀ token ∈ history, token.KeepsText lexer.cursor.buffer)
    ?next ?settings ⟨rfl, boundary, none⟩ keeps
  case next =>
    rintro after history ⟨buffer, here, texts⟩
    rw [← buffer] at here
    have behind := after.scans_next.keepsText here
    rw [buffer] at behind
    refine ⟨after.scans_next.buffer.trans buffer, behind.2, ?_⟩
    rw [List.forall_mem_append]
    exact ⟨texts, by simpa using behind.1⟩
  case settings => exact fun _ _ holds => holds
  exact invariant.2.2

theorem boundaries_whole {name : String} {text : String} {bytes : Bytes}
    (selected : Region.whole.select name (encode text) = .ok bytes) :
    Boundary (encode text) Region.whole.offset ∧
      Boundary (encode text) (Region.whole.offset + bytes.length) := by
  rw [Region.select_whole] at selected
  cases selected
  have start := boundary_append isText_nil (isText_encode text)
  have stop := boundary_append (isText_encode text) isText_nil
  rw [List.append_nil] at stop
  exact ⟨start, (Nat.zero_add _).symm ▸ stop⟩

/-- Of a text, or of a region of it that no character goes out of, every token that is read says what
is written in its span, whatever delimiters are set. All of its characters are in the text. -/
theorem characters_kept (lexer : Lexer) (files : FileAccess) (written : String) (region : Region)
    (name : String) (bytes : Bytes)
    (read : Source.read (.text written region) files name = .ok bytes)
    (ends : region = .whole ∨ Boundary (encode written) region.offset ∧
      Boundary (encode written) (region.offset + bytes.length))
    (script : List Operation) (keeps : ∀ operation ∈ script, operation.loads files = false) :
    let loaded := (lexer.run files (.load (.text written region) name)).lexer
    ∀ token ∈ loaded.consumedAll files script,
      token.KeepsText bytes ∧ token.text.toList <:+: written.toList := by
  intro loaded token member
  have selected : region.select name (encode written) = .ok bytes := read
  have boundaries : Boundary (encode written) region.offset ∧
      Boundary (encode written) (region.offset + bytes.length) := by
    rcases ends with rfl | boundaries
    · exact boundaries_whole selected
    · exact boundaries
  rcases ((region.select_eq_ok_iff name).mp selected).isPart with ⟨before, after, parts, offset⟩
  rw [parts, ← offset] at boundaries
  rcases isText_between boundaries.1 boundaries.2 with
    ⟨⟨front, rfl⟩, bytesIsText, ⟨back, rfl⟩⟩
  have loaded_eq : loaded = lexer.withInput name bytes := by
    unfold loaded
    rw [lexer.run_load_ok read]
  have start : Boundary loaded.cursor.buffer loaded.cursor.position := by
    rw [loaded_eq]
    exact boundary_append isText_nil bytesIsText
  have buffer : loaded.cursor.buffer = bytes := by
    rw [loaded_eq]
    rfl
  have keepsText := keepsText_of_script start keeps token member
  rw [buffer] at keepsText
  rcases keepsText.part with ⟨left, right, part⟩
  have text_eq : written = front ++ (left ++ token.text ++ right ++ back) := by
    apply encode_injective
    simp only [parts, part, encode_append]
  refine ⟨keepsText, (front ++ left).toList, (right ++ back).toList, ?_⟩
  rw [text_eq]
  simp only [String.toList_append, List.append_assoc]

/-- A region between two characters of two bytes, and delimiters that are none. -/
theorem characters_kept_region :
    let written := "äx \"ü;\" ö"
    let region : Region := { offset := 2, length := 8 }
    let files : FileAccess := fun _ => .ok []
    let loaded := (({ rules := .standard } : Lexer).run files
      (.load (.text written region) "text")).lexer
    let script : List Operation := [.setDelimiters (.ofText "ü="), .tokens none]
    Source.read (.text written region) files "text" = .ok (encode "x \"ü;\" ") ∧
      Boundary (encode written) 2 ∧ Boundary (encode written) 10 ∧
      (loaded.consumedAll files script).map Token.text = ["x", "ü;", ""] ∧
      ∀ token ∈ loaded.consumedAll files script, token.KeepsText (encode "x \"ü;\" ") := by
  intro written region files loaded script
  have within : region.offset ≤ (encode written).length := by decide +kernel
  have read : Source.read (.text written region) files "text" = .ok (encode "x \"ü;\" ") :=
    (Region.select_of_le "text" within).trans (congrArg Except.ok (by decide +kernel))
  have start : Boundary (encode written) 2 :=
    ⟨encode "ä", encode "x \"ü;\" ö", by decide +kernel, isText_encode _, isText_encode _,
      by decide +kernel⟩
  have stop : Boundary (encode written) 10 :=
    ⟨encode "äx \"ü;\" ", encode "ö", by decide +kernel, isText_encode _, isText_encode _,
      by decide +kernel⟩
  have texts : (loaded.consumedAll files script).map Token.text = ["x", "ü;", ""] := by
    decide +kernel
  have keeps : ∀ operation ∈ script, operation.loads files = false := by decide
  exact ⟨read, start, stop, texts, fun token member =>
    (characters_kept _ files written region "text" _ read (.inr ⟨start, stop⟩) script keeps
      token member).1⟩

end Lexer

end ScriptLexer
