import ScriptLexer.Proofs.Lexer.Scripts

/-!
# What reading operations consume

Whatever is mixed, reading operations consume the tokens that calls of `next` alone would read, and a
peek among them consumes none. A limit on `tokens` is a number of calls that end with the first token
at the end of the input.
-/

namespace ScriptLexer

/-- The tokens through the first one at the end of the input. -/
def Token.throughEnd : List Token → List Token
  | [] => []
  | token :: later => if token.isEnd then [token] else token :: throughEnd later

/-- What an operation answers with, if these are the tokens that it reads. -/
inductive Operation.Makes : Operation → List Token → Answer → Prop
  | next (token : Token) : Makes .next [token] (.token token)
  | text (token : Token) : Makes .text [token] (.text token.text)
  | check (expected : String) (token : Token) :
      Makes (.check expected) [token] (.flag (token.text == expected))
  | integer (token : Token) : Makes .integer [token] (.integer (Integer.ofText token.text))
  | single (token : Token) :
      Makes .single [token] (.float ((Numeral.ofText token.text).convert .single))
  | double (token : Token) : Makes .double [token] (.float (Numeral.ofText token.text))
  | truth (token : Token) : Makes .truth [token] (.flag (Truth.ofText token.text))
  | tokens (limit : Option Nat) (tokens : List Token) :
      Makes (.tokens limit) tokens (.tokens (tokens.filter (!·.isEnd)))

namespace Lexer

/-! ## Calls of `next` -/

/-- Calls of `next` read these tokens, report these events, and `after` is behind them. -/
inductive Nexts : Lexer → List Token → List Event → Lexer → Prop
  | done {lexer : Lexer} : Nexts lexer [] [] lexer
  | next {lexer after : Lexer} {tokens : List Token} {events : List Event}
      (later : Nexts lexer.next.lexer tokens events after) :
      Nexts lexer (lexer.next.token :: tokens) (lexer.next.events ++ events) after

section

variable {lexer between after : Lexer} {tokens later : List Token} {events laterEvents : List Event}

theorem Nexts.one (lexer : Lexer) :
    Nexts lexer [lexer.next.token] lexer.next.events lexer.next.lexer := by
  have none : Nexts lexer.next.lexer [] [] lexer.next.lexer := .done
  have single := none.next
  rw [List.append_nil] at single
  exact single

theorem Nexts.append (first : Nexts lexer tokens events between)
    (second : Nexts between later laterEvents after) :
    Nexts lexer (tokens ++ later) (events ++ laterEvents) after := by
  induction first with
  | done => exact second
  | next _ induction =>
    rw [List.append_assoc]
    exact .next (induction second)

theorem Nexts.head_eq (nexts : Nexts lexer tokens events after) :
    ∀ token ∈ tokens.head?, token = lexer.next.token := by
  cases nexts with
  | done => simp
  | next => simp

theorem Nexts.runAll_eq (nexts : Nexts lexer tokens events after) (files : FileAccess) :
    let plain := List.replicate tokens.length Operation.next
    (lexer.runAll files plain).map Outcome.answer = tokens.map Answer.token ∧
      (lexer.runAll files plain).flatMap Outcome.events = events ∧
      lexer.afterAll files plain = after := by
  induction nexts with
  | done => exact ⟨rfl, rfl, rfl⟩
  | @next lexer _ _ _ _ induction =>
    rcases induction with ⟨answers, reported, behind⟩
    refine ⟨?_, ?_, behind⟩
    · exact congrArg (Answer.token lexer.next.token :: ·) answers
    · exact congrArg (lexer.next.events ++ ·) reported

end

/-! ## Operations as calls of `next` -/

theorem nexts_consumeAll (lexer : Lexer) (limit : Nat) :
    Nexts lexer ((lexer.readings limit).map Reading.token) (lexer.consumeAll limit).events
      (lexer.consumeAll limit).lexer := by
  induction limit generalizing lexer with
  | zero => exact .done
  | succ limit induction =>
    have reported : (lexer.consumeAll (limit + 1)).events =
        (lexer.readings (limit + 1)).flatMap Reading.events := rfl
    rw [lexer_consumeAll_succ, reported, readings]
    split
    · rw [List.flatMap_singleton]
      exact Nexts.one lexer
    · exact .next (induction lexer.next.lexer)

theorem nexts_run (lexer : Lexer) (files : FileAccess) {operation : Operation}
    (reading : operation = .peek ∨ operation.reads = true) :
    Nexts lexer (lexer.consumed operation) (lexer.run files operation).events
      (lexer.run files operation).lexer := by
  rcases reading with rfl | reads
  · rw [run, peek_eq]
    exact .done
  cases operation with
  | load | peek | setDelimiters | setDebug => cases reads
  | tokens limit => exact nexts_consumeAll lexer _
  | _ => exact Nexts.one lexer

theorem nexts_script (lexer : Lexer) (files : FileAccess) {script : List Operation}
    (reading : ∀ operation ∈ script, operation = .peek ∨ operation.reads = true) :
    Nexts lexer (lexer.consumedAll files script)
      ((lexer.runAll files script).flatMap Outcome.events) (lexer.afterAll files script) := by
  induction script generalizing lexer with
  | nil => exact .done
  | cons operation later induction =>
    have first := lexer.nexts_run files (reading operation (List.mem_cons_self ..))
    exact first.append (induction _ fun other member => reading other (List.mem_cons_of_mem _ member))

theorem run_makes (lexer : Lexer) (files : FileAccess) {operation : Operation}
    (reads : operation.reads = true) :
    operation.Makes (lexer.consumed operation) (lexer.run files operation).answer := by
  cases operation with
  | load | peek | setDelimiters | setDebug => cases reads
  | next => exact .next _
  | text => exact .text _
  | check expected => exact .check expected _
  | integer => exact .integer _
  | single => exact .single _
  | double => exact .double _
  | truth => exact .truth _
  | tokens limit => exact .tokens limit _

theorem readings_eq_throughEnd (lexer : Lexer) (limit : Nat) :
    (lexer.readings limit).map Reading.token =
      Token.throughEnd ((lexer.nexts limit).map Reading.token) := by
  induction limit generalizing lexer with
  | zero => rfl
  | succ limit induction =>
    rw [readings, nexts, List.map_cons, Token.throughEnd]
    split
    · rfl
    · rw [List.map_cons, induction]

/-! ## Peeks -/

theorem run_peek (lexer : Lexer) (files : FileAccess) :
    lexer.run files .peek = { answer := .text lexer.next.token.text, events := [], lexer } := by
  rw [run, peek_eq]

/-- Peeks among reading operations show the text of the token that is consumed next and leave no other
trace; the others consume the tokens of calls of `next`, in their order. -/
theorem reading_is_uniform (lexer : Lexer) (files : FileAccess) {script : List Operation}
    (reading : ∀ operation ∈ script, operation = .peek ∨ operation.reads = true) :
    (∀ before later, script = before ++ .peek :: later →
      let here := lexer.afterAll files before
      ∃ text, here.run files .peek = { answer := .text text, events := [], lexer := here } ∧
        ∀ token ∈ (here.consumedAll files later).head?, token.text = text) ∧
    lexer.trace files (script.filter (· ≠ .peek)) =
      (lexer.trace files script).filter (·.1 ≠ .peek) ∧
    (∀ before operation later, script = before ++ operation :: later → operation ≠ .peek →
      let here := lexer.afterAll files before
      operation.Makes (here.consumed operation) (here.run files operation).answer) ∧
    (let consumed := lexer.consumedAll files script
      let plain := List.replicate consumed.length Operation.next
      (lexer.runAll files plain).map Outcome.answer = consumed.map Answer.token ∧
      (lexer.runAll files plain).flatMap Outcome.events =
        (lexer.runAll files script).flatMap Outcome.events ∧
      lexer.afterAll files plain = lexer.afterAll files script) ∧
    ∀ limit, lexer.consumed (.tokens (some limit)) =
      Token.throughEnd ((lexer.nexts limit).map Reading.token) := by
  refine ⟨fun before later split => ?_, ?_, fun before operation later split notPeek => ?_,
    (lexer.nexts_script files reading).runAll_eq files, lexer.readings_eq_throughEnd⟩
  · intro here
    refine ⟨here.next.token.text, here.run_peek files, fun token member => ?_⟩
    have laterReads : ∀ operation ∈ later, operation = .peek ∨ operation.reads = true := by
      intro operation member
      apply reading
      rw [split]
      exact List.mem_append_right _ (List.mem_cons_of_mem _ member)
    rw [(here.nexts_script files laterReads).head_eq token member]
  · apply trace_filter
    intro lexer operation struck
    have isPeek : operation = .peek := by simpa using struck
    rw [isPeek, run_peek]
  · have member : operation ∈ script := by
      rw [split]
      exact List.mem_append_right _ (List.mem_cons_self ..)
    exact run_makes _ files ((reading operation member).resolve_left notPeek)

theorem reading_is_uniform_at_end :
    let loaded := ({ rules := .standard } : Lexer).withInput "lump" (Utf8.encode "a /*b*/ 12")
    let files : FileAccess := fun _ => .ok []
    let script : List Operation :=
      [.peek, .check "a", .peek, .peek, .tokens (some 5), .peek, .integer]
    (∀ operation ∈ script, operation = .peek ∨ operation.reads = true) ∧
      (loaded.consumedAll files script).map Token.text = ["a", "12", "", ""] ∧
      loaded.afterAll files [.next, .next, .next, .next] = loaded.afterAll files script := by
  intro loaded files script
  have reading : ∀ operation ∈ script, operation = .peek ∨ operation.reads = true := by decide
  have texts : (loaded.consumedAll files script).map Token.text = ["a", "12", "", ""] := by
    decide +kernel
  have count : (loaded.consumedAll files script).length = 4 := by
    rw [← List.length_map Token.text, texts]
    rfl
  have behind := (reading_is_uniform loaded files reading).2.2.2.1.2.2
  rw [count] at behind
  exact ⟨reading, texts, behind⟩

end Lexer

end ScriptLexer
