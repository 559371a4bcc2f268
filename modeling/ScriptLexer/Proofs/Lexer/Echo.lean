import ScriptLexer.Proofs.Lexer.Scripts

/-!
# Debug mode

In debug mode a lexer reports the tokens that are read for good, each once and in their order. It does
nothing else: a script comes to the same without the operations that turn the mode on and off.
-/

namespace ScriptLexer

/-- Whether the operation turns debug mode on or off. -/
def Operation.setsDebug : Operation → Bool
  | .setDebug _ => true
  | _ => false

namespace Lexer

/-- Out of debug mode. -/
def quiet (lexer : Lexer) : Lexer :=
  { lexer with debug := false }

/-- The tokens that a script reads for good, each with the lexer that its operation was run on. -/
def readBy (lexer : Lexer) (files : FileAccess) : List Operation → List (Lexer × Token)
  | [] => []
  | operation :: later =>
    (lexer.consumed operation).map (lexer, ·) ++
      (lexer.run files operation).lexer.readBy files later

end Lexer

def Reading.quiet (reading : Reading) : Reading where
  token := reading.token
  events := []
  lexer := reading.lexer.quiet

/-- An outcome without all that debug mode makes of it. -/
def Outcome.quiet (outcome : Outcome) : Outcome where
  answer := outcome.answer
  events := outcome.events.filter (·.level ≠ .info)
  lexer := outcome.lexer.quiet

namespace Lexer

/-! ## What is reported -/

/-- The reports of tokens, if they are read in the mode and under the name of this lexer. -/
def reports (lexer : Lexer) (tokens : List Token) : List Event :=
  (tokens.filter fun token => lexer.debug && !token.isEnd).map fun token =>
    .tokenRead token.text lexer.name token.span.start.line token.quoted

theorem echo_eq_reports (lexer : Lexer) (token : Token) : lexer.echo token = lexer.reports [token] := by
  unfold echo reports
  rw [List.filter_cons, List.filter_nil]
  split <;> rfl

theorem reports_cons (lexer : Lexer) (token : Token) (later : List Token) :
    lexer.reports (token :: later) = lexer.reports [token] ++ lexer.reports later := by
  unfold reports
  rw [← List.map_append, ← List.filter_append, List.singleton_append]

/-- Reading a token changes neither the mode nor the name. -/
theorem reports_next (lexer : Lexer) (tokens : List Token) :
    lexer.next.lexer.reports tokens = lexer.reports tokens := by
  rw [lexer.scans_next.after_eq]
  rfl

theorem level_of_mem_reports {lexer : Lexer} {tokens : List Token} {event : Event}
    (member : event ∈ lexer.reports tokens) : event.level = .info := by
  rcases List.mem_map.mp member with ⟨token, -, rfl⟩
  rfl

theorem events_consumeAll (lexer : Lexer) (limit : Nat) :
    (lexer.consumeAll limit).events =
      lexer.reports ((lexer.readings limit).map Reading.token) := by
  induction limit generalizing lexer with
  | zero => rfl
  | succ limit induction =>
    have first : lexer.next.events = lexer.reports [lexer.next.token] :=
      lexer.echo_eq_reports lexer.next.token
    have later : (lexer.next.lexer.readings limit).flatMap Reading.events =
        lexer.reports ((lexer.next.lexer.readings limit).map Reading.token) :=
      (induction lexer.next.lexer).trans (lexer.reports_next _)
    unfold consumeAll
    rw [readings]
    split
    · exact (List.flatMap_singleton ..).trans first
    · rw [List.map_cons, reports_cons, ← first, ← later]
      rfl

/-- Only tokens that are read for good are reported, and a load says what was loaded or what failed. -/
theorem events_run (lexer : Lexer) (files : FileAccess) (operation : Operation) :
    (lexer.consumed operation = [] ∧
        ∃ event, (lexer.run files operation).events = [event] ∧ event.level ≠ .info) ∨
      (lexer.run files operation).events = lexer.reports (lexer.consumed operation) := by
  cases operation with
  | load source name =>
    left
    cases read : source.read files name with
    | ok bytes => exact ⟨rfl, .loaded name bytes.length, by rw [lexer.run_load_ok read], nofun⟩
    | error error => exact ⟨rfl, .loadFailed name error, by rw [lexer.run_load_error read], nofun⟩
  | tokens limit => exact .inr (lexer.events_consumeAll _)
  | peek | setDelimiters | setDebug => exact .inr rfl
  | _ => exact .inr (lexer.echo_eq_reports _)

theorem events_run_info (lexer : Lexer) (files : FileAccess) (operation : Operation) :
    (lexer.run files operation).events.filter (·.level = .info) =
      lexer.reports (lexer.consumed operation) := by
  rcases lexer.events_run files operation with ⟨none, event, events, level⟩ | events
  · rw [none, events]
    simp [reports, level]
  · rw [events, List.filter_eq_self]
    exact fun event member => decide_eq_true (level_of_mem_reports member)

/-! ## Out of debug mode -/

theorem scan_quiet (lexer : Lexer) : lexer.quiet.scan = (lexer.scan.1, lexer.scan.2.quiet) := by
  have skipGap : lexer.quiet.skipGap = lexer.skipGap := rfl
  unfold scan
  rw [skipGap]
  dsimp only
  split <;> rfl

theorem next_quiet (lexer : Lexer) : lexer.quiet.next = lexer.next.quiet := by
  have noEcho (token : Token) : lexer.quiet.echo token = [] := rfl
  unfold next
  rw [scan_quiet]
  dsimp only
  rw [noEcho]
  rfl

theorem readings_quiet (lexer : Lexer) (limit : Nat) :
    lexer.quiet.readings limit = (lexer.readings limit).map Reading.quiet := by
  induction limit generalizing lexer with
  | zero => rfl
  | succ limit induction =>
    have later : lexer.next.quiet.lexer.readings limit =
        (lexer.next.lexer.readings limit).map Reading.quiet := induction lexer.next.lexer
    have token : lexer.next.quiet.token = lexer.next.token := rfl
    rw [readings, readings, next_quiet]
    rw [token, later]
    split <;> rfl

theorem filter_reports (lexer : Lexer) (tokens : List Token) :
    (lexer.reports tokens).filter (·.level ≠ .info) = [] := by
  rw [List.filter_eq_nil_iff]
  intro event member
  simp [level_of_mem_reports member]

theorem consume_quiet (lexer : Lexer) (answer : Token → Answer) :
    lexer.quiet.consume answer = (lexer.consume answer).quiet := by
  have events : lexer.next.events.filter (·.level ≠ .info) = [] := by
    have reported : lexer.next.events = lexer.reports [lexer.next.token] :=
      lexer.echo_eq_reports lexer.next.token
    rw [reported, filter_reports]
  unfold consume
  rw [next_quiet, Outcome.quiet]
  dsimp only
  rw [events]
  rfl

theorem consumeAll_quiet (lexer : Lexer) (limit : Nat) :
    lexer.quiet.consumeAll limit = (lexer.consumeAll limit).quiet := by
  have reported : (lexer.readings limit).flatMap Reading.events =
      lexer.reports ((lexer.readings limit).map Reading.token) := lexer.events_consumeAll limit
  have tokens : ((lexer.readings limit).map Reading.quiet).map Reading.token =
      (lexer.readings limit).map Reading.token := by
    rw [List.map_map]
    rfl
  have events : ((lexer.readings limit).map Reading.quiet).flatMap Reading.events = [] := by
    simp [Reading.quiet]
  have last : (((lexer.readings limit).map Reading.quiet).getLast?.map Reading.lexer).getD
      lexer.quiet = (((lexer.readings limit).getLast?.map Reading.lexer).getD lexer).quiet := by
    rw [List.getLast?_map]
    cases (lexer.readings limit).getLast? <;> rfl
  unfold consumeAll Outcome.quiet
  rw [readings_quiet]
  dsimp only
  rw [tokens, events, last, reported, filter_reports]

/-- An operation but for those that set the mode comes to the same out of debug mode. -/
theorem run_quiet (lexer : Lexer) (files : FileAccess) {operation : Operation}
    (keeps : operation.setsDebug = false) :
    lexer.quiet.run files operation = (lexer.run files operation).quiet := by
  cases operation with
  | load source name =>
    cases read : source.read files name with
    | ok bytes =>
      rw [run_load_ok _ read, run_load_ok _ read]
      rfl
    | error error =>
      rw [run_load_error _ read, run_load_error _ read]
      rfl
  | peek =>
    rw [run, run, peek_eq, peek_eq, next_quiet]
    rfl
  | tokens limit => exact lexer.consumeAll_quiet _
  | setDelimiters => rfl
  | setDebug => cases keeps
  | _ =>
    unfold run
    exact lexer.consume_quiet _

/-! ## Scripts -/

theorem quiet_of_setsDebug (lexer : Lexer) (files : FileAccess) {operation : Operation}
    (sets : operation.setsDebug = true) : (lexer.run files operation).lexer.quiet = lexer.quiet := by
  cases operation with
  | setDebug debug => rfl
  | _ => cases sets

theorem trace_plain {lexer other : Lexer} (same : lexer.quiet = other.quiet) (files : FileAccess)
    (script : List Operation) :
    (lexer.trace files (script.filter (!·.setsDebug))).map (Prod.map id Outcome.quiet) =
        ((other.trace files script).filter (!·.1.setsDebug)).map (Prod.map id Outcome.quiet) ∧
      (lexer.afterAll files (script.filter (!·.setsDebug))).quiet =
        (other.afterAll files script).quiet := by
  induction script generalizing lexer other with
  | nil => exact ⟨rfl, same⟩
  | cons operation later induction =>
    cases sets : operation.setsDebug with
    | true =>
      have after := induction (same.trans (other.quiet_of_setsDebug files sets).symm)
      simpa [sets] using after
    | false =>
      have outcome : (lexer.run files operation).quiet = (other.run files operation).quiet := by
        rw [← run_quiet _ _ sets, ← run_quiet _ _ sets, same]
      have after := induction (congrArg Outcome.lexer outcome)
      simpa [sets, outcome] using after

theorem events_script (lexer : Lexer) (files : FileAccess) (script : List Operation) :
    ((lexer.runAll files script).flatMap Outcome.events).filter (·.level = .info) =
      ((lexer.readBy files script).filter fun (here, token) => here.debug && !token.isEnd).map
        fun (here, token) =>
          .tokenRead token.text here.name token.span.start.line token.quoted := by
  induction script generalizing lexer with
  | nil => rfl
  | cons operation later induction =>
    rw [runAll, readBy, List.flatMap_cons, List.filter_append, events_run_info, induction,
      List.filter_append, List.map_append, List.filter_map, List.map_map]
    rfl

/-- Without the operations that set debug mode a script has the same outcomes but for the mode and its
reports. With them, what is reported is every token that is read for good in debug mode, in the order
of reading and under the name of what it was read from. -/
theorem echo_observes_only (lexer : Lexer) (files : FileAccess) (script : List Operation) :
    let plain := script.filter (!·.setsDebug)
    (lexer.trace files plain).map (Prod.map id Outcome.quiet) =
        ((lexer.trace files script).filter (!·.1.setsDebug)).map (Prod.map id Outcome.quiet) ∧
      (lexer.afterAll files plain).quiet = (lexer.afterAll files script).quiet ∧
      ((lexer.runAll files script).flatMap Outcome.events).filter (·.level = .info) =
        ((lexer.readBy files script).filter fun (here, token) => here.debug && !token.isEnd).map
          fun (here, token) =>
            .tokenRead token.text here.name token.span.start.line token.quoted := by
  intro plain
  have same := trace_plain (rfl : lexer.quiet = lexer.quiet) files script
  exact ⟨same.1, same.2, lexer.events_script files script⟩

/-! An empty literal is reported, the end of the input and a peek are not. -/

example :
    let lexer := { (default : Lexer) with debug := true }.withInput "lump" (Utf8.encode "\"\" a")
    (lexer.runAll (fun _ => .ok []) [.peek, .tokens none, .next]).flatMap Outcome.events =
      [.tokenRead "" "lump" 1 true, .tokenRead "a" "lump" 1 false] := by
  decide +kernel

end Lexer

end ScriptLexer
