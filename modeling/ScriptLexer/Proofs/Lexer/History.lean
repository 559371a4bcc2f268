import ScriptLexer.Proofs.Lexer.Tokens

/-!
# What operations can make of a lexer

The lexers that operations can bring about, each with the tokens that were read since the last
successful load. There are many operations, but a lexer changes in three ways only: it is loaded, it
reads a token, or its settings are changed. An invariant is shown for these three.
-/

namespace ScriptLexer

/-- Whether the operation replaces the input. -/
def Operation.loads (files : FileAccess) : Operation → Bool
  | .load source name => (source.read files name).isOk
  | _ => false

/-- Whether the operation reads on in the input. -/
def Operation.reads : Operation → Bool
  | .next | .text | .check _ | .integer | .single | .double | .truth | .tokens _ => true
  | .load .. | .peek | .setDelimiters _ | .setDebug _ => false

theorem Operation.loads_load_iff {files : FileAccess} {source : Source} {name : String} :
    (Operation.load source name).loads files = true ↔
      ∃ bytes, source.read files name = .ok bytes := by
  cases read : source.read files name with
  | ok bytes => simp [Operation.loads, read, Except.isOk, Except.toBool]
  | error error => simp [Operation.loads, read, Except.isOk, Except.toBool]

namespace Lexer

/-- The tokens that an operation reads for good, the one at the end of the input included. -/
def consumed (lexer : Lexer) : Operation → List Token
  | .next | .text | .check _ | .integer | .single | .double | .truth => [lexer.next.token]
  | .tokens limit => (lexer.readings (limit.getD lexer.remaining)).map Reading.token
  | .load .. | .peek | .setDelimiters _ | .setDebug _ => []

/-- The tokens read since the last successful load, where `history` was read before the operation. -/
def historyAfter (lexer : Lexer) (files : FileAccess) (operation : Operation)
    (history : List Token) : List Token :=
  if operation.loads files then [] else history ++ lexer.consumed operation

/-- What files there are may change from one operation to the next. -/
inductive Reached : Lexer → List Token → Prop
  | new (rules : CommentRules) : Reached { rules } []
  | run {lexer : Lexer} {history : List Token} (files : FileAccess) (operation : Operation)
      (reached : Reached lexer history) :
      Reached (lexer.run files operation).lexer (lexer.historyAfter files operation history)

/-! ## The ways in which an operation changes a lexer -/

section

variable (lexer : Lexer) {files : FileAccess} {source : Source} {name : String}

theorem run_load_ok {bytes : Bytes} (loads : source.read files name = .ok bytes) :
    lexer.run files (.load source name) =
      { answer := .loaded (.ok ())
        events := [.loaded name bytes.length]
        lexer := lexer.withInput name bytes } := by
  simp only [run, load, loads]

theorem run_load_error {error : LoadError} (fails : source.read files name = .error error) :
    lexer.run files (.load source name) =
      { answer := .loaded (.error error), events := [.loadFailed name error], lexer } := by
  simp only [run, load, fails]

end

theorem run_of_loads {lexer : Lexer} {files : FileAccess} {operation : Operation}
    (loads : operation.loads files = true) :
    ∃ name bytes, (lexer.run files operation).lexer = lexer.withInput name bytes := by
  cases operation with
  | load source name =>
    rcases Operation.loads_load_iff.mp loads with ⟨bytes, read⟩
    exact ⟨name, bytes, by rw [lexer.run_load_ok read]⟩
  | _ => cases loads

theorem lexer_consumeAll_succ (lexer : Lexer) (limit : Nat) :
    (lexer.consumeAll (limit + 1)).lexer =
      if lexer.next.token.isEnd then lexer.next.lexer
      else (lexer.next.lexer.consumeAll limit).lexer := by
  unfold consumeAll
  rw [readings]
  split
  · simp
  · simp [List.getLast?_cons, Option.getD_map]

section

variable {motive : Lexer → List Token → Prop}

theorem readings_preserve
    (next : ∀ {lexer : Lexer} {history : List Token}, motive lexer history →
      motive lexer.next.lexer (history ++ [lexer.next.token]))
    {lexer : Lexer} {history : List Token} (holds : motive lexer history) (limit : Nat) :
    motive (lexer.consumeAll limit).lexer
      (history ++ (lexer.readings limit).map Reading.token) := by
  -- The first reading moves from the readings to the history, so the history is any.
  induction limit generalizing lexer history with
  | zero => simpa [consumeAll, readings] using holds
  | succ limit induction =>
    have behind := next holds
    rw [lexer_consumeAll_succ, readings]
    split
    · exact behind
    · simpa using induction behind

/-- What reading a token and changing the settings preserve, every operation preserves that does not
load. -/
theorem run_preserves
    (next : ∀ {lexer : Lexer} {history : List Token}, motive lexer history →
      motive lexer.next.lexer (history ++ [lexer.next.token]))
    (settings : ∀ {lexer : Lexer} {history : List Token} (delimiters : Delimiters) (debug : Bool),
      motive lexer history → motive { lexer with delimiters, debug } history)
    {lexer : Lexer} {history : List Token} (holds : motive lexer history) {files : FileAccess}
    {operation : Operation} (keeps : operation.loads files = false) :
    motive (lexer.run files operation).lexer (history ++ lexer.consumed operation) := by
  cases operation with
  | load source name =>
    cases read : source.read files name with
    | ok bytes =>
      rw [Operation.loads_load_iff.mpr ⟨bytes, read⟩] at keeps
      cases keeps
    | error error =>
      rw [lexer.run_load_error read, consumed, List.append_nil]
      exact holds
  | peek =>
    rw [run, peek_eq, consumed, List.append_nil]
    exact holds
  | tokens limit => exact readings_preserve next holds _
  | setDelimiters delimiters =>
    rw [consumed, List.append_nil]
    exact settings delimiters lexer.debug holds
  | setDebug debug =>
    rw [consumed, List.append_nil]
    exact settings lexer.delimiters debug holds
  | _ => exact next holds

end

/-! ## Invariants -/

theorem Reached.withInput {lexer : Lexer} {history : List Token} (reached : Reached lexer history)
    (name : String) (bytes : Bytes) : Reached (lexer.withInput name bytes) [] :=
  reached.run (fun _ => .ok []) (.load (.owned bytes) name)

theorem Reached.next {lexer : Lexer} {history : List Token} (reached : Reached lexer history) :
    Reached lexer.next.lexer (history ++ [lexer.next.token]) :=
  reached.run (fun _ => .ok []) .next

theorem Reached.settings {lexer : Lexer} {history : List Token} (reached : Reached lexer history)
    (delimiters : Delimiters) (debug : Bool) :
    Reached { lexer with delimiters, debug } history := by
  have changed := (reached.run (fun _ => .ok []) (.setDelimiters delimiters)).run
    (fun _ => .ok []) (.setDebug debug)
  simp only [historyAfter, Operation.loads, consumed, Bool.false_eq_true, if_false,
    List.append_nil] at changed
  exact changed

theorem Reached.invariant {motive : Lexer → List Token → Prop}
    (new : ∀ rules : CommentRules, motive { rules } [])
    (load : ∀ {lexer : Lexer} {history : List Token} (name : String) (bytes : Bytes),
      Reached lexer history → motive lexer history → motive (lexer.withInput name bytes) [])
    (next : ∀ {lexer : Lexer} {history : List Token}, Reached lexer history →
      motive lexer history → motive lexer.next.lexer (history ++ [lexer.next.token]))
    (settings : ∀ {lexer : Lexer} {history : List Token} (delimiters : Delimiters) (debug : Bool),
      Reached lexer history → motive lexer history →
        motive { lexer with delimiters, debug } history)
    {lexer : Lexer} {history : List Token} (reached : Reached lexer history) :
    motive lexer history := by
  induction reached with
  | new rules => exact new rules
  | @run lexer history files operation reached induction =>
    unfold historyAfter
    split
    · next loads =>
      rcases run_of_loads loads with ⟨name, bytes, after⟩
      rw [after]
      exact load name bytes reached induction
    · next keeps =>
      have preserved : Reached (lexer.run files operation).lexer
          (history ++ lexer.consumed operation) ∧
          motive (lexer.run files operation).lexer (history ++ lexer.consumed operation) :=
        run_preserves (motive := fun lexer history => Reached lexer history ∧ motive lexer history)
          (fun both => ⟨both.1.next, next both.1 both.2⟩)
          (fun delimiters debug both =>
            ⟨both.1.settings delimiters debug, settings delimiters debug both.1 both.2⟩)
          ⟨reached, induction⟩ (Bool.eq_false_iff.mpr keeps)
      exact preserved.2

theorem Reached.inBuffer {lexer : Lexer} {history : List Token}
    (reached : Reached lexer history) : lexer.cursor.InBuffer := by
  apply Reached.invariant (motive := fun lexer _ => lexer.cursor.InBuffer) _ _ _ _ reached
  · exact fun _ => Cursor.inBuffer_ofBytes []
  · exact fun _ bytes _ _ => Cursor.inBuffer_ofBytes bytes
  · exact fun _ holds => (scans_next _).inBuffer holds
  · exact fun _ _ _ holds => holds

end Lexer

end ScriptLexer
