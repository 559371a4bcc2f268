import ScriptLexer.Proofs.Lexer.History

/-!
# Scripts

What a script comes to as a whole: the lexer behind it, the tokens that it reads for good, and every
operation with its outcome. An operation that leaves each lexer as it was can be struck from a script,
and the other outcomes stay what they were.
-/

namespace ScriptLexer

namespace Lexer

def afterAll (lexer : Lexer) (files : FileAccess) (script : List Operation) : Lexer :=
  script.foldl (fun lexer operation => (lexer.run files operation).lexer) lexer

/-- The tokens that a script reads for good. -/
def consumedAll (lexer : Lexer) (files : FileAccess) : List Operation → List Token
  | [] => []
  | operation :: later =>
    lexer.consumed operation ++ (lexer.run files operation).lexer.consumedAll files later

def trace (lexer : Lexer) (files : FileAccess) (script : List Operation) :
    List (Operation × Outcome) :=
  script.zip (lexer.runAll files script)

/-- The readings of that many calls of `next`, at the end of the input and behind it too. -/
def nexts (lexer : Lexer) : (count : Nat) → List Reading
  | 0 => []
  | count + 1 => lexer.next :: lexer.next.lexer.nexts count

section

variable (lexer : Lexer) (files : FileAccess)

@[simp] theorem afterAll_cons (operation : Operation) (later : List Operation) :
    lexer.afterAll files (operation :: later) =
      (lexer.run files operation).lexer.afterAll files later :=
  rfl

theorem afterAll_append (before later : List Operation) :
    lexer.afterAll files (before ++ later) =
      (lexer.afterAll files before).afterAll files later :=
  List.foldl_append

@[simp] theorem trace_cons (operation : Operation) (later : List Operation) :
    lexer.trace files (operation :: later) =
      (operation, lexer.run files operation) ::
        (lexer.run files operation).lexer.trace files later :=
  rfl

end

/-- What reading a token and changing the settings preserve, a script preserves that does not load. -/
theorem script_preserves {motive : Lexer → List Token → Prop}
    (next : ∀ {lexer : Lexer} {history : List Token}, motive lexer history →
      motive lexer.next.lexer (history ++ [lexer.next.token]))
    (settings : ∀ {lexer : Lexer} {history : List Token} (delimiters : Delimiters) (debug : Bool),
      motive lexer history → motive { lexer with delimiters, debug } history)
    {lexer : Lexer} {history : List Token} (holds : motive lexer history) {files : FileAccess}
    {script : List Operation} (keeps : ∀ operation ∈ script, operation.loads files = false) :
    motive (lexer.afterAll files script) (history ++ lexer.consumedAll files script) := by
  induction script generalizing lexer history with
  | nil =>
    rw [consumedAll, List.append_nil]
    exact holds
  | cons operation later induction =>
    rw [List.forall_mem_cons] at keeps
    have behind := induction (run_preserves next settings holds keeps.1) keeps.2
    rw [List.append_assoc] at behind
    exact behind

/-- Striking operations that change no lexer from a script strikes no more than their own outcomes. -/
theorem trace_filter {files : FileAccess} {keeps : Operation → Bool}
    (unchanged : ∀ (lexer : Lexer) (operation : Operation), keeps operation = false →
      (lexer.run files operation).lexer = lexer)
    (lexer : Lexer) (script : List Operation) :
    lexer.trace files (script.filter keeps) =
      (lexer.trace files script).filter fun step => keeps step.1 := by
  induction script generalizing lexer with
  | nil => rfl
  | cons operation later induction =>
    cases kept : keeps operation with
    | true => simp [kept, induction]
    | false => simp [kept, induction, unchanged lexer operation kept]

end Lexer

end ScriptLexer
