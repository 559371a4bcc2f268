import ScriptLexer.Proofs.Lexer.Consumption

/-!
# Loads

A load that fails might as well not have been tried, and one that succeeds leaves nothing of what was
before it but the settings.
-/

namespace ScriptLexer

namespace Operation

def failsToLoad (files : FileAccess) : Operation → Bool
  | .load source name => !(load source name).loads files
  | _ => false

/-- Whether the operation changes a setting. -/
def sets : Operation → Bool
  | .setDelimiters _ | .setDebug _ => true
  | _ => false

end Operation

namespace Lexer

/-! ## Settings -/

structure SameSettings (left right : Lexer) : Prop where
  rules : left.rules = right.rules
  delimiters : left.delimiters = right.delimiters
  debug : left.debug = right.debug

theorem SameSettings.refl (lexer : Lexer) : lexer.SameSettings lexer :=
  ⟨rfl, rfl, rfl⟩

theorem SameSettings.trans {left between right : Lexer} (first : left.SameSettings between)
    (second : between.SameSettings right) : left.SameSettings right where
  rules := first.rules.trans second.rules
  delimiters := first.delimiters.trans second.delimiters
  debug := first.debug.trans second.debug

theorem sameSettings_next (lexer : Lexer) : lexer.next.lexer.SameSettings lexer := by
  rw [lexer.scans_next.after_eq]
  exact ⟨rfl, rfl, rfl⟩

theorem Nexts.sameSettings {lexer after : Lexer} {tokens : List Token} {events : List Event}
    (nexts : Nexts lexer tokens events after) : after.SameSettings lexer := by
  induction nexts with
  | done => exact .refl _
  | @next lexer _ _ _ _ induction => exact induction.trans lexer.sameSettings_next

/-- A load takes nothing over from the lexer but its settings. -/
theorem SameSettings.withInput_eq {left right : Lexer} (same : left.SameSettings right)
    (name : String) (bytes : Bytes) : left.withInput name bytes = right.withInput name bytes := by
  rcases left with ⟨rules, delimiters, debug, _, _, _⟩
  rcases right with ⟨_, _, _, _, _, _⟩
  rcases same with ⟨rfl, rfl, rfl⟩
  rfl

/-! ## Loads -/

section

variable {lexer : Lexer} {files : FileAccess} {source : Source} {name : String}

theorem read_of_failed {error : LoadError}
    (failed : (lexer.run files (.load source name)).answer = .loaded (.error error)) :
    source.read files name = .error error := by
  cases read : source.read files name with
  | ok bytes =>
    rw [lexer.run_load_ok read] at failed
    cases failed
  | error other =>
    rw [lexer.run_load_error read] at failed
    cases failed
    rfl

theorem exists_read_of_loaded
    (loaded : (lexer.run files (.load source name)).answer = .loaded (.ok ())) :
    ∃ bytes, source.read files name = .ok bytes := by
  cases read : source.read files name with
  | ok bytes => exact ⟨bytes, rfl⟩
  | error error =>
    rw [lexer.run_load_error read] at loaded
    cases loaded

end

theorem run_of_failsToLoad {files : FileAccess} (lexer : Lexer) {operation : Operation}
    (fails : operation.failsToLoad files = true) :
    (lexer.run files operation).lexer = lexer := by
  cases operation with
  | load source name =>
    cases read : source.read files name with
    | ok bytes =>
      rw [Operation.failsToLoad, Operation.loads_load_iff.mpr ⟨bytes, read⟩] at fails
      cases fails
    | error error => rw [lexer.run_load_error read]
  | _ => cases fails

theorem sameSettings_run (lexer : Lexer) (files : FileAccess) {operation : Operation}
    (keeps : operation.sets = false) :
    (lexer.run files operation).lexer.SameSettings lexer := by
  cases operation with
  | setDelimiters | setDebug => cases keeps
  | load source name =>
    cases read : source.read files name with
    | ok bytes =>
      rw [lexer.run_load_ok read]
      exact ⟨rfl, rfl, rfl⟩
    | error error =>
      rw [lexer.run_load_error read]
      exact .refl lexer
  | peek => exact (lexer.nexts_run files (.inl rfl)).sameSettings
  | _ => exact (lexer.nexts_run files (.inr rfl)).sameSettings

theorem SameSettings.run {left right : Lexer} (same : left.SameSettings right)
    (files : FileAccess) {operation : Operation} (sets : operation.sets = true) :
    (left.run files operation).lexer.SameSettings (right.run files operation).lexer := by
  cases operation with
  | setDelimiters delimiters => exact ⟨same.rules, rfl, same.debug⟩
  | setDebug debug => exact ⟨same.rules, same.delimiters, rfl⟩
  | _ => cases sets

/-- The settings behind a script are those behind its settings alone. -/
theorem SameSettings.afterAll {left right : Lexer} (same : left.SameSettings right)
    (files : FileAccess) (script : List Operation) :
    (left.afterAll files script).SameSettings
      (right.afterAll files (script.filter Operation.sets)) := by
  induction script generalizing left right with
  | nil => exact same
  | cons operation later induction =>
    cases sets : operation.sets with
    | true =>
      rw [List.filter_cons_of_pos sets]
      exact induction (same.run files sets)
    | false =>
      rw [List.filter_cons_of_neg (Bool.eq_false_iff.mp sets)]
      exact induction ((left.sameSettings_run files sets).trans same)

/-- A load that fails changes nothing and is reported as a warning, so it can be struck from a script;
one that succeeds makes the lexer a new one with the same settings, so what else was done before it can
be struck. -/
theorem loads_are_all_or_nothing (lexer : Lexer) (files : FileAccess) (source : Source)
    (name : String) :
    let outcome := lexer.run files (.load source name)
    (∀ error, outcome.answer = .loaded (.error error) →
      outcome.lexer = lexer ∧
      outcome.events = [.loadFailed name error] ∧ outcome.events.map Event.level = [.warn] ∧
      ∀ laterFiles later, outcome.lexer.runAll laterFiles later = lexer.runAll laterFiles later) ∧
    (∀ script, lexer.trace files (script.filter (!·.failsToLoad files)) =
      (lexer.trace files script).filter (!·.1.failsToLoad files)) ∧
    (outcome.answer = .loaded (.ok ()) → ∃ bytes, source.read files name = .ok bytes ∧
      outcome.events = [.loaded name bytes.length] ∧ outcome.events.map Event.level = [.debug] ∧
      outcome.lexer = ({ rules := lexer.rules } : Lexer).afterAll files
        [.setDelimiters lexer.delimiters, .setDebug lexer.debug, .load (.owned bytes) name] ∧
      (∀ other otherFiles otherSource, lexer.SameSettings other →
        Source.read otherSource otherFiles name = .ok bytes → ∀ laterFiles later,
          outcome.lexer.runAll laterFiles later =
            (other.run otherFiles (.load otherSource name)).lexer.runAll laterFiles later) ∧
      ∀ before, lexer.afterAll files (before ++ [.load source name]) =
        lexer.afterAll files (before.filter Operation.sets ++ [.load source name])) := by
  intro outcome
  refine ⟨fun error failed => ?_, fun script => ?_, fun succeeded => ?_⟩
  · have outcome_eq : outcome = _ := lexer.run_load_error (read_of_failed failed)
    rw [outcome_eq]
    exact ⟨rfl, rfl, rfl, fun _ _ => rfl⟩
  · apply trace_filter
    intro here operation struck
    exact here.run_of_failsToLoad ((Bool.not_eq_false' ..).mp struck)
  · rcases exists_read_of_loaded succeeded with ⟨bytes, read⟩
    have outcome_eq : outcome = _ := lexer.run_load_ok read
    rw [outcome_eq]
    refine ⟨bytes, read, rfl, rfl, rfl, ?_, fun before => ?_⟩
    · intro other otherFiles otherSource same otherRead laterFiles later
      rw [other.run_load_ok otherRead, same.withInput_eq]
    · have same := (SameSettings.refl lexer).afterAll files before
      rw [afterAll_append, afterAll_append, afterAll_cons, afterAll_cons, run_load_ok _ read,
        run_load_ok _ read, same.withInput_eq]

/-- A reader that fails when a byte was read already, and a region behind what was read before. -/
theorem loads_are_all_or_nothing_broken :
    let lexer := (({ rules := .standard } : Lexer).withInput "lump" (Utf8.encode "a \"b")).next.lexer
    let files : FileAccess := fun _ => .ok []
    let broken := Operation.load (.reader [.data [0x61], .failure "broken"]) "pipe"
    let region := Operation.load (.text "a = b" { offset := 4 }) "text"
    (lexer.run files broken).answer = .loaded (.error (.unreadable "pipe" "broken")) ∧
      (lexer.run files broken).lexer = lexer ∧
      (lexer.run files region).answer = .loaded (.ok ()) ∧
      (lexer.run files region).events = [.loaded "text" 1] := by
  intro lexer files broken region
  have failed : (lexer.run files broken).answer =
      .loaded (.error (.unreadable "pipe" "broken")) := rfl
  have loaded : (lexer.run files region).answer = .loaded (.ok ()) := rfl
  have read : Source.read (.text "a = b" { offset := 4 }) files "text" = .ok [0x62] := rfl
  rcases (loads_are_all_or_nothing lexer files _ "text").2.2 loaded with ⟨bytes, same, events, -⟩
  rw [read] at same
  cases same
  exact ⟨failed, ((loads_are_all_or_nothing lexer files _ "pipe").1 _ failed).1, loaded, events⟩

end Lexer

end ScriptLexer
