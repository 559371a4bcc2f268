import ScriptLexer.Lexer.Operation

/-!
# Listing the tokens of a file

A command line names a file and the settings to read it with. The listing has one line for each token,
with the line it starts on, its span and its text, and a last line with their number.
-/

namespace ScriptLexer

namespace Listing

/-- What the arguments of a command line ask for. -/
structure Request where
  path : Option String := none
  rules : CommentRules := .standard
  delimiters : Option String := none
  debug : Bool := false
deriving DecidableEq

/-- Reads the arguments in order. The last one that is no option is the path, and an option that is
given again counts anew. -/
def Request.ofArguments (request : Request) : List String → Request
  | [] => request
  | ["--special"] => { request with delimiters := none }
  | "--special" :: text :: later => { request with delimiters := some text }.ofArguments later
  | "--no-c" :: later =>
    { request with rules := request.rules.set .cStyle false }.ofArguments later
  | "--hash" :: later =>
    { request with rules := request.rules.set .hash true }.ofArguments later
  | "--semicolon" :: later =>
    { request with rules := request.rules.set .semicolon true }.ofArguments later
  | "--echo" :: later => { request with debug := true }.ofArguments later
  | path :: later => { request with path := some path }.ofArguments later

/-- What running a command line comes to. -/
structure Report where
  exitCode : Nat
  output : String := ""
  complaint : String := ""
  events : List Event := []
deriving DecidableEq

def usage : String :=
  "usage: dump_tokens <file> [--no-c] [--hash] [--semicolon] [--special CHARS] [--echo]\n"

/-- Text moved to the right of a column. -/
def alignRight (width : Nat) (text : String) : String :=
  String.ofList (List.replicate (width - text.length) ' ') ++ text

/-- Text moved to the left of a column. -/
def alignLeft (width : Nat) (text : String) : String :=
  text ++ String.ofList (List.replicate (width - text.length) ' ')

/-- The line of a token. A quoted literal is listed with its quotes. -/
def line (token : Token) : String :=
  let marker := if token.quoted then "\"" else ""
  alignRight 5 (toString token.span.start.line) ++ "  " ++ alignLeft 24 token.span.text ++ "  " ++
    marker ++ token.text ++ marker ++ "\n"

/-- The lexer that a request asks for, before it has anything to read. -/
def Request.lexer (request : Request) : Lexer where
  rules := request.rules
  delimiters := (request.delimiters.map Delimiters.ofText).getD .standard
  debug := request.debug

def run (files : FileAccess) (arguments : List String) : Report :=
  let request := Request.ofArguments {} arguments
  match request.path with
  | none => { exitCode := 2, complaint := usage }
  | some path =>
    match request.lexer.load files (.file path .whole) path with
    | (.error error, events, _) =>
      { exitCode := 1, complaint := s!"Error: {error.message}\n", events }
    | (.ok (), events, lexer) =>
      let readings := lexer.readings lexer.remaining
      let tokens := (readings.map Reading.token).filter (!·.isEnd)
      { exitCode := 0
        output := String.join (tokens.map line) ++ s!"{tokens.length} tokens\n"
        events := events ++ readings.flatMap Reading.events }

example : line { text := "b", quoted := true, span := { stop := { offset := 3 } } } =
    "    1  line 1 (bytes 0..3)       \"b\"\n" := rfl
example : (Request.ofArguments {} ["a", "--special"]).delimiters = none := rfl

end Listing

end ScriptLexer
