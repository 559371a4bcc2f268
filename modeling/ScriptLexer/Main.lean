import ScriptLexer.Listing

/-!
# The command line

Lists the tokens of the file that the arguments name. Only this module touches the outside world.
-/

namespace ScriptLexer

/-- The contents of a file, or the words of the system for why there are none. -/
def readFile (path : String) : IO (Except String Bytes) := do
  try
    return .ok (← IO.FS.readBinFile path).data.toList
  catch error =>
    return .error (toString error)

end ScriptLexer

open ScriptLexer in
def main (arguments : List String) : IO UInt32 := do
  let contents ← match (Listing.Request.ofArguments {} arguments).path with
    | some path => readFile path
    | none => pure (.error "")
  let report := Listing.run (fun _ => contents) arguments
  for event in report.events do
    IO.eprintln event.message
  IO.print report.output
  IO.eprint report.complaint
  return report.exitCode.toUInt32
