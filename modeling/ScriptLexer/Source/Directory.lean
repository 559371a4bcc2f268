import ScriptLexer.Source

/-!
# A directory of files

Paths are looked up in one directory that holds nothing but regular files. A path is a list of parts
between slashes; empty parts and `.` stay where they are, and no part leads out of a file.

A path that leads to the directory itself opens, but cannot be read. Here it is refused for that before
its region is looked at. On a file system the region is first held against the size that the system
reports for it, and an offset behind that size is the error instead.
-/

namespace ScriptLexer

structure Directory where
  files : List (String × Bytes)
deriving DecidableEq

namespace Directory

/-- Why a path leads to no file. -/
inductive Fault where
  | missing
  | notADirectory
  | isDirectory
deriving DecidableEq

/-- The words of the operating system. -/
def Fault.reason : Fault → String
  | .missing => "No such file or directory (os error 2)"
  | .notADirectory => "Not a directory (os error 20)"
  | .isDirectory => "Is a directory (os error 21)"

/-- The contents of the file that the parts of a path lead to. -/
def walk (directory : Directory) : List String → Except Fault Bytes
  | [] => .error .isDirectory
  | part :: rest =>
    if part = "" ∨ part = "." then directory.walk rest
    else match directory.files.lookup part with
      | none => .error .missing
      | some bytes => if rest.isEmpty then .ok bytes else .error .notADirectory

/-- An empty path leads nowhere, and one that starts at the root leads outside of the directory. -/
def find (directory : Directory) (path : String) : Except Fault Bytes :=
  if path.isEmpty || path.toList.head? == some '/' then .error .missing
  else directory.walk ((path.toList.splitOn '/').map String.ofList)

def access (directory : Directory) : FileAccess :=
  fun path => (directory.find path).mapError Fault.reason

example : ({ files := [("a", [1])] } : Directory).find "./a" = .ok [1] := rfl
example : ({ files := [("a", [1])] } : Directory).find "a/" = .error .notADirectory := rfl
example : ({ files := [("a", [1])] } : Directory).find "" = .error .missing := rfl

end Directory

end ScriptLexer
