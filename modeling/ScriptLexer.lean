import ScriptLexer.CommentRules.Json
import ScriptLexer.Delimiters.Json
import ScriptLexer.Main
import ScriptLexer.Proofs.CommentRules.Members
import ScriptLexer.Proofs.Cursor.Bounds
import ScriptLexer.Proofs.Cursor.Comments
import ScriptLexer.Proofs.Cursor.Runs
import ScriptLexer.Proofs.Delimiters.Canonical
import ScriptLexer.Proofs.Lexer.Characters
import ScriptLexer.Proofs.Lexer.Concatenation
import ScriptLexer.Proofs.Lexer.Echo
import ScriptLexer.Proofs.Lexer.LastToken
import ScriptLexer.Proofs.Lexer.Layout
import ScriptLexer.Proofs.Lexer.LineEnds
import ScriptLexer.Proofs.Lexer.Progress
import ScriptLexer.Proofs.Lexer.Repair
import ScriptLexer.Proofs.Lexer.Settings
import ScriptLexer.Proofs.Machine.Numbers
import ScriptLexer.Proofs.Source.Agreement
import ScriptLexer.Proofs.Value.NotANumber
import ScriptLexer.Proofs.Value.Truth
import ScriptLexer.Source.Directory
