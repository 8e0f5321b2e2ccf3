import Ia32.Text.Format
import Ia32.Text.Lines
import Ia32.Text.Style

/-!
# Diagnostics

Remarks about a source text that do not stop the tool. All but warnings make
the run fail in the end.
-/

namespace Ia32

/-- The kinds of remarks. -/
inductive Severity where
  | lexical
  | syntactic
  | semantic
  | warning
  deriving DecidableEq, Repr

/-- The written name of a kind of remark. -/
def Severity.name : Severity → String
  | .lexical => "lexical"
  | .syntactic => "syntax"
  | .semantic => "semantic"
  | .warning => "warning"

/-- A remark about a line of the source, counted from one. -/
structure Diagnostic where
  severity : Severity
  line : Nat
  message : String
  deriving DecidableEq, Repr

namespace Diagnostic

/-- Whether the remark makes the run fail. -/
def isError (d : Diagnostic) : Bool :=
  d.severity != .warning

/-- The remark on one line. -/
def text (d : Diagnostic) : String :=
  "line " ++ toString d.line ++ ": " ++ d.severity.name ++ ": " ++ d.message

/-- The first line of the printed remark. -/
def headline (d : Diagnostic) : String :=
  match d.severity with
  | .warning => Text.paint [.yellow, .bold] "warn" ++ ": " ++ d.message
  | severity => Text.paint [.red, .bold] "error" ++ "[" ++ severity.name ++ "]: " ++ d.message

/-- The printed remark: its headline, the place, and the line of source. -/
def report (d : Diagnostic) (file source : String) : String :=
  let number := toString d.line
  d.headline ++ "\n" ++
    "     " ++ Text.paint [.blue] "-->" ++ " " ++
      Text.paint [.underline] (file ++ ":" ++ number) ++ "\n" ++
    "      " ++ Text.paint [.blue] "|" ++ "\n" ++
    " " ++ Text.paint [.blue] (Text.padLeft ' ' 4 number ++ " |") ++ " " ++
      Text.lineAt source d.line ++ "\n" ++
    "      " ++ Text.paint [.blue] "|" ++ "\n"

/-- Whether a list of remarks makes the run fail. -/
def anyError (ds : List Diagnostic) : Bool :=
  ds.any isError

/-- The printed remarks, one after another. -/
def reports (ds : List Diagnostic) (file source : String) : String :=
  String.join (ds.map fun d => d.report file source)

end Diagnostic

end Ia32
