import Ia32.Asm.Error
import Ia32.Command.Arguments
import Ia32.Command.Config
import Ia32.Command.Script
import Ia32.Image.Reader
import Ia32.Text.Style

/-!
# Tools

What the three commands share: the conditions that end them early, and the
files that they read.
-/

namespace Ia32.Command

/-- Why a command ends early. -/
inductive Failure where
  | overflow
  | file (e : FileError)
  | table (e : SymbolTable.RecordError)
  | tableText
  | traceText
  | asm (e : Asm.Error)
  | load (e : LoadError)
  | fault (f : Fault)
  deriving DecidableEq, Repr

namespace Failure

/-- The message of a failure. -/
def message : Failure → String
  | .overflow => "Address out of range"
  | .file e => "IO error: " ++ e.message
  | .table e => e.message
  | .tableText => "Invalid symbol table: not a mapping from names to addresses"
  | .traceText => "Invalid trace config: not a mapping from addresses to trace points"
  | .asm e => e.message
  | .load e => e.message
  | .fault f => f.message

/-- The exit status of a failure. -/
def exitCode : Failure → Nat
  | .overflow | .file _ | .table _ | .tableText | .traceText => 4
  | .asm e => e.exitCode
  | .load _ => 3
  | .fault f => f.exitCode

end Failure

/-- Scripts that may end early. -/
abbrev Tool := ExceptT Failure Script

namespace Tool

/-- Prints text. -/
def print (text : String) : Tool Unit :=
  ExceptT.mk (.print text (.done (.ok ())))

/-- Prints a line unless the command is quiet. -/
def step (quiet : Bool) (line : String) : Tool Unit :=
  if quiet then return else print (line ++ "\n")

/-- The contents of a file. -/
def readFile (path : String) : Tool Bytes :=
  ExceptT.mk (.read path fun result =>
    match result with
    | .ok contents => .done (.ok contents)
    | .error e => .done (.error (.file e)))

/-- The contents of a text file. -/
def readText (path : String) : Tool String := do
  match Text.ofUtf8? (← readFile path) with
  | some text => return text
  | none => throw (.file .notText)

/-- Replaces the contents of a file. -/
def writeFile (path : String) (contents : Bytes) : Tool Unit :=
  ExceptT.mk (.write path contents fun result =>
    match result with
    | .ok () => .done (.ok ())
    | .error e => .done (.error (.file e)))

/-- A bounded sum as a step of a command. -/
def ofChecked {α : Type} : Checked α → Tool α
  | .ok a => return a
  | .error .overflow => throw .overflow

/-- A step of the assembler as a step of a command. -/
def ofAsm {α : Type} : Except Asm.Error α → Tool α
  | .ok a => return a
  | .error .overflow => throw .overflow
  | .error e => throw (.asm e)

/-- The letters behind the last point of a file name, unless the name starts with
that point. -/
def extension? (path : String) : Option String :=
  let name := (path.splitOn "/").getLastD ""
  match name.splitOn "." with
  | [] | [_] => none
  | ["", _] => none
  | pieces => pieces.getLast?

/-- Reads a symbol table: text in files for people, records in all others. -/
def readTable (path : String) : Tool SymbolTable := do
  if extension? path = some "yaml" ∨ extension? path = some "yml" then
    match SymbolTable.ofYaml? (← readText path) with
    | some table => return table
    | none => throw .tableText
  else
    match SymbolTable.ofBytes (← readFile path) with
    | .ok table => return table
    | .error e => throw (.table e)

/-- The exit status of a command. A failure is printed; an overflow leaves no
status. -/
def status (tool : Tool Int) : Script (Checked Int) := do
  match ← tool.run with
  | .ok status => return .ok status
  | .error .overflow => return .error .overflow
  | .error failure =>
      .print (Text.paint [.red, .bold] "error" ++ ": " ++ failure.message ++ "\n")
        (.done (.ok failure.exitCode))

end Tool

end Ia32.Command
