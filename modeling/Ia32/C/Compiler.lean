import Ia32.C.Code
import Ia32.C.Complaint
import Ia32.C.Cursor
import Ia32.C.Names
import Ia32.SymbolTable

/-!
# The state of the compiler

The compiler reads tokens and generates code in one pass. Its actions may stop
with the diagnostic of a broken construct; the state at that point is kept, so
that the caller can report the diagnostic and go on behind the construct.
-/

namespace Ia32.C

/-- The capacities of the compiler. -/
structure Limits where
  /-- Variables of a function. -/
  symbols : Nat := 256
  functions : Nat := 64
  deriving DecidableEq, Repr

/-- The settings of the compiler. -/
structure Options where
  /-- If present, calls to functions outside the program must be listed here. -/
  externs : Option SymbolTable := none
  limits : Limits := {}
  deriving DecidableEq, Repr

/-- The state of the compiler. -/
structure Compiler where
  cursor : Cursor
  options : Options
  /-- Functions that the source defines anywhere. -/
  functions : List String
  /-- Functions defined so far. -/
  defined : List String := []
  locals : Locals
  /-- String constants with their texts, in the order of their declarations. -/
  strings : List (String × String) := []
  /-- Branches compiled so far. -/
  ifCount : Nat := 0
  /-- Loops compiled so far. -/
  whileCount : Nat := 0

/-- The compiler at the start of scanned text. -/
def Compiler.ofScan (scan : Scan) (options : Options) (functions : List String) : Compiler where
  cursor := .ofScan scan
  options := options
  functions := functions
  locals := { capacity := options.limits.symbols }

/-- Whether a name is a string constant. -/
def Compiler.isString (c : Compiler) (name : String) : Bool :=
  c.strings.any fun (other, _) => other == name

/-- Actions of the compiler. -/
abbrev CompileM := EStateM Diagnostic Compiler

namespace CompileM

/-- The kind of the current token. -/
def peek : CompileM TokenKind := do
  return (← get).cursor.kind

/-- The line of the current token. -/
def line : CompileM Nat := do
  return (← get).cursor.line

/-- Tokens in front of the end of the text. -/
def remaining : CompileM Nat := do
  return (← get).cursor.remaining

/-- Moves to the next token. -/
def advance : CompileM Unit :=
  modify fun c => { c with cursor := c.cursor.next }

/-- Adds a remark. -/
def report (d : Diagnostic) : CompileM Unit :=
  modify fun c => { c with cursor := c.cursor.report d }

/-- Adds a complaint about the meaning of the program. -/
def complain (line : Nat) (complaint : Complaint) : CompileM Unit :=
  report ⟨.semantic, line, complaint.message⟩

/-- Stops because something else was expected here. -/
def unexpected {α : Type} (what : String) : CompileM α := do
  throw ((← get).cursor.expected what)

/-- Moves on if the current token is of a kind. -/
def accept (kind : TokenKind) : CompileM Bool := do
  if (← peek) = kind then
    advance
    return true
  else return false

/-- Moves on behind a token of a kind, which must be here. -/
def expect (kind : TokenKind) (what : String) : CompileM Unit := do
  if (← peek) = kind then advance else unexpected what

/-- Moves on behind a number, which must be here. -/
def expectNumber (what : String) : CompileM Nat := do
  match ← peek with
  | .number value =>
      advance
      return value
  | _ => unexpected what

/-- Moves on behind an identifier, which must be here. -/
def expectIdent : CompileM String := do
  match ← peek with
  | .ident name =>
      advance
      return name
  | _ => unexpected "identifier"

/-- Uses the table of variables. -/
def withLocals {α : Type} (use : Locals → Locals × α) : CompileM α :=
  modifyGet fun c =>
    let (locals, result) := use c.locals
    (result, { c with locals := locals })

/-- Skips the rest of a broken statement. -/
def synchronize : CompileM Unit :=
  modify fun c => { c with cursor := c.cursor.synchronize }

end CompileM

end Ia32.C
