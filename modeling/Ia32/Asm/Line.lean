import Ia32.Asm.Statement
import Ia32.Diagnostic

/-!
# Lines of assembly text

A line holds an optional label, an optional statement and an optional comment.
A part that cannot be read is reported and left out; the rest of the line
counts.
-/

namespace Ia32.Asm

/-- A line that has been read. -/
structure Line where
  /-- Number of the line, counted from one. -/
  number : Nat
  /-- The text as written. -/
  source : String
  label : Option String
  statement : Option Statement
  deriving DecidableEq, Repr

namespace Line

/-- The label in front of a line: the first word, if it ends in a colon, and what
follows it. -/
def splitLabel (code : List Char) : Option (List Char) × List Char :=
  let word := code.takeWhile (!Text.isBlank ·)
  match Text.dropLast? ':' word with
  | some name => (some name, Text.trim (code.drop word.length))
  | none => (none, code)

/-- The remark about a label that is no name. -/
def labelDiagnostics (number : Nat) : Option (List Char) → List Diagnostic
  | some name =>
      if isName name then []
      else [⟨.syntactic, number, "Invalid label: `" ++ String.ofList name ++ "`"⟩]
  | none => []

/-- Reads a line with its number. -/
def read (number : Nat) (source : List Char) : Checked (Line × List Diagnostic) := do
  let code := Text.trim (dropComment none source)
  let (name?, rest) := splitLabel code
  let label := (name?.filter isName).map String.ofList
  let complaints := labelDiagnostics number name?
  match ← (Statement.read rest).run with
  | .ok statement => return (⟨number, String.ofList source, label, statement⟩, complaints)
  | .error refusal =>
      return (⟨number, String.ofList source, label, none⟩,
        complaints ++ [⟨.syntactic, number, refusal.message⟩])

/-- Reads lines with consecutive numbers. -/
def readFrom (number : Nat) : List (List Char) → Checked (List Line × List Diagnostic)
  | [] => .ok ([], [])
  | source :: rest => do
      let (line, complaints) ← read number source
      let (lines, others) ← readFrom (number + 1) rest
      return (line :: lines, complaints ++ others)

/-- Reads all lines of a source text. -/
def readAll (source : String) : Checked (List Line × List Diagnostic) :=
  readFrom 1 (Text.lines source.toList)

end Line

end Ia32.Asm
