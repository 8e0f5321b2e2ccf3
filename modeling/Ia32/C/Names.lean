import Ia32.Abi
import Ia32.C.Scan
import Ia32.Reg

/-!
# Names of functions

Which names the program may use for labels, and which functions a source text
defines. The functions are found before compiling, so that a call can be told
from a call to the library before its function is seen.
-/

namespace Ia32.C

/-- The label of a function. -/
def functionLabel (name : String) : String :=
  if name = "main" then Abi.entryLabel else name

/-- What the labels of branches and loops start with; a number follows. -/
def controlStems : List String :=
  ["else_", "endif_", "loop_", "end_"]

/-- Whether a name is a stem followed by digits. -/
def isNumbered (stem name : List Char) : Bool :=
  stem.isPrefixOf name &&
    !(name.drop stem.length).isEmpty && (name.drop stem.length).all Char.isDigit

/-- Whether a name cannot be a label: the assembler reads it as a register, or
the compiler generates it. -/
def isReserved (name : String) : Bool :=
  name == Abi.entryLabel || (Reg.ofName? name.toList).isSome ||
    controlStems.any fun stem => isNumbered stem.toList name.toList

/-- The function whose definition starts with three tokens. -/
def definedBy? : TokenKind → TokenKind → TokenKind → Option String
  | .kwVoid, .ident name, .lparen => some name
  | .kwVoid, .kwMain, .lparen => some "main"
  | .kwInt, .kwMain, .lparen => some "main"
  | _, _, _ => none

/-- Adds a name that is not there yet. -/
def insertName (names : List String) (name : String) : List String :=
  if names.contains name then names else names ++ [name]

/-- Adds the functions that tokens define. -/
def collectFrom (names : List String) : List TokenKind → List String
  | a :: b :: c :: rest =>
      let names := match definedBy? a b c with
        | some name => insertName names name
        | none => names
      collectFrom names (b :: c :: rest)
  | _ => names

/-- The functions that a source text defines, in the order of their first
definitions. -/
def collectFunctions (scan : Scan) : List String :=
  collectFrom [] (scan.tokens.map Token.kind)

end Ia32.C
