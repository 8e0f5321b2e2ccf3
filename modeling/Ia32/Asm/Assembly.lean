import Ia32.Abi
import Ia32.Asm.Labels
import Ia32.Diagnostic

/-!
# Assembled programs

The bytes of both sections with the labels, the remarks about the source and a
listing that shows what became of every line.
-/

namespace Ia32.Asm

/-- A line of source with the bytes it stands for. A line without an address
emits nothing. -/
structure Listed where
  line : Nat
  address : Option UInt32
  bytes : Bytes
  source : String
  deriving DecidableEq, Repr

/-- An assembled program. -/
structure Assembly where
  code : Bytes
  data : Bytes
  labels : Labels
  /-- Whether an instruction refers to an external symbol. -/
  needsLibrary : Bool
  diagnostics : List Diagnostic
  listing : List Listed
  layout : Abi.Layout
  /-- Distance of the entry from the start of the code. -/
  entry : Nat
  deriving DecidableEq, Repr

namespace Assembly

/-- Address of the code. -/
def textBase (asm : Assembly) : Checked UInt32 :=
  asm.layout.textBase

/-- Address of the data. -/
def dataBase (asm : Assembly) : Checked UInt32 :=
  asm.layout.dataBase asm.code.length

/-- Address of the entry. -/
def entryAddress (asm : Assembly) : Checked UInt32 := do
  Word.offset (← asm.textBase) asm.entry

/-- Whether the source has errors. -/
def hasError (asm : Assembly) : Bool :=
  Diagnostic.anyError asm.diagnostics

end Assembly

end Ia32.Asm
