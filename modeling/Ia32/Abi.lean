import Ia32.Reg
import Ia32.Word

/-!
# Conventions of the platform

What compiled programs, the assembler and the loader agree on: the roles of
registers, the system calls, and where the parts of a program are placed.
-/

namespace Ia32.Abi

/-- Bytes in a machine word. -/
def wordSize : Nat := 4

/-- Bytes in a page of memory. -/
def pageSize : Nat := 4096

/-- The register in which sums are formed. -/
def accumulator : Reg := .eax

/-- The register that points to the frame of the running function. -/
def frame : Reg := .ebp

/-- The register that holds the pointer of an indirect store. -/
def scratch : Reg := .edx

/-- The register that holds the number of a system call, and its result. -/
def syscallNumber : Reg := .eax

/-- The registers that hold the arguments of a system call, in order. -/
def syscallArguments : List Reg := [.ebx, .ecx]

/-- The registers that a caller saves around a call to the library. -/
def callerSaved : List Reg := [.eax, .ecx, .edx]

/-- The most arguments of a call to the library. -/
def maxCallArguments : Nat := 6

/-- The interrupt that enters the system. -/
def syscallVector : Nat := 0x80

/-- System call that ends the process. -/
def sysExit : Nat := 1

/-- System call that writes bytes to the output. -/
def sysWrite : Nat := 4

/-- System call that asks for the process number. -/
def sysGetpid : Nat := 20

/-- The label at which programs start. -/
def entryLabel : String := "_start"

/-- Clears the bits of `align - 1` in `value + align - 1`: for a power of two
this is the smallest multiple of `align` that is not below `value`. The sum with
`align` itself must stay in range. -/
def alignUp (value align : Nat) : Checked Nat :=
  if align ≤ 1 then .ok value
  else if value + align < 4294967296 then
    let top := value + align - 1
    .ok (top - (top &&& (align - 1)))
  else .error .overflow

/-- The place of a program in memory: a header page, then the code, then, on
the next page boundary, the data. -/
structure Layout where
  base : UInt32 := 0x400000
  deriving DecidableEq, Repr

namespace Layout

/-- Address of the code. -/
def textBase (layout : Layout) : Checked UInt32 :=
  Word.offset layout.base pageSize

/-- Address of the data behind code of the given length. -/
def dataBase (layout : Layout) (codeLength : Nat) : Checked UInt32 := do
  let text ← layout.textBase
  Word.offset text (← alignUp codeLength pageSize)

end Layout

end Ia32.Abi
