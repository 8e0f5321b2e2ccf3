import Ia32.Text.Blank

/-!
# Operations

The names of the machine's operations with the facts that their encodings
share: how many operands they take, the condition code of a jump, and the
opcodes of the arithmetic group.
-/

namespace Ia32

/-- An operation of the machine. -/
inductive Mnemonic where
  | mov
  | add
  | sub
  | cmp
  | jmp
  | je
  | jne
  | jl
  | jle
  | jg
  | jge
  | call
  | int
  | push
  | pop
  | pusha
  | popa
  | ret
  deriving DecidableEq, Repr

/-- Opcodes of an operation of the arithmetic group. -/
structure AluCode where
  /-- Opcode that stores into the register-or-memory operand. -/
  toPlace : UInt8
  /-- Opcode that stores into the register operand. -/
  toReg : UInt8
  /-- Field that selects the operation when the source is an immediate. -/
  field : Nat
  deriving DecidableEq, Repr

namespace Mnemonic

/-- Every operation. -/
def all : List Mnemonic :=
  [.mov, .add, .sub, .cmp, .jmp, .je, .jne, .jl, .jle, .jg, .jge, .call, .int, .push, .pop,
    .pusha, .popa, .ret]

/-- The written name of an operation. -/
def name : Mnemonic → String
  | .mov => "mov"
  | .add => "add"
  | .sub => "sub"
  | .cmp => "cmp"
  | .jmp => "jmp"
  | .je => "je"
  | .jne => "jne"
  | .jl => "jl"
  | .jle => "jle"
  | .jg => "jg"
  | .jge => "jge"
  | .call => "call"
  | .int => "int"
  | .push => "push"
  | .pop => "pop"
  | .pusha => "pusha"
  | .popa => "popa"
  | .ret => "ret"

/-- Reads the name of an operation in any letter case. -/
def ofName? (s : List Char) : Option Mnemonic :=
  all.find? fun op => op.name.toList == Text.lower s

/-- The complaint about a text that names no operation. -/
def unknownName (s : String) : String :=
  "Undefined Op: " ++ s

/-- Number of operands. -/
def arity : Mnemonic → Nat
  | .mov | .add | .sub | .cmp => 2
  | .pusha | .popa | .ret => 0
  | _ => 1

/-- Second opcode byte of a conditional jump. -/
def condition : Mnemonic → Option UInt8
  | .je => some 0x84
  | .jne => some 0x85
  | .jl => some 0x8C
  | .jge => some 0x8D
  | .jle => some 0x8E
  | .jg => some 0x8F
  | _ => none

/-- The conditional jump with a given second opcode byte. -/
def ofCondition? (byte : UInt8) : Option Mnemonic :=
  all.find? fun op => op.condition == some byte

/-- Whether the operand is a place in the code. -/
def isBranch (op : Mnemonic) : Bool :=
  op == .jmp || op == .call || op.condition.isSome

/-- Opcodes of the arithmetic group. -/
def alu : Mnemonic → Option AluCode
  | .add => some ⟨0x01, 0x03, 0⟩
  | .sub => some ⟨0x29, 0x2B, 5⟩
  | .cmp => some ⟨0x39, 0x3B, 7⟩
  | _ => none

end Mnemonic

end Ia32
