import Ia32.Mnemonic
import Ia32.Text.Format

/-!
# Faults

The reasons why a running program stops without ending itself.
-/

namespace Ia32

/-- Why execution cannot go on. -/
inductive Fault where
  | unmapped (addr : UInt32)
  | truncatedInstruction (addr : UInt32)
  | unknownOpcode (addr : UInt32) (byte : UInt8)
  | unsupportedAddressing (addr : UInt32)
  | invalidOperands (addr : UInt32) (op : Mnemonic)
  | unhandledInterrupt (addr : UInt32) (vector : UInt8)
  | unknownSyscall (number : UInt32)
  | stepLimit (limit : Nat)
  deriving DecidableEq, Repr

namespace Fault

/-- An address as faults show it. -/
def address (addr : UInt32) : String :=
  "0x" ++ Text.hexLower 8 addr.toNat

/-- A byte as faults show it. -/
def byte (b : UInt8) : String :=
  "0x" ++ Text.hexLower 2 b.toNat

/-- The message of a fault. -/
def message : Fault → String
  | .unmapped addr => "Access to unmapped address " ++ address addr
  | .truncatedInstruction addr =>
      "Instruction at " ++ address addr ++ " runs off mapped memory"
  | .unknownOpcode addr b => "Unknown opcode " ++ byte b ++ " at " ++ address addr
  | .unsupportedAddressing addr => "Unsupported addressing mode at " ++ address addr
  | .invalidOperands addr op => "Invalid operands for `" ++ op.name ++ "` at " ++ address addr
  | .unhandledInterrupt addr v =>
      "Interrupt " ++ byte v ++ " at " ++ address addr ++ " has no handler"
  | .unknownSyscall n => "Unknown syscall " ++ toString n.toNat
  | .stepLimit n => "Step limit reached: " ++ toString n

/-- The exit status of a run that ends in a fault. -/
def exitCode : Fault → Nat
  | .stepLimit _ => 2
  | _ => 3

end Fault

end Ia32
