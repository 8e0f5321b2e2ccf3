import Ia32.Machine.Memory
import Ia32.Instruction

/-!
# Machine states

A machine is one process: registers, flags, memory, what it has written, and
whether it has ended.
-/

namespace Ia32

/-- The contents of the general registers. -/
structure Registers where
  eax : UInt32 := 0
  ecx : UInt32 := 0
  edx : UInt32 := 0
  ebx : UInt32 := 0
  esp : UInt32 := 0
  ebp : UInt32 := 0
  esi : UInt32 := 0
  edi : UInt32 := 0
  deriving DecidableEq, Repr

namespace Registers

/-- The contents of a register. -/
def get (regs : Registers) : Reg → UInt32
  | .eax => regs.eax
  | .ecx => regs.ecx
  | .edx => regs.edx
  | .ebx => regs.ebx
  | .esp => regs.esp
  | .ebp => regs.ebp
  | .esi => regs.esi
  | .edi => regs.edi

/-- Replaces the contents of a register. -/
def set (regs : Registers) (r : Reg) (value : UInt32) : Registers :=
  match r with
  | .eax => { regs with eax := value }
  | .ecx => { regs with ecx := value }
  | .edx => { regs with edx := value }
  | .ebx => { regs with ebx := value }
  | .esp => { regs with esp := value }
  | .ebp => { regs with ebp := value }
  | .esi => { regs with esi := value }
  | .edi => { regs with edi := value }

@[simp]
theorem get_set_self (regs : Registers) (r : Reg) (value : UInt32) :
    (regs.set r value).get r = value := by
  cases r <;> rfl

@[simp]
theorem get_set_of_ne (regs : Registers) {r s : Reg} (value : UInt32) (h : s ≠ r) :
    (regs.set r value).get s = regs.get s := by
  cases r <;> cases s <;> first | rfl | contradiction

end Registers

/-- The flags that comparisons and sums set. -/
structure Flags where
  zero : Bool := false
  sign : Bool := false
  overflow : Bool := false
  carry : Bool := false
  deriving DecidableEq, Repr

namespace Flags

/-- Whether a word is negative as a two's complement number. -/
def isNegative (w : UInt32) : Bool :=
  2147483648 ≤ w.toNat

/-- The flags of a result, with the two that depend on the operation. -/
def ofResult (result : UInt32) (overflow carry : Bool) : Flags :=
  ⟨result == 0, isNegative result, overflow, carry⟩

/-- A difference of words with its flags. Overflow shows when the operands have
different signs and the result does not have the sign of the first. -/
def sub (a b : UInt32) : UInt32 × Flags :=
  let result := a - b
  (result, ofResult result (isNegative ((a ^^^ b) &&& (a ^^^ result))) (a < b))

/-- A sum of words with its flags. Overflow shows when the operands have the
same sign and the result has the other. -/
def add (a b : UInt32) : UInt32 × Flags :=
  let result := a + b
  (result, ofResult result (isNegative (~~~(a ^^^ b) &&& (a ^^^ result))) (result < a))

/-- Whether a jump is taken. -/
def holds (flags : Flags) : Mnemonic → Bool
  | .je => flags.zero
  | .jne => !flags.zero
  | .jl => flags.sign != flags.overflow
  | .jge => flags.sign == flags.overflow
  | .jle => flags.zero || flags.sign != flags.overflow
  | .jg => !flags.zero && flags.sign == flags.overflow
  | _ => true

end Flags

/-- A process. -/
structure Machine where
  regs : Registers
  eip : UInt32
  flags : Flags
  memory : Memory
  /-- What the process has written. -/
  output : Array UInt8
  /-- The exit status, once the process has ended. -/
  exit : Option Int
  /-- Instructions begun. -/
  steps : Nat

namespace Machine

/-- The address behind the stack. -/
def stackTop : UInt32 := 0xBFFFF000

/-- Bytes of stack. -/
def stackSize : Nat := 0x100000

/-- A process at its first instruction, with an empty stack. -/
def start (memory : Memory) (entry : UInt32) : Machine where
  regs := { esp := stackTop }
  eip := entry
  flags := {}
  memory := memory.map (stackTop - UInt32.ofNat stackSize) stackSize
  output := #[]
  exit := none
  steps := 0

/-- The contents of a register. -/
def get (m : Machine) (r : Reg) : UInt32 :=
  m.regs.get r

/-- Replaces the contents of a register. -/
def set (m : Machine) (r : Reg) (value : UInt32) : Machine :=
  { m with regs := m.regs.set r value }

/-- The address of a memory operand. -/
def address (m : Machine) (place : Mem) : UInt32 :=
  m.get place.base + Word.ofInt place.disp.toInt

end Machine

/-- How a process ended. -/
structure Outcome where
  exitCode : Int
  steps : Nat
  output : Bytes
  deriving DecidableEq, Repr

end Ia32
