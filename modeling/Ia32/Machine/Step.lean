import Ia32.Machine.Decoding
import Ia32.Machine.State

/-!
# Execution of one instruction

An instruction changes the machine piece by piece, and a fault in the middle
keeps the changes made before it. The instruction pointer and the step counter
move on before the instruction takes effect.
-/

namespace Ia32

/-- Actions on a machine that may fault; the machine at the fault is kept. -/
abbrev Exec := EStateM Fault Machine

namespace Exec

/-- The contents of a register. -/
def getReg (r : Reg) : Exec UInt32 := do
  return (← get).get r

/-- Replaces the contents of a register. -/
def setReg (r : Reg) (value : UInt32) : Exec Unit :=
  modify fun m => m.set r value

/-- Continues at an address. -/
def jump (addr : UInt32) : Exec Unit :=
  modify fun m => { m with eip := addr }

/-- The word at an address. -/
def load (addr : UInt32) : Exec UInt32 := do
  match (← get).memory.read32 addr with
  | .ok w => return w
  | .error fault => throw fault

/-- Stores a word at an address. -/
def store (addr value : UInt32) : Exec Unit := fun m =>
  match m with
  | ⟨regs, eip, flags, memory, output, exit, steps⟩ =>
      match memory.write32 addr value with
      | (memory, .ok ()) => .ok () ⟨regs, eip, flags, memory, output, exit, steps⟩
      | (memory, .error fault) => .error fault ⟨regs, eip, flags, memory, output, exit, steps⟩

/-- Pushes a word; the stack pointer moves after the word is stored. -/
def push (value : UInt32) : Exec Unit := do
  let esp := (← getReg .esp) - 4
  store esp value
  setReg .esp esp

/-- Pops a word. -/
def pop : Exec UInt32 := do
  let esp ← getReg .esp
  let value ← load esp
  setReg .esp (esp + 4)
  return value

/-- Pushes the contents of registers, the first register first. -/
def pushRegs : List Reg → Exec Unit
  | [] => return
  | r :: rest => do
      push (← getReg r)
      pushRegs rest

/-- Pops words into registers, the first register first. -/
def popRegs : List Reg → Exec Unit
  | [] => return
  | r :: rest => do
      setReg r (← pop)
      popRegs rest

/-- The value of an operand. -/
def read : Operand UInt32 → Exec UInt32
  | .reg r => getReg r
  | .mem m => do load ((← get).address m)
  | .imm v => return Word.ofInt v
  | .label addr => return addr

/-- Stores into a register or a word of memory; nothing else can be stored into. -/
def write (fault : Fault) (place : Operand UInt32) (value : UInt32) : Exec Unit :=
  match place with
  | .reg r => setReg r value
  | .mem m => do store ((← get).address m) value
  | _ => throw fault

/-- The system call that the registers ask for. -/
def syscall : Exec Unit := do
  let number ← getReg Abi.syscallNumber
  let first ← getReg .ebx
  let second ← getReg .ecx
  if number.toNat = Abi.sysExit then
    modify fun m => { m with exit := some (Word.toSigned first) }
  else if number.toNat = Abi.sysWrite then
    match (← get).memory.read first second.toNat with
    | .error fault => throw fault
    | .ok bytes =>
        modify fun m => { m with output := m.output ++ bytes }
        setReg Abi.syscallNumber second
  else if number.toNat = Abi.sysGetpid then setReg Abi.syscallNumber 1
  else throw (.unknownSyscall number)

/-- The effect of an instruction found at an address, after the instruction
pointer has moved behind it. -/
def perform (addr : UInt32) (i : Instr UInt32) : Exec Unit := do
  let invalid := Fault.invalidOperands addr i.op
  match i.op, i.args with
  | .mov, [dst, src] =>
      write invalid dst (← read src)
  | .add, [dst, src] =>
      let a ← read dst
      let b ← read src
      let (result, flags) := Flags.add a b
      modify fun m => { m with flags := flags }
      write invalid dst result
  | .sub, [dst, src] =>
      let a ← read dst
      let b ← read src
      let (result, flags) := Flags.sub a b
      modify fun m => { m with flags := flags }
      write invalid dst result
  | .cmp, [dst, src] =>
      let a ← read dst
      let b ← read src
      modify fun m => { m with flags := (Flags.sub a b).2 }
  | .call, [target] =>
      let addr ← read target
      push (← get).eip
      jump addr
  | .int, [.imm v] =>
      if v = Abi.syscallVector then syscall
      else throw (.unhandledInterrupt addr (byteOfInt v))
  | .push, [src] =>
      push (← read src)
  | .pop, [dst] =>
      write invalid dst (← pop)
  | .pusha, [] =>
      let esp ← getReg .esp
      pushRegs [.eax, .ecx, .edx, .ebx]
      push esp
      pushRegs [.ebp, .esi, .edi]
  | .popa, [] =>
      popRegs [.edi, .esi, .ebp]
      let _ ← pop
      popRegs [.ebx, .edx, .ecx, .eax]
  | .ret, [] =>
      jump (← pop)
  | op, [target] =>
      if op = .jmp ∨ op.condition.isSome then
        if (← get).flags.holds op then jump (← read target)
      else throw invalid
  | _, _ => throw invalid

/-- Fetches, decodes and performs one instruction. The result is where it was
and what it was. -/
def step : Exec (UInt32 × Instr UInt32) := do
  let addr := (← get).eip
  let bytes := (← get).memory.fetch addr maxInstructionLength
  if bytes.isEmpty then throw (.unmapped addr)
  match decode bytes addr with
  | .error fault => throw fault
  | .ok (i, length) =>
      modify fun m => { m with eip := addr + UInt32.ofNat length, steps := m.steps + 1 }
      perform addr i
      return (addr, i)

end Exec

end Ia32
