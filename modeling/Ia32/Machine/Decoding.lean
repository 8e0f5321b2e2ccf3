import Ia32.Instruction
import Ia32.Machine.Fault
import Ia32.Word

/-!
# Decoding

Reads one instruction from the bytes at an address. Exactly the forms that the
encoder produces are known; the target of a branch comes back as an absolute
address.
-/

namespace Ia32

/-- Reads from the front of the bytes of one instruction; failures name the
address of the instruction. -/
abbrev Decoder := StateT Bytes (Except Fault)

namespace Decoder

/-- The next byte. -/
def byte (addr : UInt32) : Decoder UInt8 := fun bytes =>
  match bytes with
  | b :: rest => .ok (b, rest)
  | [] => .error (.truncatedInstruction addr)

/-- The next four bytes as a word. -/
def word (addr : UInt32) : Decoder UInt32 := fun bytes =>
  match bytes with
  | b0 :: b1 :: b2 :: b3 :: rest => .ok (Word.ofBytes b0 b1 b2 b3, rest)
  | _ => .error (.truncatedInstruction addr)

/-- An immediate of one byte, extended by its sign. -/
def shortImmediate (addr : UInt32) : Decoder Int := do
  return signedByte (← byte addr)

/-- An immediate of four bytes, read with its sign. -/
def longImmediate (addr : UInt32) : Decoder Int := do
  return Word.toSigned (← word addr)

/-- The target of a branch of the given length, whose last four bytes are next. -/
def target (addr length : UInt32) : Decoder (Operand UInt32) := do
  return .label (addr + length + (← word addr))

/-- The byte that names two operands, with the displacement behind it: the
register field and the register-or-memory operand. -/
def place (addr : UInt32) : Decoder (Nat × Operand UInt32) := do
  let b := (← byte addr).toNat
  let mode := b / 64
  let field := b / 8 % 8
  let rm := b % 8
  if mode = 3 then return (field, .reg (.ofCode rm))
  else if rm = 4 ∨ (mode = 0 ∧ rm = 5) then throw (.unsupportedAddressing addr)
  else
    let disp ← match mode with
      | 0 => pure 0
      | 1 => shortImmediate addr
      | _ => longImmediate addr
    return (field, .mem ⟨.ofCode rm, Int32.ofInt disp⟩)

/-- The operation of the arithmetic group that stores with the given opcode. -/
def aluOf (opcode : UInt8) : Mnemonic :=
  if opcode = 0x01 ∨ opcode = 0x03 then .add
  else if opcode = 0x29 ∨ opcode = 0x2B then .sub
  else .cmp

/-- The operation of the arithmetic group selected by a register field. -/
def aluOfField? : Nat → Option Mnemonic
  | 0 => some .add
  | 5 => some .sub
  | 7 => some .cmp
  | _ => none

/-- The rest of an instruction after its first byte. -/
def operands (addr : UInt32) (opcode : UInt8) : Decoder (Instr UInt32) := do
  let n := opcode.toNat
  if opcode = 0x01 ∨ opcode = 0x29 ∨ opcode = 0x39 then
    let (field, rm) ← place addr
    return ⟨aluOf opcode, [rm, .reg (.ofCode field)]⟩
  else if opcode = 0x03 ∨ opcode = 0x2B ∨ opcode = 0x3B then
    let (field, rm) ← place addr
    return ⟨aluOf opcode, [.reg (.ofCode field), rm]⟩
  else if opcode = 0x81 ∨ opcode = 0x83 then
    let (field, rm) ← place addr
    match aluOfField? field with
    | none => throw (.unknownOpcode addr opcode)
    | some op =>
        let v ← if opcode = 0x83 then shortImmediate addr else longImmediate addr
        return ⟨op, [rm, .imm v]⟩
  else if opcode = 0x89 then
    let (field, rm) ← place addr
    return ⟨.mov, [rm, .reg (.ofCode field)]⟩
  else if opcode = 0x8B then
    let (field, rm) ← place addr
    return ⟨.mov, [.reg (.ofCode field), rm]⟩
  else if 0xB8 ≤ n ∧ n ≤ 0xBF then
    return ⟨.mov, [.reg (.ofCode (n - 0xB8)), .imm (← longImmediate addr)]⟩
  else if opcode = 0xC7 then
    let (field, rm) ← place addr
    if field = 0 then return ⟨.mov, [rm, .imm (← longImmediate addr)]⟩
    else throw (.unknownOpcode addr opcode)
  else if opcode = 0xE9 then return ⟨.jmp, [← target addr 5]⟩
  else if opcode = 0xE8 then return ⟨.call, [← target addr 5]⟩
  else if opcode = 0x0F then
    let second ← byte addr
    match Mnemonic.ofCondition? second with
    | none => throw (.unknownOpcode addr second)
    | some op => return ⟨op, [← target addr 6]⟩
  else if opcode = 0xFF then
    match ← place addr with
    | (2, rm) => return ⟨.call, [rm]⟩
    | (6, .mem m) => return ⟨.push, [.mem m]⟩
    | _ => throw (.unknownOpcode addr opcode)
  else if opcode = 0xCD then return ⟨.int, [.imm (← byte addr).toNat]⟩
  else if 0x50 ≤ n ∧ n ≤ 0x57 then return ⟨.push, [.reg (.ofCode (n - 0x50))]⟩
  else if 0x58 ≤ n ∧ n ≤ 0x5F then return ⟨.pop, [.reg (.ofCode (n - 0x58))]⟩
  else if opcode = 0x6A then return ⟨.push, [.imm (← shortImmediate addr)]⟩
  else if opcode = 0x68 then return ⟨.push, [.imm (← longImmediate addr)]⟩
  else if opcode = 0x8F then
    match ← place addr with
    | (0, .mem m) => return ⟨.pop, [.mem m]⟩
    | _ => throw (.unknownOpcode addr opcode)
  else if opcode = 0x60 then return ⟨.pusha, []⟩
  else if opcode = 0x61 then return ⟨.popa, []⟩
  else if opcode = 0xC3 then return ⟨.ret, []⟩
  else throw (.unknownOpcode addr opcode)

/-- One instruction. -/
def instruction (addr : UInt32) : Decoder (Instr UInt32) := do
  operands addr (← byte addr)

end Decoder

/-- Bytes of the longest instruction. -/
def maxInstructionLength : Nat := 10

/-- The instruction at the front of the bytes at an address, with its length. -/
def decode (bytes : Bytes) (addr : UInt32) : Except Fault (Instr UInt32 × Nat) :=
  match (Decoder.instruction addr).run bytes with
  | .ok (i, rest) => .ok (i, bytes.length - rest.length)
  | .error fault => .error fault

end Ia32
