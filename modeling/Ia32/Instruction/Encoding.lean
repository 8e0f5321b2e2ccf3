import Ia32.Instruction
import Ia32.Word

/-!
# Encoded instructions

`Instr.size` measures an instruction from the kinds of its operands alone, so
that a program can be laid out before any label has an address; `Instr.encode`
produces the bytes once it has been placed. Labels always take their widest
form, which is why the two agree.
-/

namespace Ia32

/-- The reasons why an instruction has no encoding. -/
inductive EncodingError where
  | invalidOperands (op : Mnemonic) (shapes : List Shape)
  | unsupportedBase (base : Reg)
  | immediateOutOfRange (value : Int)
  | vectorOutOfRange (value : Int)
  deriving DecidableEq, Repr

/-- The complaint about an instruction without encoding. -/
def EncodingError.message : EncodingError → String
  | .invalidOperands op shapes =>
      "Invalid operands for `" ++ op.name ++ "`: (" ++
        Text.joinWith ", " (shapes.map Shape.name) ++ ")"
  | .unsupportedBase base => "`" ++ base.name ++ "` cannot be used as a base register"
  | .immediateOutOfRange v => "Immediate value out of range: " ++ toString v
  | .vectorOutOfRange v => "Interrupt vector out of range: " ++ toString v

namespace Encoding

/-- The byte that names the operands: two bits of mode, then two register fields. -/
def modrm (mode field rm : Nat) : UInt8 :=
  UInt8.ofNat (64 * mode + 8 * field + rm)

/-- Bytes taken by a memory operand. The code of `esp` announces an index byte,
which this machine does not have. -/
def memWidth (m : Mem) : Except EncodingError Nat :=
  if m.base = .esp then .error (.unsupportedBase m.base) else .ok (1 + m.dispWidth)

/-- The bytes of a memory operand beside a register field. -/
def memory (field : Nat) (m : Mem) : Except EncodingError Bytes :=
  if m.base = .esp then .error (.unsupportedBase m.base)
  else
    match m.dispWidth with
    | 0 => .ok [modrm 0 field m.base.code]
    | 1 => .ok [modrm 1 field m.base.code, byteOfInt m.disp.toInt]
    | _ => .ok (modrm 2 field m.base.code :: Word.toBytes (Word.ofInt m.disp.toInt))

/-- The four bytes of an immediate. -/
def immediate (v : Int) : Except EncodingError Bytes :=
  if fitsWord v then .ok (Word.toBytes (Word.ofInt v)) else .error (.immediateOutOfRange v)

/-- Bytes taken by an immediate that has a short form. -/
def shortWidth (v : Int) : Except EncodingError Nat :=
  if fitsWord v then .ok (if fitsByte v then 1 else 4) else .error (.immediateOutOfRange v)

/-- An opcode with a short and a long form of the immediate, the bytes of the
other operand, and the immediate in the shortest form that holds it. -/
def withImmediate (short long : UInt8) (place : Except EncodingError Bytes) (v : Int) :
    Except EncodingError Bytes := do
  let width ← shortWidth v
  let place ← place
  if width = 1 then return short :: (place ++ [byteOfInt v])
  else return long :: (place ++ (← immediate v))

/-- The number of an interrupt. -/
def vector (v : Int) : Except EncodingError UInt8 :=
  if 0 ≤ v ∧ v ≤ 255 then .ok (byteOfInt v) else .error (.vectorOutOfRange v)

/-- Distance from the end of a branch to its target, in 32-bit wrapping arithmetic. -/
def relative (target addr length : UInt32) : Bytes :=
  Word.toBytes (target - (addr + length))

end Encoding

namespace Instr

open Encoding

variable {L : Type}

/-- The error of an instruction whose operands do not suit its operation. -/
def invalid (i : Instr L) : EncodingError :=
  .invalidOperands i.op (i.args.map Operand.shape)

/-- Length of the encoding in bytes. -/
def size (i : Instr L) : Except EncodingError Nat :=
  if i.op.alu.isSome then
    match i.args with
    | [.reg _, .reg _] => return 2
    | [.reg _, .mem m] | [.mem m, .reg _] => return 1 + (← memWidth m)
    | [.reg _, .imm v] => return 2 + (← shortWidth v)
    | [.mem m, .imm v] => return 1 + (← memWidth m) + (← shortWidth v)
    | _ => throw i.invalid
  else
    match i.op, i.args with
    | .mov, [.reg _, .reg _] => return 2
    | .mov, [.reg _, .mem m] | .mov, [.mem m, .reg _] => return 1 + (← memWidth m)
    | .mov, [.reg _, .imm v] => return 1 + (← immediate v).length
    | .mov, [.reg _, .label _] => return 5
    | .mov, [.mem m, .imm v] => return 1 + (← memWidth m) + (← immediate v).length
    | .mov, [.mem m, .label _] => return 5 + (← memWidth m)
    | .jmp, [.label _] | .jmp, [.imm _] | .call, [.label _] | .call, [.imm _] => return 5
    | .call, [.reg _] => return 2
    | .call, [.mem m] => return 1 + (← memWidth m)
    | .int, [.imm v] => do
        let _ ← vector v
        return 2
    | .push, [.reg _] | .pop, [.reg _] => return 1
    | .push, [.imm v] => return 1 + (← shortWidth v)
    | .push, [.label _] => return 5
    | .push, [.mem m] | .pop, [.mem m] => return 1 + (← memWidth m)
    | .pusha, [] | .popa, [] | .ret, [] => return 1
    | op, [.label _] | op, [.imm _] =>
        if op.condition.isSome then return 6 else throw i.invalid
    | _, _ => throw i.invalid

/-- The bytes of an instruction of the arithmetic group. -/
def encodeAlu (code : AluCode) (i : Instr UInt32) : Except EncodingError Bytes :=
  match i.args with
  | [.reg d, .reg s] => return [code.toPlace, modrm 3 s.code d.code]
  | [.reg d, .mem m] => return code.toReg :: (← memory d.code m)
  | [.mem m, .reg s] => return code.toPlace :: (← memory s.code m)
  | [.reg d, .imm v] => withImmediate 0x83 0x81 (.ok [modrm 3 code.field d.code]) v
  | [.mem m, .imm v] => withImmediate 0x83 0x81 (memory code.field m) v
  | _ => throw i.invalid

/-- The bytes of a jump or call to a fixed target. -/
def encodeBranch (i : Instr UInt32) (target addr : UInt32) : Except EncodingError Bytes :=
  match i.op with
  | .jmp => return 0xE9 :: relative target addr 5
  | .call => return 0xE8 :: relative target addr 5
  | op =>
      match op.condition with
      | some byte => return 0x0F :: byte :: relative target addr 6
      | none => throw i.invalid

/-- The bytes of an instruction placed at an address. -/
def encode (i : Instr UInt32) (addr : UInt32) : Except EncodingError Bytes :=
  match i.op.alu with
  | some code => i.encodeAlu code
  | none =>
      match i.op, i.args with
      | .mov, [.reg d, .reg s] => return [0x89, modrm 3 s.code d.code]
      | .mov, [.reg d, .mem m] => return 0x8B :: (← memory d.code m)
      | .mov, [.mem m, .reg s] => return 0x89 :: (← memory s.code m)
      | .mov, [.reg d, .imm v] => return UInt8.ofNat (0xB8 + d.code) :: (← immediate v)
      | .mov, [.reg d, .label a] => return UInt8.ofNat (0xB8 + d.code) :: Word.toBytes a
      | .mov, [.mem m, .imm v] => do
          let place ← memory 0 m
          return 0xC7 :: (place ++ (← immediate v))
      | .mov, [.mem m, .label a] => return 0xC7 :: ((← memory 0 m) ++ Word.toBytes a)
      | .call, [.reg r] => return [0xFF, modrm 3 2 r.code]
      | .call, [.mem m] => return 0xFF :: (← memory 2 m)
      | .int, [.imm v] => return [0xCD, ← vector v]
      | .push, [.reg r] => return [UInt8.ofNat (0x50 + r.code)]
      | .push, [.imm v] => withImmediate 0x6A 0x68 (.ok []) v
      | .push, [.label a] => return 0x68 :: Word.toBytes a
      | .push, [.mem m] => return 0xFF :: (← memory 6 m)
      | .pop, [.reg r] => return [UInt8.ofNat (0x58 + r.code)]
      | .pop, [.mem m] => return 0x8F :: (← memory 0 m)
      | .pusha, [] => return [0x60]
      | .popa, [] => return [0x61]
      | .ret, [] => return [0xC3]
      | _, [.label a] => i.encodeBranch a addr
      | _, [.imm v] => i.encodeBranch (Word.ofInt v) addr
      | _, _ => throw i.invalid

end Instr

end Ia32
