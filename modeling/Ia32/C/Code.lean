import Ia32.Abi
import Ia32.Instruction
import Ia32.Word

/-!
# Generated code

A list of labels and instructions, written as assembly text at the end, and the
short sequences that statements are made of.
-/

namespace Ia32.C

/-- A label or an instruction. -/
inductive Item where
  | label (name : String)
  | instr (i : Instr String)
  deriving DecidableEq, Repr

/-- Generated code. -/
structure Code where
  items : List Item := []
  deriving DecidableEq, Repr

namespace Code

/-- One piece of code behind another. -/
instance : Append Code where
  append a b := ⟨a.items ++ b.items⟩

/-- A label. -/
def label (name : String) : Code :=
  ⟨[.label name]⟩

/-- An instruction. -/
def instr (op : Mnemonic) (args : List (Operand String)) : Code :=
  ⟨[.instr ⟨op, args⟩]⟩

/-- Puts code in front of the item with an index, which must not be beyond the
end. -/
def insertAt (code : Code) (index : Nat) (other : Code) : Checked Code :=
  if index ≤ code.items.length then
    .ok ⟨code.items.take index ++ other.items ++ code.items.drop index⟩
  else .error .overflow

/-- The instructions without the labels. -/
def instrs (code : Code) : List (Instr String) :=
  code.items.filterMap fun item =>
    match item with
    | .instr i => some i
    | .label _ => none

/-- The text of an item. -/
def renderItem : Item → String
  | .label name => name ++ ":\n"
  | .instr i => "  " ++ i.text ++ "\n"

/-- The assembly text. -/
def render (code : Code) : String :=
  String.join (code.items.map renderItem)

end Code

/-- The place that an assignment stores into. -/
inductive Place where
  | slot (m : Mem)
  /-- The word that the operand points to. -/
  | pointee (pointer : Operand String)
  deriving DecidableEq, Repr

namespace Code

/-- Code that stores a value into a place. A value in memory goes through the
accumulator. -/
def store (place : Place) (value : Operand String) : Code :=
  let (load, value) : Code × Operand String := match value with
    | .mem m => (instr .mov [.reg Abi.accumulator, .mem m], .reg Abi.accumulator)
    | value => ({}, value)
  match place with
  | .slot m => load ++ instr .mov [.mem m, value]
  | .pointee pointer =>
      load ++ instr .mov [.reg Abi.scratch, pointer] ++ instr .mov [.mem ⟨Abi.scratch, 0⟩, value]

/-- Code that ends the process with a status. -/
def exit (status : Operand String) : Code :=
  instr .mov [.reg .ebx, status] ++
    instr .mov [.reg Abi.syscallNumber, .imm Abi.sysExit] ++
    instr .int [.imm Abi.syscallVector]

/-- Code that compares two values. A label goes through the scratch register,
because no comparison takes one. -/
def compare (lhs rhs : Operand String) : Code :=
  let load := instr .mov [.reg Abi.accumulator, lhs]
  match rhs with
  | .label name =>
      load ++ instr .mov [.reg Abi.scratch, .label name] ++
        instr .cmp [.reg Abi.accumulator, .reg Abi.scratch]
  | rhs => load ++ instr .cmp [.reg Abi.accumulator, rhs]

end Code

/-- The line that defines a string constant, written so that the assembler reads
back the bytes of the text and a zero byte. -/
def dataLine (name content : String) : String :=
  let s := content.toList
  let oneLine := !(s.contains '\n' || s.contains '\r')
  if oneLine && !s.contains '\'' then name ++ ": db '" ++ content ++ "'"
  else if oneLine && !s.contains '"' then name ++ ": db \"" ++ content ++ "\""
  else
    name ++ ": db " ++
      Text.joinWith ", " ((utf8Bytes content ++ [0]).map fun (b : UInt8) => toString b.toNat)

end Ia32.C
