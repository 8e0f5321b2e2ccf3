import Ia32.Reg
import Ia32.Text.Style
import Ia32.Text.Format

/-!
# Operands

An operand is a register, a word in memory, an immediate number or a label. The
type of labels is a parameter: a name in source text, an address once the
program has been placed.
-/

namespace Ia32

/-- Whether a number has an eight-bit two's complement form. -/
def fitsByte (v : Int) : Bool :=
  -128 ≤ v && v ≤ 127

/-- Whether a number has a 32-bit form, read with or without a sign. -/
def fitsWord (v : Int) : Bool :=
  -2147483648 ≤ v && v ≤ 4294967295

/-- The word at the address in a register plus a displacement. -/
structure Mem where
  base : Reg
  disp : Int32
  deriving DecidableEq, Repr

namespace Mem

/-- Bytes of displacement in an encoded instruction. A form without
displacement does not exist for `ebp`. -/
def dispWidth (m : Mem) : Nat :=
  if m.disp = 0 ∧ m.base ≠ .ebp then 0 else if fitsByte m.disp.toInt then 1 else 4

/-- The written form, such as `[ebp-4]`. -/
def render (m : Mem) : String :=
  let d := m.disp.toInt
  "[" ++ m.base.name ++
    (if d = 0 then "" else if d < 0 then toString d else "+" ++ toString d) ++ "]"

end Mem

/-- The kinds of operands. -/
inductive Shape where
  | reg
  | mem
  | imm
  | label
  deriving DecidableEq, Repr

/-- The written name of a kind of operand. -/
def Shape.name : Shape → String
  | .reg => "reg"
  | .mem => "mem"
  | .imm => "imm"
  | .label => "label"

/-- An operand whose labels have type `L`. -/
inductive Operand (L : Type) where
  | reg (r : Reg)
  | mem (m : Mem)
  | imm (value : Int)
  | label (l : L)
  deriving DecidableEq, Repr

namespace Operand

variable {L M : Type}

/-- Replaces the label. -/
def resolve (f : L → M) : Operand L → Operand M
  | .reg r => .reg r
  | .mem m => .mem m
  | .imm v => .imm v
  | .label l => .label (f l)

/-- The kind of an operand. -/
def shape : Operand L → Shape
  | .reg _ => .reg
  | .mem _ => .mem
  | .imm _ => .imm
  | .label _ => .label

/-- The label of an operand, if it has one. -/
def label? : Operand L → Option L
  | .label l => some l
  | _ => none

/-- The written form. -/
def render (showLabel : L → String) : Operand L → String
  | .reg r => r.name
  | .mem m => m.render
  | .imm v => toString v
  | .label l => showLabel l

/-- The colour of an operand in coloured listings. -/
def style : Operand L → Text.Style
  | .reg _ => .blue
  | .mem _ => .cyan
  | .imm _ => .yellow
  | .label _ => .green

end Operand

end Ia32
