import Ia32.Mnemonic
import Ia32.Operand

/-!
# Instructions

An instruction is an operation with its operands. Nothing here says that the
operands suit the operation; measuring or encoding an instruction finds out.
-/

namespace Ia32

/-- An operation with its operands, whose labels have type `L`. -/
structure Instr (L : Type) where
  op : Mnemonic
  args : List (Operand L)
  deriving DecidableEq, Repr

namespace Instr

variable {L M : Type}

/-- Replaces every label. -/
def resolve (f : L → M) (i : Instr L) : Instr M :=
  ⟨i.op, i.args.map (Operand.resolve f)⟩

/-- The labels among the operands, in order. -/
def labels (i : Instr L) : List L :=
  i.args.filterMap Operand.label?

/-- The written form, such as `mov [ebp-4], 5`. -/
def render (showLabel : L → String) (i : Instr L) : String :=
  if i.args.isEmpty then i.op.name
  else i.op.name ++ " " ++ Text.joinWith ", " (i.args.map (Operand.render showLabel))

/-- The coloured form: the operation in six columns, then the operands. -/
def renderColored (showLabel : L → String) (i : Instr L) : String :=
  Text.paint [.red] (Text.padRight 6 i.op.name) ++
    Text.joinWith ", " (i.args.map fun a => Text.paint [a.style] (a.render showLabel))

end Instr

/-- The written form of an instruction with named labels. -/
def Instr.text (i : Instr String) : String :=
  i.render id

/-- The written form of an instruction whose labels are addresses. -/
def Instr.placedText (i : Instr UInt32) : String :=
  i.render fun a => toString a.toNat

end Ia32
