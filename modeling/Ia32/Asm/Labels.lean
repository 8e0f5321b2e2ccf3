import Ia32.Asm.Error
import Ia32.Asm.Statement

/-!
# Label tables

The labels of a program in the order of their definitions, up to a capacity.
The first definition of a name counts.
-/

namespace Ia32.Asm

/-- The place of a label: its section, its distance from the start of the
section, and the line that defines it. -/
structure Label where
  sect : Section
  offset : Nat
  line : Nat
  deriving DecidableEq, Repr

/-- A table of labels. -/
structure Labels where
  capacity : Nat
  entries : List (String × Label) := []
  deriving DecidableEq, Repr

namespace Labels

/-- The label of a name. -/
def get? (labels : Labels) (name : String) : Option Label :=
  labels.entries.lookup name

/-- Defines a name. If it has a definition already, that one is kept and
returned. -/
def define (labels : Labels) (name : String) (label : Label) :
    Except Error (Labels × Option Label) :=
  match labels.get? name with
  | some previous => .ok (labels, some previous)
  | none =>
      if labels.capacity ≤ labels.entries.length then .error (.labelTableFull labels.capacity)
      else .ok ({ labels with entries := labels.entries ++ [(name, label)] }, none)

/-- The address of a name, once the addresses of both sections are known. -/
def address? (labels : Labels) (name : String) (textBase dataBase : UInt32) :
    Checked (Option UInt32) :=
  match labels.get? name with
  | none => .ok none
  | some label =>
      (Word.offset (match label.sect with | .text => textBase | .data => dataBase)
        label.offset).map some

end Labels

end Ia32.Asm
