import Ia32.Instruction.Encoding

/-!
# Fatal conditions of the assembler

Conditions that leave no program at all. Everything else about a source text
is a diagnostic.
-/

namespace Ia32.Asm

/-- Why there is no program. -/
inductive Error where
  | overflow
  | labelTableFull (capacity : Nat)
  | codeOverflow (length : Nat)
  | dataOverflow (length : Nat)
  | phaseDrift (expected emitted : Nat)
  | malformedImage
  | encoding (e : EncodingError)
  deriving DecidableEq, Repr

namespace Error

/-- The message of a fatal condition. -/
def message : Error → String
  | .overflow => "Address out of range"
  | .labelTableFull capacity => "Label table full: more than " ++ toString capacity ++ " labels"
  | .codeOverflow length =>
      "Code section overflow: " ++ toString length ++ " bytes exceeds capacity"
  | .dataOverflow length =>
      "Data section overflow: " ++ toString length ++ " bytes exceeds capacity"
  | .phaseDrift expected emitted =>
      "Second pass emitted " ++ toString emitted ++ " code bytes, first pass laid out " ++
        toString expected
  | .malformedImage => "Malformed output: code section starts with an ELF magic byte"
  | .encoding e => e.message

/-- The exit status of a run that ends in a fatal condition. -/
def exitCode : Error → Nat
  | .labelTableFull _ | .codeOverflow _ | .dataOverflow _ => 2
  | .phaseDrift _ _ | .malformedImage => 3
  | .overflow | .encoding _ => 4

end Error

/-- A bounded sum or difference as a step of the assembler. -/
def ofChecked {α : Type} : Checked α → Except Error α
  | .ok a => .ok a
  | .error .overflow => .error .overflow

end Ia32.Asm
