import Ia32.C.Compiler

/-!
# Expressions

An expression is a number or a name, followed by any number of additions of
numbers. A sum is formed in the accumulator, even if it has only numbers in it.
-/

namespace Ia32.C

/-- A compiled expression: where its value is, and the code that puts it there. -/
structure Value where
  operand : Operand String
  code : Code := {}
  deriving DecidableEq, Repr

/-- Whether the value is known without running code. -/
def Value.isImmediate (v : Value) : Bool :=
  v.operand.shape == .imm

namespace CompileM

/-- The variable with a name, declared if need be; a complaint if there is no
room for it. -/
def findVariable (line : Nat) (name : String) : CompileM (Option Local) := do
  match ← withLocals (·.getOrDeclare name) with
  | .ok l => return some l
  | .error cause =>
      complain line (.noVariable cause)
      return none

/-- The operand of a name: the address of a string constant, or the word of a
variable. -/
def variableOperand (line : Nat) (name : String) : CompileM (Operand String) := do
  if (← get).isString name then return .label name
  match ← findVariable line name with
  | some l => return .mem l.slot
  | none => return .imm 0

/-- A number or a name. -/
def primary : CompileM (Operand String) := do
  let line ← line
  match ← peek with
  | .number value =>
      advance
      return .imm value
  | .ident name =>
      advance
      variableOperand line name
  | _ => unexpected "number or identifier"

/-- Additions of numbers to the accumulator, at most as many as given. -/
def additions : Nat → CompileM Code
  | 0 => return {}
  | fuel + 1 => do
      if ← accept .plus then
        let value ← expectNumber "number after `+`"
        return .instr .add [.reg Abi.accumulator, .imm value] ++ (← additions fuel)
      else return {}

/-- An expression. -/
def expression : CompileM Value := do
  let first ← primary
  if (← peek) = .plus then
    let code ← additions (← remaining)
    return ⟨.reg Abi.accumulator, .instr .mov [.reg Abi.accumulator, first] ++ code⟩
  else return ⟨first, {}⟩

end CompileM

end Ia32.C
