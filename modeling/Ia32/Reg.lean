import Ia32.Text.Blank

/-!
# General registers

The eight 32-bit registers, numbered as the three-bit fields of an encoded
instruction number them.
-/

namespace Ia32

/-- A general 32-bit register. -/
inductive Reg where
  | eax
  | ecx
  | edx
  | ebx
  | esp
  | ebp
  | esi
  | edi
  deriving DecidableEq, Repr

namespace Reg

/-- The registers in the order of their codes. -/
def all : List Reg :=
  [.eax, .ecx, .edx, .ebx, .esp, .ebp, .esi, .edi]

/-- The three-bit code of a register. -/
def code : Reg → Nat
  | .eax => 0
  | .ecx => 1
  | .edx => 2
  | .ebx => 3
  | .esp => 4
  | .ebp => 5
  | .esi => 6
  | .edi => 7

/-- The register with a code; a number that is no code stands for `eax`. -/
def ofCode : Nat → Reg
  | 1 => .ecx
  | 2 => .edx
  | 3 => .ebx
  | 4 => .esp
  | 5 => .ebp
  | 6 => .esi
  | 7 => .edi
  | _ => .eax

/-- The written name of a register. -/
def name : Reg → String
  | .eax => "eax"
  | .ecx => "ecx"
  | .edx => "edx"
  | .ebx => "ebx"
  | .esp => "esp"
  | .ebp => "ebp"
  | .esi => "esi"
  | .edi => "edi"

/-- Reads a register name in any letter case. -/
def ofName? (s : List Char) : Option Reg :=
  all.find? fun r => r.name.toList == Text.lower s

/-- The complaint about a text that names no register. -/
def unknownName (s : String) : String :=
  "Unknown reg name: " ++ s

@[simp]
theorem ofCode_code (r : Reg) : ofCode r.code = r := by
  cases r <;> rfl

theorem code_lt (r : Reg) : r.code < 8 := by
  cases r <;> decide

theorem code_ofCode {n : Nat} (h : n < 8) : (ofCode n).code = n := by
  match n, h with
  | 0, _ | 1, _ | 2, _ | 3, _ | 4, _ | 5, _ | 6, _ | 7, _ => rfl

end Reg

end Ia32
