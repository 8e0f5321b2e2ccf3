import Ia32.Abi
import Ia32.Operand

/-!
# Local variables

The variables of the function being compiled. The first one lives in the word
below the frame pointer, each further one in the word below the last.
-/

namespace Ia32.C

/-- The types of variables. -/
inductive CType where
  | int
  | intPointer
  | char
  | charPointer
  deriving DecidableEq, Repr

namespace CType

/-- The type with a base type and perhaps a star. -/
def ofParts (isChar isPointer : Bool) : CType :=
  match isChar, isPointer with
  | false, false => .int
  | false, true => .intPointer
  | true, false => .char
  | true, true => .charPointer

/-- Whether values point to a word. -/
def isPointer : CType → Bool
  | .intPointer | .charPointer => true
  | .int | .char => false

/-- Whether the base type is `char`. -/
def isChar : CType → Bool
  | .char | .charPointer => true
  | .int | .intPointer => false

/-- The written form of a type. -/
def name : CType → String
  | .int => "int"
  | .intPointer => "int *"
  | .char => "char"
  | .charPointer => "char *"

end CType

/-- A variable: its type and its word in the frame. -/
structure Local where
  type : CType
  slot : Mem
  deriving DecidableEq, Repr

/-- The reasons why a name gets no new variable. -/
inductive LocalError where
  | full (capacity : Nat)
  | redeclared (name : String)
  deriving DecidableEq, Repr

/-- The complaint about a name that gets no new variable. -/
def LocalError.message : LocalError → String
  | .full capacity => "Too many symbols: limit is " ++ toString capacity ++ " per function"
  | .redeclared name => "Redeclaration of `" ++ name ++ "`"

/-- The variables of a function in the order of their declarations. -/
structure Locals where
  capacity : Nat
  entries : List (String × Local) := []
  deriving DecidableEq, Repr

namespace Locals

/-- Number of variables. -/
def size (locals : Locals) : Nat :=
  locals.entries.length

/-- The table without variables. -/
def clear (locals : Locals) : Locals :=
  { locals with entries := [] }

/-- The variable with a name. -/
def get? (locals : Locals) (name : String) : Option Local :=
  locals.entries.lookup name

/-- The word of the variable that has `index` others before it. -/
def slotAt (index : Nat) : Mem :=
  ⟨Abi.frame, Int32.ofInt (-(Abi.wordSize * (index + 1) : Int))⟩

/-- Declares a variable. A name that is taken keeps its variable, which comes
with the error. -/
def declare (locals : Locals) (name : String) (type : CType) :
    Locals × Except (LocalError × Option Local) Local :=
  match locals.get? name with
  | some previous => (locals, .error (.redeclared name, some previous))
  | none =>
      if locals.capacity ≤ locals.size then (locals, .error (.full locals.capacity, none))
      else
        let new : Local := ⟨type, slotAt locals.size⟩
        ({ locals with entries := locals.entries ++ [(name, new)] }, .ok new)

/-- Changes the type of the first variable with a name. -/
def retypeIn (name : String) (type : CType) : List (String × Local) → List (String × Local)
  | [] => []
  | (other, l) :: rest =>
      if name = other then (other, { l with type := type }) :: rest
      else (other, l) :: retypeIn name type rest

/-- Gives the variable with a name a type. -/
def retype (locals : Locals) (name : String) (type : CType) : Locals × Option Local :=
  let locals := { locals with entries := retypeIn name type locals.entries }
  (locals, locals.get? name)

/-- The variable with a name; a name without one is declared as an `int`. -/
def getOrDeclare (locals : Locals) (name : String) : Locals × Except LocalError Local :=
  match locals.get? name with
  | some l => (locals, .ok l)
  | none =>
      let (after, outcome) := locals.declare name .int
      (after, outcome.mapError Prod.fst)

/-- Bytes of the frame. -/
def frameSize (locals : Locals) : Nat :=
  locals.size * Abi.wordSize

end Locals

end Ia32.C
