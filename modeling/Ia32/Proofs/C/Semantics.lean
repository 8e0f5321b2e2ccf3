import Ia32.Proofs.C.Process

/-!
# Meaning of programs

An interpreter of programs that store nothing through pointers and call their own functions
only. It knows nothing of registers or code: an activation maps names to words, sums wrap,
and a process has an output and, once it ends, a status. What the machine cannot do for a
program is undefined here: reading a variable that has no word, writing from outside the
data, and using more stack than there is.
-/

namespace Ia32.C

/-- Computations of a process: they may end it with a status, add to its output, or be
undefined. -/
abbrev Effect := ExceptT Int (StateT Bytes Option)

/-- A computation that is undefined if a value is missing. -/
def Effect.ofOption {α : Type} (value? : Option α) : Effect α :=
  ExceptT.mk fun output => value?.map fun value => (.ok value, output)

/-- What a computation leads to from an output on. -/
def Effect.after {α : Type} (x : Effect α) (output : Bytes) : Option (Except Int α × Bytes) :=
  x.run.run output

namespace Effect

variable {α β : Type} {output output' : Bytes} {result : Except Int β}

@[simp]
theorem after_pure (a : α) : (pure a : Effect α).after output = some (.ok a, output) := rfl

@[simp]
theorem after_throw (status : Int) :
    (throw status : Effect α).after output = some (.error status, output) := rfl

@[simp]
theorem after_ofOption (value? : Option α) :
    (ofOption value?).after output = value?.map fun value => (.ok value, output) := rfl

/-- A sequence ends where its first part ends, or goes on with the second. -/
theorem after_bind {x : Effect α} {f : α → Effect β} :
    (x >>= f).after output = some (result, output') ↔
      (∃ status, x.after output = some (.error status, output') ∧ result = .error status) ∨
        ∃ a mid, x.after output = some (.ok a, mid) ∧ (f a).after mid = some (result, output') := by
  have hbind : (x >>= f).after output = (x.after output).bind fun reached =>
      match reached with
      | (.ok a, mid) => (f a).after mid
      | (.error status, mid) => some (.error status, mid) := by
    change (x.after output).bind _ = _
    refine congrArg (Option.bind (x.after output)) (funext fun reached => ?_)
    obtain ⟨result, mid⟩ := reached
    cases result <;> rfl
  rw [hbind]
  cases x.after output with
  | none => simp
  | some reached =>
      obtain ⟨first, mid⟩ := reached
      cases first with
      | error status =>
          constructor
          · intro h
            cases h
            exact .inl ⟨status, rfl, rfl⟩
          · rintro (⟨_, h, rfl⟩ | ⟨_, _, h, -⟩)
            · cases h
              rfl
            · cases h
      | ok a =>
          constructor
          · exact fun h => .inr ⟨a, mid, rfl, h⟩
          · rintro (⟨_, h, -⟩ | ⟨_, _, h, hrest⟩)
            · cases h
            · cases h
              exact hrest

/-- A computation on a value goes on if there is one. -/
theorem after_ofOption_bind {value? : Option α} {f : α → Effect β}
    {reached : Except Int β × Bytes} :
    (ofOption value? >>= f).after output = some reached ↔
      ∃ value, value? = some value ∧ (f value).after output = some reached := by
  obtain ⟨result, output'⟩ := reached
  rw [after_bind]
  cases value? with
  | none => simp
  | some value => simp [and_assoc]

end Effect

/-- The words of the variables of an activation. A variable without a word cannot be read. -/
abbrev Vars := String → Option UInt32

/-- A variable gets a word. -/
def Vars.set (vars : Vars) (name : String) (w : UInt32) : Vars :=
  fun other => if other = name then some w else vars other

/-- A program whose data have an address. -/
structure World where
  program : Program
  dataBase : UInt32

namespace World

/-- The data of the program. -/
def data (world : World) : Bytes :=
  dataOf world.program.constants

/-- The address of a string constant: its text lies behind those of the constants in front. -/
def address (world : World) (name : String) : UInt32 :=
  world.dataBase +
    UInt32.ofNat
      (dataOf (world.program.constants.takeWhile fun constant => constant.1 ≠ name)).length

/-- Bytes of the data segment, whose last page is filled up with zeros. -/
def read (world : World) (addr : UInt32) (length : Nat) : Option Bytes :=
  if length = 0 ∨ world.dataBase.toNat ≤ addr.toNat ∧
      addr.toNat + length ≤ world.dataBase.toNat + Abi.wholePages world.data.length then
    some ((List.range length).map fun i =>
      world.data.getD (addr.toNat - world.dataBase.toNat + i) 0)
  else none

/-- The function with a name. -/
def routine? (world : World) (name : String) : Option Routine :=
  world.program.routines.find? fun r => r.function.name = name

end World

/-! ### Values -/

def Primary.eval (world : World) (constants : List String) (vars : Vars) : Primary → Option UInt32
  | .number value => some (UInt32.ofNat value)
  | .named name => if name ∈ constants then some (world.address name) else vars name

def Expr.eval (world : World) (constants : List String) (vars : Vars) (e : Expr) : Option UInt32 :=
  (e.first.eval world constants vars).map fun first =>
    e.addends.foldl (fun sum value => sum + UInt32.ofNat value) first

/-- Bytes of stack that a call takes for the return address. -/
def callCost : Nat := 4

/-- Bytes of stack that a system call takes for the registers. -/
def trapCost : Nat := 32

/-- The room that is left of the stack when a function has set up its frame. Functions
without variables have none. -/
def Routine.enter (r : Routine) (room : Nat) : Option Nat :=
  if r.frame.size = 0 then some room
  else if 4 + r.frame.size ≤ room then some (room - (4 + r.frame.size))
  else none

/-- The result of a system call. Missing arguments are zero. -/
def Trap.run (world : World) (constants : List String) (vars : Vars) (room : Nat) (t : Trap) :
    Effect UInt32 := do
  let arguments ← Effect.ofOption (t.arguments.mapM (Expr.eval world constants vars))
  Effect.ofOption (if trapCost ≤ room then some () else none)
  let first := arguments.getD 0 0
  let second := arguments.getD 1 0
  if t.number = Abi.sysExit then throw (Word.toSigned first)
  else if t.number = Abi.sysWrite then
    let bytes ← Effect.ofOption (world.read first second.toNat)
    modify (· ++ bytes)
    return second
  else if t.number = Abi.sysGetpid then return 1
  else Effect.ofOption none

def Rhs.run (world : World) (constants : List String) (vars : Vars) (room : Nat) :
    Rhs → Effect UInt32
  | .expr e => Effect.ofOption (e.eval world constants vars)
  | .trap t => t.run world constants vars room

/-! ### Statements -/

/-- The effect of a statement that is no call. -/
def Simple.run (world : World) (constants : List String) (vars : Vars) (room : Nat) :
    Simple → Effect Vars
  | .declare _ _ | .constant _ _ _ => return vars
  | .declareWith _ name value | .assign name value => do
      return vars.set name (← value.run world constants vars room)
  | .exit none => throw 0
  | .exit (some e) => do
      throw (Word.toSigned (← Effect.ofOption (e.eval world constants vars)))
  | .trap t => do
      let _ ← t.run world constants vars room
      return vars
  | .storeThrough _ _ | .call _ _ => Effect.ofOption none

/-- The two sides of a condition. -/
def Test.eval (world : World) (constants : List String) (vars : Vars) (test : Test) :
    Effect (UInt32 × UInt32) :=
  Effect.ofOption do
    return (← test.left.eval world constants vars, ← test.right.eval world constants vars)

/-- Runs statements of a function, at most as deep as given. A function that runs off its
end returns, but the entry function ends the process. -/
def Body.run (world : World) : Nat → Routine → Nat → Vars → Body → Effect Vars
  | 0, _, _, _, _ => Effect.ofOption none
  | fuel + 1, r, room, vars, b =>
      match b with
      | .done => return vars
      | .simple (.call name _) rest => do
          let callee ← Effect.ofOption (world.routine? name)
          let inner ← Effect.ofOption
            (if callCost ≤ room then callee.enter (room - callCost) else none)
          let _ ← Body.run world fuel callee inner (fun _ => none) callee.function.body
          if callee.function.name = "main" then throw 0
          Body.run world fuel r room vars rest
      | .simple s rest => do
          let vars ← s.run world r.constants vars room
          Body.run world fuel r room vars rest
      | .block inner rest => do
          let vars ← Body.run world fuel r room vars inner
          Body.run world fuel r room vars rest
      | .ifThen test inner rest => do
          let (left, right) ← test.eval world r.constants vars
          let vars ← if left ≠ right then Body.run world fuel r room vars inner else pure vars
          Body.run world fuel r room vars rest
      | .ifElse test first second rest => do
          let (left, right) ← test.eval world r.constants vars
          let vars ← Body.run world fuel r room vars (if left ≠ right then first else second)
          Body.run world fuel r room vars rest
      | .loop test inner rest => do
          let (left, right) ← test.eval world r.constants vars
          if Word.toSigned left < Word.toSigned right then
            let vars ← Body.run world fuel r room vars inner
            Body.run world fuel r room vars (.loop test inner rest)
          else Body.run world fuel r room vars rest

theorem Body.run_simple {world : World} {r : Routine} {fuel room : Nat} {vars : Vars} {s : Simple}
    {tail : Body} (h : ∀ name arguments, s ≠ .call name arguments) :
    Body.run world (fuel + 1) r room vars (.simple s tail) =
      (s.run world r.constants vars room >>= fun vars => Body.run world fuel r room vars tail) := by
  cases s with
  | call name arguments => exact absurd rfl (h name arguments)
  | _ => simp only [Body.run]

/-- Runs a program from its entry function, whose variables start at zero. -/
def World.run (world : World) (fuel : Nat) : Effect Unit := do
  let r ← Effect.ofOption (world.routine? "main")
  let room ← Effect.ofOption (r.enter Machine.stackSize)
  let _ ← Body.run world fuel r room (fun _ => some 0) r.function.body
  throw 0

/-- Whether a program ends with a status and an output. -/
def World.Ends (world : World) (status : Int) (output : Bytes) : Prop :=
  ∃ fuel, (world.run fuel).after [] = some (.error status, output)

end Ia32.C
