import Ia32.C.Expression

/-!
# Statements

Every statement is compiled as it is read. Statements contain blocks and blocks
contain statements; the compilers of statements take the compiler of nested
blocks as an argument, and `blockAt` ties the knot up to a depth.
-/

namespace Ia32.C.CompileM

/-- The arguments of a system call, each in its register; there may be fewer
than registers. -/
def syscallArguments : List Reg → CompileM Code
  | [] => return {}
  | r :: rest => do
      if ← accept .comma then
        let value ← expression
        return value.code ++ .instr .mov [.reg r, value.operand] ++ (← syscallArguments rest)
      else return {}

/-- A system call up to the trap, with all registers saved in front. The result
is in the accumulator until the registers are restored. -/
def openSyscall : CompileM Code := do
  expect .kwSyscall "`syscall`"
  expect .lparen "`(`"
  let number ← expectNumber "syscall number"
  let arguments ← syscallArguments Abi.syscallArguments
  expect .rparen "`)`"
  return .instr .pusha [] ++ arguments ++
    .instr .mov [.reg Abi.syscallNumber, .imm number] ++
    .instr .int [.imm Abi.syscallVector]

/-- The right-hand side of an assignment, an expression or a system call, and
the store into its target. The target is asked for when the code of the value
has been generated; there may be none after an error. -/
def assignment (target : CompileM (Option Place)) : CompileM Code := do
  if (← peek) = .kwSyscall then
    let code ← openSyscall
    match ← target with
    | some place => return code ++ .store place (.reg Abi.accumulator) ++ .instr .popa []
    | none => return code ++ .instr .popa []
  else
    let value ← expression
    match ← target with
    | some place => return value.code ++ .store place value.operand
    | none => return value.code

/-- A new variable. A name that is taken is reported; if it has a variable, that
one is stored into. -/
def declareVariable (line : Nat) (name : String) (type : CType) : CompileM (Option Place) := do
  if (← get).isString name then
    complain line (.redeclaration name)
    return none
  match ← withLocals (·.declare name type) with
  | .ok l => return some (.slot l.slot)
  | .error (cause, previous?) =>
      complain line (.noVariable cause)
      return previous?.map fun l => .slot l.slot

/-- The variable that a declaration with an initial value stores into. The
initial value may have declared the name already, by reading it. -/
def initializedVariable (line : Nat) (name : String) (type : CType) (isFresh : Bool) :
    CompileM (Option Place) := do
  if isFresh then
    match ← withLocals (·.retype name type) with
    | some l => return some (.slot l.slot)
    | none => declareVariable line name type
  else declareVariable line name type

/-- A string constant, unless its type or its name forbids it. -/
def defineString (line : Nat) (name : String) (type : CType) (content : String) :
    CompileM Unit := do
  let c ← get
  if !type.isChar then complain line (.stringForType name type)
  else if isReserved name then complain line (.reservedConstant name)
  else if c.functions.contains name then complain line (.constantClash name)
  else if (c.locals.get? name).isSome || c.isString name then complain line (.redeclaration name)
  else modify fun c => { c with strings := c.strings ++ [(name, content)] }

/-- A declaration behind its equals sign: the text of a string constant, or the
initial value of a variable. -/
def initializer (line : Nat) (name : String) (type : CType) : CompileM Code := do
  match ← peek with
  | .text content =>
      advance
      expect .semicolon "`;`"
      defineString line name type content
      return {}
  | _ =>
      let isFresh := ((← get).locals.get? name).isNone
      let code ← assignment (initializedVariable line name type isFresh)
      expect .semicolon "`;`"
      return code

/-- A declaration of a variable or a string constant. -/
def declaration : CompileM Code := do
  let line ← line
  let isChar := (← peek) = .kwChar
  advance
  let isPointer ← accept .star
  let type := CType.ofParts isChar isPointer
  let name ← expectIdent
  if ← accept .assign then initializer line name type
  else
    expect .semicolon "`;` or `=`"
    let _ ← declareVariable line name type
    return {}

/-- The operand that holds a pointer: a string constant or a variable of a
pointer type. -/
def pointerOperand (line : Nat) (name : String) : CompileM (Option (Operand String)) := do
  if (← get).isString name then return some (.label name)
  match ← findVariable line name with
  | none => return none
  | some l =>
      if l.type.isPointer then return some (.mem l.slot)
      else
        complain line (.notAPointer name l.type)
        return none

/-- An assignment through a pointer. -/
def pointerAssignment : CompileM Code := do
  let line ← line
  advance
  let name ← expectIdent
  let pointer? ← pointerOperand line name
  expect .assign "`=`"
  let code ← assignment (return pointer?.map .pointee)
  expect .semicolon "`;`"
  return code

/-- A return, which ends the process. -/
def returnStatement : CompileM Code := do
  advance
  if ← accept .semicolon then return .exit (.imm 0)
  else
    let value ← expression
    expect .semicolon "`;`"
    return value.code ++ .exit value.operand

/-- A system call whose result is not used. -/
def syscallStatement : CompileM Code := do
  let code ← openSyscall
  expect .semicolon "`;`"
  return code ++ .instr .popa []

/-- The variable that an assignment to a name stores into. A string constant
cannot be assigned to. -/
def assignedVariable (line : Nat) (name : String) (isConstant : Bool) :
    CompileM (Option Place) := do
  if isConstant then return none
  match ← findVariable line name with
  | some l => return some (.slot l.slot)
  | none => return none

/-- Expressions behind commas, at most as many as given. -/
def moreArguments : Nat → CompileM (List Value)
  | 0 => return []
  | fuel + 1 => do
      if ← accept .comma then
        let value ← expression
        return value :: (← moreArguments fuel)
      else return []

/-- The arguments of a call, between its parentheses. -/
def arguments : CompileM (List Value) := do
  if (← peek) = .rparen then return []
  else
    let first ← expression
    return first :: (← moreArguments (← remaining))

/-- Code that pushes arguments, the last one first. -/
def pushArguments (values : List Value) : Code :=
  ⟨values.reverse.flatMap fun v => (v.code ++ .instr .push [v.operand]).items⟩

/-- Code that pushes or pops registers. -/
def eachReg (op : Mnemonic) (regs : List Reg) : Code :=
  ⟨regs.map fun r => .instr ⟨op, [.reg r]⟩⟩

/-- Code of a call to the library: the registers that it may change are saved,
and the caller removes the arguments. -/
def libraryCall (name : String) (values : List Value) : Code :=
  let cleanup : Code :=
    if values.isEmpty then {}
    else .instr .add [.reg .esp, .imm (values.length * Abi.wordSize)]
  eachReg .push Abi.callerSaved ++ pushArguments values ++ .instr .call [.label name] ++
    cleanup ++ eachReg .pop Abi.callerSaved.reverse

/-- Whether the settings rule out a call to a function outside the program. -/
def isUndefined (c : Compiler) (name : String) : Bool :=
  match c.options.externs with
  | some table => !table.contains name
  | none => false

/-- The code of a call with its arguments. -/
def callCode (line : Nat) (name : String) (values : List Value) : CompileM Code := do
  let c ← get
  if c.functions.contains name then
    if !values.isEmpty then complain line (.takesNoArguments name)
    return .instr .call [.label (functionLabel name)]
  else if isReserved name then
    complain line (.reservedFunction name)
    return {}
  else if isUndefined c name then
    complain line (.undefinedFunction name)
    return {}
  else if Abi.maxCallArguments < values.length then
    complain line (.tooManyArguments name values.length)
    return {}
  else return libraryCall name values

/-- A call behind its opening parenthesis. -/
def callStatement (line : Nat) (name : String) : CompileM Code := do
  let values ← arguments
  expect .rparen "`)`"
  expect .semicolon "`;`"
  callCode line name values

/-- An assignment behind the name of its variable. -/
def variableAssignment (line : Nat) (name : String) : CompileM Code := do
  expect .assign "`=` or `(`"
  let isConstant := (← get).isString name
  if isConstant then complain line (.assignedConstant name)
  let code ← assignment (assignedVariable line name isConstant)
  expect .semicolon "`;`"
  return code

/-- A statement that starts with a name: a call or an assignment. -/
def nameStatement (line : Nat) (name : String) : CompileM Code := do
  advance
  if ← accept .lparen then callStatement line name else variableAssignment line name

/-- The number of a new branch. -/
def newBranch : CompileM Nat :=
  modifyGet fun c => (c.ifCount, { c with ifCount := c.ifCount + 1 })

/-- The number of a new loop. -/
def newLoop : CompileM Nat :=
  modifyGet fun c => (c.whileCount, { c with whileCount := c.whileCount + 1 })

/-- The code that compares the two sides of a condition in parentheses. -/
def condition (comparison : TokenKind) (what : String) : CompileM Code := do
  expect .lparen "`(`"
  let lhs ← primary
  expect comparison what
  let rhs ← primary
  expect .rparen "`)`"
  return .compare lhs rhs

/-- A branch: the first block runs if the two sides differ. -/
def ifStatement (block : CompileM Code) : CompileM Code := do
  advance
  let n ← newBranch
  let elseLabel := "else_" ++ toString n
  let endLabel := "endif_" ++ toString n
  let test ← condition .notEqual "`!=`"
  let first ← block
  let front := test ++ .instr .je [.label elseLabel] ++ first
  if ← accept .kwElse then
    let second ← block
    return front ++ .instr .jmp [.label endLabel] ++ .label elseLabel ++ second ++
      .label endLabel
  else return front ++ .label elseLabel ++ .label endLabel

/-- A loop: the block runs as long as the first side is below the second. -/
def whileStatement (block : CompileM Code) : CompileM Code := do
  advance
  let n ← newLoop
  let loopLabel := "loop_" ++ toString n
  let endLabel := "end_" ++ toString n
  let test ← condition .less "`<`"
  let body ← block
  return .label loopLabel ++ test ++ .instr .jge [.label endLabel] ++ body ++
    .instr .jmp [.label loopLabel] ++ .label endLabel

/-- A statement, given the compiler of nested blocks. -/
def statementWith (block : CompileM Code) : CompileM Code := do
  let line ← line
  match ← peek with
  | .kwInt | .kwChar => declaration
  | .star => pointerAssignment
  | .kwReturn => returnStatement
  | .kwIf => ifStatement block
  | .kwWhile => whileStatement block
  | .kwSyscall => syscallStatement
  | .lbrace => block
  | .ident name => nameStatement line name
  | .kwMain => nameStatement line "main"
  | _ => unexpected "statement"

/-- Statements up to the closing brace, at most as many as given. A broken
statement is reported and skipped. -/
def statements (one : CompileM Code) : Nat → CompileM Code
  | 0 => return {}
  | fuel + 1 => do
      match ← peek with
      | .rbrace =>
          advance
          return {}
      | .eof =>
          report ((← get).cursor.expected "`\x7d`")
          return {}
      | _ =>
          let first ← tryCatch one fun d => do
            report d
            synchronize
            return {}
          return first ++ (← statements one fuel)

/-- A block with blocks nested in it up to a depth. -/
def blockAt : Nat → CompileM Code
  | 0 => return {}
  | depth + 1 => do
      expect .lbrace "`\x7b`"
      statements (statementWith (blockAt depth)) ((← remaining) + 1)

/-- A block. Every nested block takes a token, so the tokens left bound the
depth. -/
def block : CompileM Code := do
  blockAt ((← remaining) + 1)

/-- A statement. -/
def statement : CompileM Code :=
  statementWith block

end Ia32.C.CompileM
