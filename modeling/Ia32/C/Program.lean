import Ia32.C.Statement

/-!
# Programs

A program is a list of functions without parameters. Its compilation is the
assembly text of the functions behind that of the string constants, with all
remarks about the source.
-/

namespace Ia32.C

/-- A compiled source text. -/
structure Compilation where
  asm : String
  diagnostics : List Diagnostic
  /-- Defined functions in the order of the source. -/
  functions : List String
  deriving DecidableEq, Repr

/-- Whether the source has errors. -/
def Compilation.hasError (c : Compilation) : Bool :=
  Diagnostic.anyError c.diagnostics

namespace CompileM

/-- The name of a function, which must be here. -/
def functionName : CompileM String := do
  match ← peek with
  | .ident name =>
      advance
      return name
  | .kwMain =>
      advance
      return "main"
  | _ => unexpected "function name"

/-- The return type in front of a function; whether it is `int`. -/
def returnsInt : CompileM Bool := do
  match ← peek with
  | .kwVoid =>
      advance
      return false
  | .kwInt =>
      advance
      return true
  | _ => unexpected "function definition"

/-- Enters a function into the list of definitions, or says why not. -/
def defineFunction (line : Nat) (name : String) : CompileM Unit := do
  let c ← get
  if c.defined.contains name then complain line (.redefinition name)
  else if c.options.limits.functions ≤ c.defined.length then
    complain line (.tooManyFunctions c.options.limits.functions)
  else modify fun c => { c with defined := c.defined ++ [name] }

/-- Code that sets up a frame of some bytes. -/
def prologue (size : Nat) : Code :=
  .instr .push [.reg Abi.frame] ++ .instr .mov [.reg Abi.frame, .reg .esp] ++
    .instr .sub [.reg .esp, .imm size]

/-- Code that removes the frame. -/
def epilogue : Code :=
  .instr .mov [.reg .esp, .reg Abi.frame] ++ .instr .pop [.reg Abi.frame]

/-- The code of a function around its body. Only a function with variables has a
frame, and the entry function ends the process. -/
def functionCode (name : String) (frameSize : Nat) (body : Code) : Code :=
  let framed := if 0 < frameSize then prologue frameSize ++ body ++ epilogue else body
  let finish : Code := if name = "main" then .exit (.imm 0) else .instr .ret []
  .label (functionLabel name) ++ framed ++ finish

/-- The complaints about the head of a function, and its definition. -/
def declareFunction (line : Nat) (isInt : Bool) (name : String) : CompileM Unit := do
  if isInt && name != "main" then complain line (.notVoid name)
  if isReserved name then complain line (.reservedFunction name)
  defineFunction line name

/-- The head of a function, which names it. -/
def functionHead : CompileM String := do
  let line ← line
  let isInt ← returnsInt
  let name ← functionName
  expect .lparen "`(`"
  expect .rparen "`)`"
  declareFunction line isInt name
  return name

/-- A function. -/
def function : CompileM Code := do
  let name ← functionHead
  modify fun c => { c with locals := c.locals.clear }
  let body ← block
  return functionCode name (← get).locals.frameSize body

/-- Functions up to the end of the text, at most as many as given. A broken
function is reported and skipped. -/
def functions : Nat → CompileM Code
  | 0 => return {}
  | fuel + 1 => do
      if (← peek) = .eof then return {}
      else
        let first ← tryCatch function fun d => do
          report d
          synchronize
          let _ ← accept .rbrace
          return {}
        return first ++ (← functions fuel)

/-- All functions of a program. -/
def program : CompileM Code := do
  functions ((← remaining) + 1)

end CompileM

/-- The assembly text of string constants. -/
def dataSection (strings : List (String × String)) : String :=
  if strings.isEmpty then ""
  else
    "section .data\n" ++
      String.join (strings.map fun (name, content) => dataLine name content ++ "\n")

/-- The compilation of generated code. -/
def Compiler.finish (c : Compiler) (code : Code) : Compilation where
  asm := dataSection c.strings ++ "section .text\n" ++ code.render
  diagnostics := c.cursor.diagnostics
  functions := c.defined

/-- The code of an action that cannot be repeated, and the state behind it. A
diagnostic that stops it leaves no code. -/
def codeOf (action : CompileM Code) (c : Compiler) : Code × Compiler :=
  match action c with
  | .ok code c => (code, c)
  | .error _ c => ({}, c)

/-- Compiles a source text. -/
def compile (source : String) (options : Options) : Compilation :=
  let scan := Scan.ofSource source
  let (code, c) := codeOf CompileM.program (.ofScan scan options (collectFunctions scan))
  c.finish code

end Ia32.C
