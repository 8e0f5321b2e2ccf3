import Mathlib
import Ia32.C.Program

/-!
# Programs as trees

The compiler never builds a tree: it generates code while it reads. Here is what
it reads, with the tokens that spell each construct and the code that stands for
it. A `Piece` collects what a stretch of source contributes to a compilation, in
the order in which the compiler comes across it.
-/

namespace Ia32.C

/-! ### Constructs of the language -/

/-- A number or a name. -/
inductive Primary where
  | number (value : Nat)
  | named (name : String)
  deriving DecidableEq, Repr

/-- A primary followed by additions of numbers. -/
structure Expr where
  first : Primary
  addends : List Nat := []
  deriving DecidableEq, Repr

/-- A system call. There are only as many arguments as registers for them. -/
structure Trap where
  number : Nat
  arguments : List Expr
  length_arguments : arguments.length ≤ Abi.syscallArguments.length
  deriving DecidableEq, Repr

/-- The right-hand side of an assignment. -/
inductive Rhs where
  | expr (e : Expr)
  | trap (t : Trap)
  deriving DecidableEq, Repr

/-- A statement without statements inside. -/
inductive Simple where
  | declare (type : CType) (name : String)
  | constant (type : CType) (name content : String)
  | declareWith (type : CType) (name : String) (value : Rhs)
  | assign (name : String) (value : Rhs)
  | storeThrough (pointer : String) (value : Rhs)
  | exit (status : Option Expr)
  | trap (t : Trap)
  | call (function : String) (arguments : List Expr)
  deriving DecidableEq, Repr

/-- The two sides of a condition. -/
structure Test where
  left : Primary
  right : Primary
  deriving DecidableEq, Repr

/-- The statements between two braces: the first one, and the rest. -/
inductive Body where
  | done
  | simple (s : Simple) (rest : Body)
  | block (inner rest : Body)
  | ifThen (test : Test) (inner rest : Body)
  | ifElse (test : Test) (first second rest : Body)
  | loop (test : Test) (inner rest : Body)
  deriving DecidableEq, Repr

/-- Statements one after another. -/
def Body.append : Body → Body → Body
  | .done, other => other
  | .simple s rest, other => .simple s (rest.append other)
  | .block inner rest, other => .block inner (rest.append other)
  | .ifThen test inner rest, other => .ifThen test inner (rest.append other)
  | .ifElse test first second rest, other => .ifElse test first second (rest.append other)
  | .loop test inner rest, other => .loop test inner (rest.append other)

/-- A function. -/
structure Function where
  returnsInt : Bool
  name : String
  body : Body
  deriving DecidableEq, Repr

/-- The functions of a source text. -/
abbrev Program := List Function

/-! ### What a construct contributes -/

/-- What a stretch of source contributes to a compilation. -/
structure Piece where
  tokens : List TokenKind := []
  /-- Names looked up as variables or constants, in order. -/
  names : List String := []
  /-- String constants with their texts. -/
  constants : List (String × String) := []
  /-- Called functions with the numbers of arguments. -/
  calls : List (String × Nat) := []
  branches : Nat := 0
  loops : Nat := 0
  /-- Names declared as variables or assigned to. -/
  written : List String := []

namespace Piece

/-- One piece behind another. -/
instance : Append Piece where
  append p q := ⟨p.tokens ++ q.tokens, p.names ++ q.names, p.constants ++ q.constants,
    p.calls ++ q.calls, p.branches + q.branches, p.loops + q.loops, p.written ++ q.written⟩

/-- Tokens and nothing else. -/
def spelled (tokens : List TokenKind) : Piece := { tokens := tokens }

/-- The lookup of a name. -/
def looked (name : String) : Piece := { names := [name] }

/-- The lookup of a name that must be a variable. -/
def assigned (name : String) : Piece := { names := [name], written := [name] }

/-- Pieces one after another. -/
def joined (pieces : List Piece) : Piece :=
  pieces.foldr (· ++ ·) {}

/-- A piece between braces. -/
def braced (p : Piece) : Piece :=
  spelled [.lbrace] ++ p ++ spelled [.rbrace]

end Piece

open Piece

/-- The token of a name at the start of a statement or of a function. -/
def nameToken (name : String) : TokenKind :=
  if name = "main" then .kwMain else .ident name

/-- The tokens of a type. -/
def CType.tokens (type : CType) : List TokenKind :=
  (if type.isChar then .kwChar else .kwInt) :: (if type.isPointer then [.star] else [])

def Primary.piece : Primary → Piece
  | .number value => spelled [.number value]
  | .named name => spelled [.ident name] ++ looked name

def Expr.piece (e : Expr) : Piece :=
  e.first.piece ++ spelled (e.addends.flatMap fun value => [.plus, .number value])

/-- Expressions, each behind a comma. -/
def furtherArguments (arguments : List Expr) : Piece :=
  joined (arguments.map fun e => spelled [.comma] ++ e.piece)

/-- Expressions with commas between them. -/
def argumentList : List Expr → Piece
  | [] => {}
  | e :: rest => e.piece ++ furtherArguments rest

def Trap.piece (t : Trap) : Piece :=
  spelled [.kwSyscall, .lparen, .number t.number] ++ furtherArguments t.arguments ++
    spelled [.rparen]

def Rhs.piece : Rhs → Piece
  | .expr e => e.piece
  | .trap t => t.piece

def Simple.piece : Simple → Piece
  | .declare type name => spelled (type.tokens ++ [.ident name, .semicolon]) ++ assigned name
  | .constant type name content =>
      spelled (type.tokens ++ [.ident name, .assign, .text content, .semicolon]) ++
        { constants := [(name, content)] }
  | .declareWith type name value =>
      spelled (type.tokens ++ [.ident name, .assign]) ++ (value.piece ++ assigned name) ++
        spelled [.semicolon]
  | .assign name value =>
      spelled [nameToken name, .assign] ++ (value.piece ++ assigned name) ++ spelled [.semicolon]
  | .storeThrough pointer value =>
      spelled [.star, .ident pointer] ++ looked pointer ++ spelled [.assign] ++ value.piece ++
        spelled [.semicolon]
  | .exit none => spelled [.kwReturn, .semicolon]
  | .exit (some e) => spelled [.kwReturn] ++ e.piece ++ spelled [.semicolon]
  | .trap t => t.piece ++ spelled [.semicolon]
  | .call name arguments =>
      spelled [nameToken name, .lparen] ++ argumentList arguments ++
        spelled [.rparen, .semicolon] ++ { calls := [(name, arguments.length)] }

/-- A condition in parentheses with its comparison. -/
def Test.piece (comparison : TokenKind) (test : Test) : Piece :=
  spelled [.lparen] ++ test.left.piece ++ spelled [comparison] ++ test.right.piece ++
    spelled [.rparen]

def Body.piece : Body → Piece
  | .done => {}
  | .simple s rest => s.piece ++ rest.piece
  | .block inner rest => inner.piece.braced ++ rest.piece
  | .ifThen test inner rest =>
      spelled [.kwIf] ++ { branches := 1 } ++ test.piece .notEqual ++ inner.piece.braced ++
        rest.piece
  | .ifElse test first second rest =>
      spelled [.kwIf] ++ { branches := 1 } ++ test.piece .notEqual ++ first.piece.braced ++
        spelled [.kwElse] ++ second.piece.braced ++ rest.piece
  | .loop test inner rest =>
      spelled [.kwWhile] ++ { loops := 1 } ++ test.piece .less ++ inner.piece.braced ++ rest.piece

def Function.piece (f : Function) : Piece :=
  spelled [if f.returnsInt then .kwInt else .kwVoid, nameToken f.name, .lparen, .rparen] ++
    f.body.piece.braced

/-- The names of the functions. -/
def Program.functions (p : Program) : List String :=
  p.map Function.name

/-- The tokens that spell a program. -/
def Program.tokens (p : Program) : List TokenKind :=
  (joined (p.map Function.piece)).tokens

/-- The string constants of a program. -/
def Program.constants (p : Program) : List (String × String) :=
  (joined (p.map Function.piece)).constants

/-! ### The code of a construct -/

/-- What the names in a function stand for: string constants, and variables in
the order of their words. -/
structure Frame where
  constants : List String
  locals : List String
  deriving DecidableEq, Repr

namespace Frame

/-- The word of a variable. -/
def slot (frame : Frame) (name : String) : Mem :=
  Locals.slotAt (frame.locals.idxOf name)

/-- The operand of a name. -/
def operand (frame : Frame) (name : String) : Operand String :=
  if name ∈ frame.constants then .label name else .mem (frame.slot name)

/-- Bytes of the variables. -/
def size (frame : Frame) : Nat :=
  frame.locals.length * Abi.wordSize

end Frame

def Primary.operand (frame : Frame) : Primary → Operand String
  | .number value => .imm value
  | .named name => frame.operand name

/-- Code that adds numbers to the accumulator. -/
def additionCode (addends : List Nat) : Code :=
  ⟨addends.map fun (value : Nat) => .instr ⟨.add, [.reg Abi.accumulator, .imm value]⟩⟩

def Expr.value (frame : Frame) (e : Expr) : Value :=
  if e.addends.isEmpty then ⟨e.first.operand frame, {}⟩
  else ⟨.reg Abi.accumulator,
    .instr .mov [.reg Abi.accumulator, e.first.operand frame] ++ additionCode e.addends⟩

/-- Code that puts the arguments of a system call into registers. -/
def argumentCode (frame : Frame) : List Reg → List Expr → Code
  | r :: regs, e :: rest =>
      (e.value frame).code ++ .instr .mov [.reg r, (e.value frame).operand] ++
        argumentCode frame regs rest
  | _, _ => {}

/-- The code of a system call up to the trap. -/
def Trap.code (frame : Frame) (t : Trap) : Code :=
  .instr .pusha [] ++ argumentCode frame Abi.syscallArguments t.arguments ++
    .instr .mov [.reg Abi.syscallNumber, .imm t.number] ++
    .instr .int [.imm Abi.syscallVector]

/-- Code that stores a right-hand side into a place. -/
def Rhs.code (frame : Frame) (place : Place) : Rhs → Code
  | .expr e => (e.value frame).code ++ .store place (e.value frame).operand
  | .trap t => t.code frame ++ .store place (.reg Abi.accumulator) ++ .instr .popa []

def Simple.code (functions : List String) (frame : Frame) : Simple → Code
  | .declare _ _ | .constant _ _ _ => {}
  | .declareWith _ name value | .assign name value => value.code frame (.slot (frame.slot name))
  | .storeThrough pointer value => value.code frame (.pointee (frame.operand pointer))
  | .exit none => .exit (.imm 0)
  | .exit (some e) => (e.value frame).code ++ .exit (e.value frame).operand
  | .trap t => t.code frame ++ .instr .popa []
  | .call name arguments =>
      if functions.contains name then .instr .call [.label (functionLabel name)]
      else CompileM.libraryCall name (arguments.map (Expr.value frame))

def Test.code (frame : Frame) (test : Test) : Code :=
  .compare (test.left.operand frame) (test.right.operand frame)

/-- The code of statements. The branches and loops in front of them are counted
by `n` and `m`. -/
def Body.code (functions : List String) (frame : Frame) (n m : Nat) : Body → Code
  | .done => {}
  | .simple s rest => s.code functions frame ++ rest.code functions frame n m
  | .block inner rest =>
      inner.code functions frame n m ++
        rest.code functions frame (n + inner.piece.branches) (m + inner.piece.loops)
  | .ifThen test inner rest =>
      test.code frame ++ .instr .je [.label ("else_" ++ toString n)] ++
        inner.code functions frame (n + 1) m ++ .label ("else_" ++ toString n) ++
        .label ("endif_" ++ toString n) ++
        rest.code functions frame (n + 1 + inner.piece.branches) (m + inner.piece.loops)
  | .ifElse test first second rest =>
      test.code frame ++ .instr .je [.label ("else_" ++ toString n)] ++
        first.code functions frame (n + 1) m ++ .instr .jmp [.label ("endif_" ++ toString n)] ++
        .label ("else_" ++ toString n) ++
        second.code functions frame (n + 1 + first.piece.branches) (m + first.piece.loops) ++
        .label ("endif_" ++ toString n) ++
        rest.code functions frame (n + 1 + first.piece.branches + second.piece.branches)
          (m + first.piece.loops + second.piece.loops)
  | .loop test inner rest =>
      .label ("loop_" ++ toString m) ++ test.code frame ++
        .instr .jge [.label ("end_" ++ toString m)] ++ inner.code functions frame n (m + 1) ++
        .instr .jmp [.label ("loop_" ++ toString m)] ++ .label ("end_" ++ toString m) ++
        rest.code functions frame (n + inner.piece.branches) (m + 1 + inner.piece.loops)

/-- A function with what the functions up to it contribute: the names of the
constants declared in them and in the function itself, and the branches and loops in
front of it. -/
structure Routine where
  function : Function
  constants : List String
  branches : Nat
  loops : Nat
  deriving DecidableEq, Repr

namespace Routine

/-- The frame of a function. Every name that is no constant is a variable. -/
def frame (r : Routine) : Frame :=
  ⟨r.constants, (r.function.body.piece.names.filter (· ∉ r.constants)).foldl insertName []⟩

/-- The code of a function. -/
def code (functions : List String) (r : Routine) : Code :=
  CompileM.functionCode r.function.name r.frame.size
    (r.function.body.code functions r.frame r.branches r.loops)

end Routine

namespace Program

/-- Functions behind others that contribute constants, branches and loops. -/
def routinesFrom (constants : List String) (n m : Nat) : Program → List Routine
  | [] => []
  | f :: rest =>
      let constants := constants ++ f.body.piece.constants.map Prod.fst
      ⟨f, constants, n, m⟩ ::
        routinesFrom constants (n + f.body.piece.branches) (m + f.body.piece.loops) rest

/-- The functions of a program with what precedes them. -/
def routines (p : Program) : List Routine :=
  routinesFrom [] 0 0 p

/-- The code of functions one after another. -/
def codeOf (functions : List String) (routines : List Routine) : Code :=
  ⟨routines.flatMap fun r => (r.code functions).items⟩

/-- The code of a program. -/
def code (p : Program) : Code :=
  codeOf p.functions p.routines

end Program

/-! ### Rules of the language -/

/-- A call of a function in the program has no arguments. Any other call is to the
library, which must have the function if the settings list it. -/
def Options.Admits (options : Options) (functions : List String) (call : String × Nat) : Prop :=
  if functions.contains call.1 then call.2 = 0
  else isReserved call.1 = false ∧ (∀ table, options.externs = some table → table.contains call.1) ∧
    call.2 ≤ Abi.maxCallArguments

/-- The rules for one function. -/
structure Routine.Legal (options : Options) (functions : List String) (r : Routine) : Prop where
  returnsInt : r.function.returnsInt → r.function.name = "main"
  name : isReserved r.function.name = false
  calls : ∀ call ∈ r.function.body.piece.calls, options.Admits functions call
  written : ∀ name ∈ r.function.body.piece.written, name ∉ r.constants
  locals : r.frame.locals.length ≤ options.limits.symbols

/-- The rules for a program: its labels can be told apart. -/
structure Program.Legal (options : Options) (p : Program) : Prop where
  functions : p.functions.Nodup
  constants : (p.constants.map Prod.fst).Nodup
  labels : ∀ name ∈ p.constants.map Prod.fst, isReserved name = false ∧ name ∉ p.functions
  routines : ∀ r ∈ p.routines, r.Legal options p.functions

end Ia32.C
