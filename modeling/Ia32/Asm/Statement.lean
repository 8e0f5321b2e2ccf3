import Ia32.Asm.Number
import Ia32.Instruction

/-!
# Statements of assembly text

A statement selects a section, stores bytes, or is an instruction. Reading one
succeeds, or says why the text is refused, or overflows in the middle of a
number.
-/

namespace Ia32.Asm

/-- The sections of a program. -/
inductive Section where
  | text
  | data
  deriving DecidableEq, Repr

/-- The written name of a section. -/
def Section.name : Section → String
  | .text => "text"
  | .data => "data"

/-- A statement. -/
inductive Statement where
  | select (s : Section)
  | instr (i : Instr String)
  | bytes (b : Bytes)
  deriving DecidableEq, Repr

/-- The reasons why a statement is refused. -/
inductive Refusal where
  | notABase (text : String)
  | unreadableDisplacement (text : String)
  | displacementOutOfRange (value : Int)
  | unreadableOperand (text : String)
  | unknownSection (text : String)
  | noBytes
  | byteOutOfRange (value : Int)
  | unreadableByte (text : String)
  | unknownOperation (text : String)
  | wrongArity (op : Mnemonic) (found : Nat)
  | unterminatedString
  | emptyOperand
  deriving DecidableEq, Repr

/-- The complaint about a refused statement. -/
def Refusal.message : Refusal → String
  | .notABase text => "`" ++ text ++ "` is not a base register"
  | .unreadableDisplacement text => "Cannot parse `" ++ text ++ "` as displacement"
  | .displacementOutOfRange v => "Displacement out of range: " ++ toString v
  | .unreadableOperand text => "Cannot parse `" ++ text ++ "` as operand"
  | .unknownSection text => "Unknown section: `" ++ text ++ "`"
  | .noBytes => "`db` needs at least one value"
  | .byteOutOfRange v => "Byte value out of range: " ++ toString v
  | .unreadableByte text => "Cannot parse `" ++ text ++ "` as byte"
  | .unknownOperation text => "Unknown operation: `" ++ text ++ "`"
  | .wrongArity op found =>
      "`" ++ op.name ++ "` takes " ++ toString op.arity ++ " operand(s), got " ++ toString found
  | .unterminatedString => "Unterminated string"
  | .emptyOperand => "Empty operand"

/-- Readers of statements: a value or a refusal, unless a number overflows. -/
abbrev Reading := ExceptT Refusal Checked

/-- Drops a size in front of an operand, `dword` or `dword ptr`: every access is
a word wide. -/
def dropSize (s : List Char) : List Char :=
  if Text.lower (s.take 5) = "dword".toList ∧ Text.startsBlank (s.drop 5) then
    let rest := Text.trimStart (s.drop 5)
    if Text.lower (rest.take 3) = "ptr".toList ∧ Text.startsBlank (rest.drop 3) then
      Text.trimStart (rest.drop 3)
    else rest
  else s

/-- Whether a character separates a base register from its displacement. -/
def isSign (c : Char) : Bool :=
  c == '+' || c == '-'

/-- Splits the inside of a memory operand in front of its first sign; a sign in
front of everything does not count. -/
def splitDisplacement (s : List Char) : List Char × List Char :=
  let base := s.takeWhile (!isSign ·)
  if base.isEmpty then (s, []) else (base, s.dropWhile (!isSign ·))

/-- Reads a displacement with its sign; there may be none. -/
def readDisplacement (s : List Char) : Reading Int32 := do
  if s.isEmpty then return 0
  match ← number? ((Text.dropFirst? '+' s).getD s) with
  | none => throw (.unreadableDisplacement (String.ofList s))
  | some v =>
      if -2147483648 ≤ v ∧ v ≤ 2147483647 then return Int32.ofInt v
      else throw (.displacementOutOfRange v)

/-- Reads the inside of a memory operand; blanks do not count. -/
def readMem (inner : List Char) : Reading Mem := do
  let (base, disp) := splitDisplacement (inner.filter (!Text.isBlank ·))
  match Reg.ofName? base with
  | none => throw (.notABase (String.ofList base))
  | some r => return ⟨r, ← readDisplacement disp⟩

/-- Reads an operand: a place in brackets, a register, a number or a label. -/
def readOperand (text : List Char) : Reading (Operand String) := do
  let s := dropSize (Text.trim text)
  match between? '[' ']' s, Reg.ofName? s with
  | some inner, _ => return .mem (← readMem inner)
  | none, some r => return .reg r
  | none, none =>
      match ← number? s with
      | some v => return .imm v
      | none =>
          if isName s then return .label (String.ofList s)
          else throw (.unreadableOperand (String.ofList s))

/-- Reads operands from left to right, up to the first that is refused. -/
def readOperands : List (List Char) → Reading (List (Operand String))
  | [] => return []
  | s :: rest => return (← readOperand s) :: (← readOperands rest)

/-- Tracks quotes: the quote that is open after one more character. -/
def nextQuote (open? : Option Char) (c : Char) : Option Char :=
  match open? with
  | some q => if c = q then none else some q
  | none => if c = '\'' ∨ c = '"' then some c else none

/-- The text in front of a comment, which starts at a semicolon outside quotes. -/
def dropComment (open? : Option Char) : List Char → List Char
  | [] => []
  | c :: rest =>
      if open? = none ∧ c = ';' then [] else c :: dropComment (nextQuote open? c) rest

/-- The nesting of brackets after one more character outside quotes. -/
def nextDepth (depth : Int) (c : Char) : Int :=
  if c = '[' then depth + 1 else if c = ']' then depth - 1 else depth

/-- Splits at commas outside quotes and brackets. The result is the pieces, and
whether a quote is left open at the end. -/
def splitCommas (open? : Option Char) (depth : Int) : List Char → List (List Char) × Bool
  | [] => ([[]], open?.isSome)
  | c :: rest =>
      if open? = none ∧ c = ',' ∧ depth = 0 then
        let (pieces, unclosed) := splitCommas none 0 rest
        ([] :: pieces, unclosed)
      else
        let depth := if open?.isSome then depth else nextDepth depth c
        match splitCommas (nextQuote open? c) depth rest with
        | ([], unclosed) => ([[c]], unclosed)
        | (piece :: pieces, unclosed) => ((c :: piece) :: pieces, unclosed)

/-- The operands of a statement, trimmed; none may be empty. -/
def splitOperands (s : List Char) : Reading (List (List Char)) := do
  if (Text.trim s).isEmpty then return []
  let (pieces, unclosed) := splitCommas none 0 s
  let items := pieces.map Text.trim
  if unclosed then throw .unterminatedString
  else if items.any List.isEmpty then throw .emptyOperand
  else return items

/-- The inside of a string in single or double quotes. -/
def unquote? (s : List Char) : Option (List Char) :=
  let s := Text.trim s
  match between? '\'' '\'' s with
  | some inner => some inner
  | none => between? '"' '"' s

/-- The bytes of one item: those of a string as they are, or one byte given by a
number. -/
def readItem (item : List Char) : Reading Bytes := do
  match unquote? item with
  | some inner => return utf8Bytes (String.ofList inner)
  | none =>
      match ← number? item with
      | none => throw (.unreadableByte (String.ofList item))
      | some v =>
          if -128 ≤ v ∧ v ≤ 255 then return [byteOfInt v] else throw (.byteOutOfRange v)

/-- The bytes of items, one after another. -/
def readItems : List (List Char) → Reading Bytes
  | [] => return []
  | item :: rest => return (← readItem item) ++ (← readItems rest)

/-- Reads the items of a `db` statement. A zero byte ends them if one of them is
a string. -/
def readBytes (tail : List Char) : Reading Bytes := do
  let items ← splitOperands tail
  if items.isEmpty then throw .noBytes
  let bytes ← readItems items
  return if items.any fun item => (unquote? item).isSome then bytes ++ [0] else bytes

/-- Reads the name of a section. -/
def readSection (tail : List Char) : Reading Section :=
  if tail = ".text".toList then return .text
  else if tail = ".data".toList then return .data
  else throw (.unknownSection (String.ofList tail))

/-- Reads an instruction from the name of its operation and the rest. -/
def readInstr (head tail : List Char) : Reading (Instr String) := do
  match Mnemonic.ofName? head with
  | none => throw (.unknownOperation (String.ofList head))
  | some op =>
      let args ← readOperands (← splitOperands tail)
      if args.length = op.arity then return ⟨op, args⟩
      else throw (.wrongArity op args.length)

/-- Reads a statement, trimmed and without label and comment; there may be none. -/
def Statement.read (code : List Char) : Reading (Option Statement) := do
  let head := code.takeWhile (!Text.isBlank ·)
  let tail := Text.trim (code.dropWhile (!Text.isBlank ·))
  if head.isEmpty then return none
  else if Text.lower head = "section".toList then return some (.select (← readSection tail))
  else if Text.lower head = "db".toList then return some (.bytes (← readBytes tail))
  else return some (.instr (← readInstr head tail))

end Ia32.Asm
