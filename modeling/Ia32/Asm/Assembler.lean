import Ia32.Asm.Assembly
import Ia32.Asm.Line
import Ia32.SymbolTable

/-!
# The assembler

Two passes over the same lines. The first one, `layout`, defines every label
and measures every line; the second one, `emit`, encodes the lines with every
label known. The state between the passes is an `Assembler`, which can be laid
out again: labels and remarks are kept, sizes and lengths start anew.

Offsets and lengths are words on the machine and natural numbers here. The two
agree as long as both sections stay below 4 GiB.
-/

namespace Ia32.Asm

/-- The capacities of an assembler. -/
structure Limits where
  labels : Nat := 4096
  code : Nat := 1048576
  data : Nat := 1048576
  deriving DecidableEq, Repr

/-- The settings of an assembler. -/
structure Config where
  layout : Abi.Layout := {}
  /-- The label at which the program starts. -/
  entry : String := Abi.entryLabel
  limits : Limits := {}
  deriving DecidableEq, Repr

/-- The state of an assembler between its passes. -/
structure Assembler where
  config : Config
  labels : Labels
  diagnostics : List Diagnostic := []
  /-- The size of every line laid out, if it emits anything. -/
  sizes : Array (Option Nat) := #[]
  codeLength : Nat := 0
  dataLength : Nat := 0

namespace Assembler

/-- An assembler before its first pass. -/
def ofConfig (config : Config) : Assembler where
  config := config
  labels := { capacity := config.limits.labels }

/-- Bytes laid out so far in a section. -/
def lengthOf (a : Assembler) : Section → Nat
  | .text => a.codeLength
  | .data => a.dataLength

/-- Adds a remark. -/
def report (a : Assembler) (d : Diagnostic) : Assembler :=
  { a with diagnostics := a.diagnostics ++ [d] }

/-! ### First pass -/

/-- Steps of the first pass; a fatal condition keeps what was laid out before it. -/
abbrev LayoutM := EStateM Error Assembler

/-- The remark about a name that is defined again. -/
def redefined (name : String) (line : Nat) (previous : Label) : Diagnostic :=
  ⟨.warning, line, "Re-defined label: `" ++ name ++ "`, keeping the definition on line " ++
    toString previous.line⟩

/-- Defines the label of a line at the end of the section laid out so far. -/
def defineLabel (sect : Section) (line : Line) : LayoutM Unit := do
  match line.label with
  | none => return
  | some name =>
      let a ← get
      match a.labels.define name ⟨sect, a.lengthOf sect, line.number⟩ with
      | .error e => throw e
      | .ok (labels, previous?) =>
          modify fun a => { a with labels := labels }
          match previous? with
          | none => return
          | some previous => modify fun a => a.report (redefined name line.number previous)

/-- The section behind a line. -/
def nextSection (sect : Section) (line : Line) : Section :=
  match line.statement with
  | some (.select s) => s
  | _ => sect

/-- The size of a line in a section: nothing, a number of bytes, or a complaint. -/
def measure (sect : Section) (line : Line) : Except String (Option Nat) :=
  match line.statement with
  | none | some (.select _) => .ok none
  | some (.bytes b) => .ok (some b.length)
  | some (.instr i) =>
      if sect = .data then .error "Instruction in data section"
      else
        match i.size with
        | .ok size => .ok (some size)
        | .error e => .error e.message

/-- Extends a section by a number of bytes. -/
def extend (sect : Section) (size : Nat) : LayoutM Unit := do
  let a ← get
  let length := a.lengthOf sect + size
  match sect with
  | .text =>
      if a.config.limits.code < length then throw (.codeOverflow length)
      else set { a with codeLength := length }
  | .data =>
      if a.config.limits.data < length then throw (.dataOverflow length)
      else set { a with dataLength := length }

/-- Lays out a line that starts in a section. -/
def layoutLine (sect : Section) (line : Line) : LayoutM Unit := do
  defineLabel sect line
  match measure sect line with
  | .error complaint =>
      modify fun a => a.report ⟨.semantic, line.number, complaint⟩
      modify fun a => { a with sizes := a.sizes.push none }
  | .ok none => modify fun a => { a with sizes := a.sizes.push none }
  | .ok (some size) =>
      extend sect size
      modify fun a => { a with sizes := a.sizes.push (some size) }

/-- Lays out lines, the first of which starts in a section. -/
def layoutLines (sect : Section) : List Line → LayoutM Unit
  | [] => return
  | line :: rest => do
      layoutLine sect line
      layoutLines (nextSection sect line) rest

/-- The first pass. -/
def layout (lines : List Line) : LayoutM Unit := do
  modify fun a => { a with sizes := #[], codeLength := 0, dataLength := 0 }
  layoutLines .text lines

/-! ### Second pass -/

/-- What the second pass knows about names. -/
structure Scope where
  labels : Labels
  externs : SymbolTable
  textBase : UInt32
  dataBase : UInt32

/-- What a name stands for. -/
inductive Resolution where
  | internal (addr : UInt32)
  | external (addr : UInt32)
  | undefined
  deriving DecidableEq, Repr

/-- The address of a resolved name; an undefined name stands for zero. -/
def Resolution.address : Resolution → UInt32
  | .internal addr | .external addr => addr
  | .undefined => 0

/-- Resolves a name: labels of the program come before external symbols. -/
def Scope.resolve (scope : Scope) (name : String) : Checked Resolution := do
  match ← scope.labels.address? name scope.textBase scope.dataBase with
  | some addr => return .internal addr
  | none =>
      match scope.externs.lookup? name with
      | some addr => return .external addr
      | none => return .undefined

/-- Resolves names in order. -/
def Scope.resolveAll (scope : Scope) : List String → Checked (List (String × Resolution))
  | [] => .ok []
  | name :: rest => do
      let resolution ← scope.resolve name
      return (name, resolution) :: (← scope.resolveAll rest)

/-- The address of a name among those resolved. -/
def addressIn (resolved : List (String × Resolution)) (name : String) : UInt32 :=
  match resolved.lookup name with
  | some resolution => resolution.address
  | none => 0

/-- The output of the second pass up to some line. -/
structure Emission where
  sect : Section := .text
  code : Array UInt8 := #[]
  data : Array UInt8 := #[]
  listing : Array Listed := #[]
  needsLibrary : Bool := false
  diagnostics : List Diagnostic

/-- The remark about a name that is not defined anywhere. -/
def undefinedName (line : Nat) (name : String) : Diagnostic :=
  ⟨.warning, line, "Undefined label: `" ++ name ++ "`, encoded as 0"⟩

/-- Emits bytes of a `db` line into the current section. -/
def emitBytes (scope : Scope) (e : Emission) (line : Line) (bytes : Bytes) :
    Except Error Emission :=
  match e.sect with
  | .text => do
      let addr ← ofChecked (Word.offset scope.textBase e.code.size)
      return { e with
        code := e.code ++ bytes
        listing := e.listing.push ⟨line.number, some addr, bytes, line.source⟩ }
  | .data => do
      let addr ← ofChecked (Word.offset scope.dataBase e.data.size)
      return { e with
        data := e.data ++ bytes
        listing := e.listing.push ⟨line.number, some addr, bytes, line.source⟩ }

/-- Emits an instruction, which must have the size found by the first pass. -/
def emitInstr (scope : Scope) (e : Emission) (line : Line) (i : Instr String) (expected : Nat) :
    Except Error Emission := do
  let offset := e.code.size
  let addr ← ofChecked (Word.offset scope.textBase offset)
  let resolved ← ofChecked (scope.resolveAll i.labels)
  let unknown := resolved.filter fun (_, resolution) => resolution == .undefined
  let library := resolved.any fun (_, resolution) =>
    match resolution with
    | .external _ => true
    | _ => false
  match (i.resolve (addressIn resolved)).encode addr with
  | .error cause => throw (.encoding cause)
  | .ok bytes =>
      if bytes.length = expected then
        return { e with
          code := e.code ++ bytes
          listing := e.listing.push ⟨line.number, some addr, bytes, line.source⟩
          needsLibrary := e.needsLibrary || library
          diagnostics := e.diagnostics ++
            unknown.map fun (name, _) => undefinedName line.number name }
      else throw (.phaseDrift (offset + expected) (offset + bytes.length))

/-- Emits a line with the size found by the first pass. A line without a size
emits nothing. -/
def emitLine (scope : Scope) (e : Emission) (line : Line) (size : Option Nat) :
    Except Error Emission :=
  match line.statement, size with
  | some (.bytes bytes), some _ => emitBytes scope e line bytes
  | some (.instr i), some expected => emitInstr scope e line i expected
  | _, _ =>
      .ok { e with
        sect := nextSection e.sect line
        listing := e.listing.push ⟨line.number, none, [], line.source⟩ }

/-- Emits lines with their sizes. -/
def emitLines (scope : Scope) : Emission → List (Line × Option Nat) → Except Error Emission
  | e, [] => .ok e
  | e, (line, size) :: rest => do emitLines scope (← emitLine scope e line size) rest

/-- The entry of a program, and a remark if its label is not in the code. -/
def findEntry (labels : Labels) (name : String) (lineCount : Nat) : Nat × List Diagnostic :=
  match labels.get? name with
  | some ⟨.text, offset, _⟩ => (offset, [])
  | some ⟨.data, _, line⟩ =>
      (0, [⟨.warning, line, "Entry label `" ++ name ++
        "` is in the data section, entry defaults to the start of code"⟩])
  | none =>
      (0, [⟨.warning, max lineCount 1, "Entry label `" ++ name ++
        "` not found, entry defaults to the start of code"⟩])

/-- The second pass. -/
def emit (a : Assembler) (lines : List Line) (externs : SymbolTable) : Except Error Assembly := do
  let textBase ← ofChecked a.config.layout.textBase
  let dataBase ← ofChecked (a.config.layout.dataBase a.codeLength)
  let scope : Scope := ⟨a.labels, externs, textBase, dataBase⟩
  let e ← emitLines scope { diagnostics := a.diagnostics } (lines.zip a.sizes.toList)
  if e.code.size ≠ a.codeLength then throw (.phaseDrift a.codeLength e.code.size)
  let (entry, remarks) := findEntry a.labels a.config.entry lines.length
  return {
    code := e.code.toList
    data := e.data.toList
    labels := a.labels
    needsLibrary := e.needsLibrary
    diagnostics := e.diagnostics ++ remarks
    listing := e.listing.toList
    layout := a.config.layout
    entry := entry }

end Assembler

/-- Assembles a source text. Problems of the source come back as remarks on the
program; only fatal conditions leave no program. -/
def assemble (source : String) (config : Config) (externs : SymbolTable) :
    Except Error Assembly := do
  let (lines, complaints) ← ofChecked (Line.readAll source)
  match Assembler.layout lines { Assembler.ofConfig config with diagnostics := complaints } with
  | .error e _ => throw e
  | .ok () a => a.emit lines externs

end Ia32.Asm
