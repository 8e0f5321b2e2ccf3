import Ia32.Asm.Assembler
import Ia32.Asm.Listing
import Ia32.Asm.SymbolMap
import Ia32.Command.Tool
import Ia32.Image.Writer

/-!
# The assembler as a command
-/

namespace Ia32.Command

/-- The command line of the assembler. -/
structure AssembleArgs where
  input : String
  output : String
  symbols : Option String
  config : Asm.Config
  dump : Bool
  map : Option String
  quiet : Bool

namespace AssembleArgs

/-- The switches of the assembler. -/
def switches : List Switch :=
  [{ long := "output", short := some 'o' },
    { long := "symbols", short := some 's' },
    { long := "entry", short := some 'e' },
    { long := "base" },
    { long := "max-labels" },
    { long := "dump", short := some 'd', takesValue := false },
    { long := "map", short := some 'm' },
    { long := "quiet", short := some 'q', takesValue := false }]

/-- Reads the command line of the assembler. -/
def read? (words : List String) : Option AssembleArgs := do
  let args ← Arguments.read? switches words
  let base ← args.address? "base" 0x400000
  let labels ← args.number? "max-labels" 4096
  return {
    input := args.word.getD "main.s"
    output := (args.value? "output").getD "main.elf"
    symbols := args.value? "symbols"
    config := {
      layout := ⟨base⟩
      entry := (args.value? "entry").getD Abi.entryLabel
      limits := { labels := labels } }
    dump := args.has "dump"
    map := args.value? "map"
    quiet := args.has "quiet" }

/-- The external symbols of the command. -/
def table (args : AssembleArgs) : Tool SymbolTable := do
  match args.symbols with
  | none => return {}
  | some path =>
      Tool.step args.quiet ("  < " ++ path)
      Tool.readTable path

/-- The line that says where the sections are. -/
def summary (asm : Asm.Assembly) (textBase dataBase : UInt32) : String :=
  "  code " ++ toString asm.code.length ++ " bytes @ 0x" ++ Text.hexUpper 8 textBase.toNat ++
    ", data " ++ toString asm.data.length ++ " bytes @ 0x" ++ Text.hexUpper 8 dataBase.toNat

/-- Writes the files of an assembled program, and prints what was asked for. -/
def finish (args : AssembleArgs) (asm : Asm.Assembly) : Tool Unit := do
  let step := Tool.step args.quiet
  let textBase ← Tool.ofChecked asm.textBase
  let dataBase ← Tool.ofChecked asm.dataBase
  step (summary asm textBase dataBase)
  if asm.needsLibrary then step ("  " ++ Text.paint [.yellow] "needs library")
  step "3. Write Image"
  step ("  > " ++ args.output)
  Tool.writeFile args.output (← Tool.ofAsm (Image.ofAssembly asm))
  match args.map with
  | none => return
  | some path =>
      step ("  > " ++ path)
      Tool.writeFile path (utf8Bytes (← Tool.ofChecked asm.symbolMap).render)

/-- Assembles a file. The status is one if the source has errors. -/
def run (args : AssembleArgs) : Tool Int := do
  let step := Tool.step args.quiet
  step (Text.paint [.bold] "x86 Assembler")
  step "1. Read Files"
  step ("  < " ++ args.input)
  let source ← Tool.readText args.input
  let externs ← args.table
  step "2. Layout & Emit"
  let asm ← Tool.ofAsm (Asm.assemble source args.config externs)
  Tool.print (Diagnostic.reports asm.diagnostics args.input source)
  if asm.hasError then
    Tool.print (Text.paint [.red, .bold] "Assembly failed" ++ "\n")
    return 1
  args.finish asm
  if args.dump then Tool.print (← Tool.ofChecked (asm.dump args.input))
  return 0

end AssembleArgs

end Ia32.Command
