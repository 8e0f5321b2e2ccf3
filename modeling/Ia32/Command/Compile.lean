import Ia32.Asm.Assembler
import Ia32.C.Program
import Ia32.Command.Tool
import Ia32.Image.Writer

/-!
# The compiler as a command
-/

namespace Ia32.Command

/-- The command line of the compiler. -/
structure CompileArgs where
  input : String
  output : Option String
  /-- Whether an image is written, and not assembly text. -/
  toImage : Bool
  symbols : Option String
  limits : C.Limits
  quiet : Bool

namespace CompileArgs

/-- The switches of the compiler. -/
def switches : List Switch :=
  [{ long := "output", short := some 'o' },
    { long := "emit" },
    { long := "symbols", short := some 's' },
    { long := "max-symbols" },
    { long := "max-functions" },
    { long := "quiet", short := some 'q', takesValue := false }]

/-- Reads the kind of output: assembly text unless an image is asked for. -/
def toImage? (args : Arguments) : Option Bool :=
  match args.value? "emit" with
  | none | some "asm" => some false
  | some "elf" => some true
  | some _ => none

/-- Reads the command line of the compiler. -/
def read? (words : List String) : Option CompileArgs := do
  let args ← Arguments.read? switches words
  let toImage ← toImage? args
  let symbols ← args.number? "max-symbols" 256
  let functions ← args.number? "max-functions" 64
  return {
    input := args.word.getD "main.c"
    output := args.value? "output"
    toImage := toImage
    symbols := args.value? "symbols"
    limits := ⟨symbols, functions⟩
    quiet := args.has "quiet" }

/-- The external symbols of the command. -/
def table? (args : CompileArgs) : Tool (Option SymbolTable) := do
  match args.symbols with
  | none => return none
  | some path =>
      Tool.step args.quiet ("  < " ++ path)
      return some (← Tool.readTable path)

/-- Writes assembly text. -/
def writeAsm (args : CompileArgs) (compilation : C.Compilation) : Tool Int := do
  let output := args.output.getD "main.s"
  Tool.step args.quiet "3. Write Assembly"
  Tool.step args.quiet ("  > " ++ output)
  Tool.writeFile output (utf8Bytes compilation.asm)
  return 0

/-- Assembles the text and writes an image. -/
def writeImage (args : CompileArgs) (compilation : C.Compilation) (externs : SymbolTable) :
    Tool Int := do
  let output := args.output.getD "main.elf"
  Tool.step args.quiet "3. Assemble"
  let asm ← Tool.ofAsm (Asm.assemble compilation.asm {} externs)
  Tool.print (Diagnostic.reports asm.diagnostics (args.input ++ ".s") compilation.asm)
  if asm.hasError then
    Tool.print (Text.paint [.red, .bold] "Assembly failed" ++ "\n")
    return 1
  Tool.step args.quiet "4. Write Image"
  Tool.step args.quiet ("  > " ++ output)
  Tool.writeFile output (← Tool.ofAsm (Image.ofAssembly asm))
  return 0

/-- Compiles a file. The status is one if the source has errors. -/
def run (args : CompileArgs) : Tool Int := do
  let step := Tool.step args.quiet
  step (Text.paint [.bold] "Restricted C Compiler")
  step "1. Read Files"
  step ("  < " ++ args.input)
  let source ← Tool.readText args.input
  let externs ← args.table?
  step "2. Compile"
  let compilation := C.compile source { externs := externs, limits := args.limits }
  Tool.print (Diagnostic.reports compilation.diagnostics args.input source)
  if compilation.hasError then
    Tool.print (Text.paint [.red, .bold] "Compilation failed" ++ "\n")
    return 1
  step ("  functions: " ++ Text.joinWith ", " compilation.functions)
  if args.toImage then args.writeImage compilation (externs.getD {})
  else args.writeAsm compilation

end CompileArgs

end Ia32.Command
