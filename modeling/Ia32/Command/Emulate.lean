import Ia32.Command.Tool

/-!
# The emulator as a command
-/

namespace Ia32.Command

/-- The command line of the emulator. -/
structure EmulateArgs where
  input : String
  limit : Nat
  traceFile : Option String
  traceAll : Bool
  styled : Bool
  quiet : Bool

namespace EmulateArgs

/-- The switches of the emulator. -/
def switches : List Switch :=
  [{ long := "tmax", short := some 't' },
    { long := "trace-cfg", short := some 'c' },
    { long := "trace-all", short := some 'a', takesValue := false },
    { long := "style", short := some 's', takesValue := false },
    { long := "quiet", short := some 'q', takesValue := false }]

/-- Reads the command line of the emulator. -/
def read? (words : List String) : Option EmulateArgs := do
  let args ← Arguments.read? switches words
  let limit ← args.number? "tmax" 10000000
  return {
    input := args.word.getD "main.elf"
    limit := limit
    traceFile := args.value? "trace-cfg"
    traceAll := args.has "trace-all"
    styled := args.has "style"
    quiet := args.has "quiet" }

/-- The heading of a run. -/
def heading (input : String) : String :=
  let ruler := "+-----------------------------------------------+\n"
  ruler ++ "| Emulate: " ++ Text.padRight 36 input ++ " |\n" ++ ruler

/-- The closing lines of a run. -/
def closing (outcome : Outcome) : String :=
  "\n=================================================\n" ++
    "exit code " ++ Text.paint [.bold] (toString outcome.exitCode) ++ " after " ++
    toString outcome.steps ++ " steps\n"

/-- The trace that the command asks for. -/
def trace (args : EmulateArgs) : Tool Trace := do
  match args.traceFile with
  | none => return { all := args.traceAll }
  | some path =>
      match Trace.points? (← Tool.readText path) with
      | some points => return ⟨args.traceAll, points, some path⟩
      | none => throw .traceText

/-- Runs an image. The status is that of the process. -/
def run (args : EmulateArgs) : Tool Int := do
  if !args.quiet then Tool.print (heading args.input)
  match Image.load (← Tool.readFile args.input) with
  | .error e => throw (.load e)
  | .ok machine =>
      let trace ← args.trace
      let (result, screen, _) := machine.runTraced trace args.styled args.limit
      Tool.print screen.text
      match result with
      | .error fault => throw (.fault fault)
      | .ok outcome =>
          if !args.quiet then Tool.print (closing outcome)
          return outcome.exitCode

end EmulateArgs

end Ia32.Command
