import Ia32.Command.Assemble
import Ia32.Command.Compile
import Ia32.Command.Emulate

/-!
# The commands
-/

namespace Ia32.Command

/-- The commands of the tool set. -/
inductive Kind where
  | assemble
  | compile
  | emulate
  deriving DecidableEq, Repr

/-- What a command does with the words of its command line, which may be
unusable. The script ends with the exit status. -/
def Kind.script? (kind : Kind) (words : List String) : Option (Script (Checked Int)) :=
  match kind with
  | .assemble => (AssembleArgs.read? words).map fun args => args.run.status
  | .compile => (CompileArgs.read? words).map fun args => args.run.status
  | .emulate => (EmulateArgs.read? words).map fun args => args.run.status

end Ia32.Command
