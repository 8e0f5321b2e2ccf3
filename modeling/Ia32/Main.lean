import Ia32.Command

/-!
# The executable

Carries out scripts on the real file system. The first word of the command line
selects the command.
-/

namespace Ia32.Command

/-- The cause of an error that the system reports. -/
def FileError.ofSystem : IO.Error → FileError
  | .noFileOrDirectory .. => .missing
  | e => .other (toString e)

/-- Carries out a script. -/
def Script.perform {α : Type} : Script α → IO α
  | .done a => return a
  | .print text next => do
      (← IO.getStdout).putStr text
      next.perform
  | .read path next => do
      match ← (IO.FS.readBinFile path).toBaseIO with
      | .ok contents => (next (.ok contents.data.toList)).perform
      | .error e => (next (.error (.ofSystem e))).perform
  | .write path contents next => do
      match ← (IO.FS.writeBinFile path ⟨contents.toArray⟩).toBaseIO with
      | .ok () => (next (.ok ())).perform
      | .error e => (next (.error (.ofSystem e))).perform

/-- The command with a name. -/
def Kind.ofName? : String → Option Kind
  | "assemble" => some .assemble
  | "compile" => some .compile
  | "emulate" => some .emulate
  | _ => none

end Ia32.Command

open Ia32.Command in
/-- Runs the command that the first word names. -/
def main (words : List String) : IO UInt32 := do
  match words with
  | [] =>
      IO.eprintln "usage: (assemble | compile | emulate) [options] [input]"
      return 2
  | name :: rest =>
      match (Kind.ofName? name).bind fun kind => kind.script? rest with
      | none =>
          IO.eprintln "usage: (assemble | compile | emulate) [options] [input]"
          return 2
      | some script =>
          match ← script.perform with
          | .ok status => return UInt32.ofNat (status % 256).toNat
          | .error .overflow => return 101
