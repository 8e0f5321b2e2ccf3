import Ia32.Machine.Step

/-!
# Runs

A run goes on until the process ends, a fault stops it, or the step counter
reaches a limit. An observer sees every executed instruction with the machine
that it leaves.
-/

namespace Ia32

/-- A fold over the executed instructions of a run: the address and the
instruction, and the machine after it. -/
abbrev Observer (σ : Type) := σ → UInt32 → Instr UInt32 → Machine → σ

namespace Machine

/-- The outcome of a machine whose process has ended with a status. -/
def outcome (m : Machine) (status : Int) : Outcome :=
  ⟨status, m.steps, m.output.toList⟩

/-- Runs for at most the given number of further steps. -/
def runSteps {σ : Type} (observe : Observer σ) (limit : Nat) :
    Nat → σ → Machine → Except Fault Outcome × σ × Machine
  | 0, seen, m =>
      match m.exit with
      | some status => (.ok (m.outcome status), seen, m)
      | none => (.error (.stepLimit limit), seen, m)
  | left + 1, seen, m =>
      match m.exit with
      | some status => (.ok (m.outcome status), seen, m)
      | none =>
          match Exec.step m with
          | .error fault m => (.error fault, seen, m)
          | .ok (addr, i) m => runSteps observe limit left (observe seen addr i m) m

/-- Runs under an observer until the step counter reaches a limit. -/
def runWith {σ : Type} (observe : Observer σ) (seen : σ) (limit : Nat) (m : Machine) :
    Except Fault Outcome × σ × Machine :=
  runSteps observe limit (limit - m.steps) seen m

/-- Runs until the step counter reaches a limit. -/
def run (limit : Nat) (m : Machine) : Except Fault Outcome × Machine :=
  match m.runWith (fun seen _ _ _ => seen) () limit with
  | (result, _, m) => (result, m)

end Machine

end Ia32
