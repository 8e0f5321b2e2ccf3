import Ia32.Machine.Screen
import Ia32.Text.Escaped

/-!
# Traces

A trace prints the registers after instructions at chosen addresses, or after
every instruction. At a trace point it can also print the stack and some words
of memory.
-/

namespace Ia32

/-- What to print at an address, besides the registers. -/
structure TracePoint where
  /-- Whether the words from the stack pointer to the frame pointer are printed. -/
  stack : Bool := false
  /-- Addresses of further words. -/
  memory : List UInt32 := []
  deriving DecidableEq, Repr

/-- Which instructions are traced. -/
structure Trace where
  all : Bool := false
  points : List (UInt32 × TracePoint) := []
  /-- The file that lists the points. -/
  file : Option String := none
  deriving DecidableEq, Repr

namespace Trace

/-- The point at an address. -/
def point? (trace : Trace) (addr : UInt32) : Option TracePoint :=
  trace.points.lookup addr

/-- Whether the instruction at an address is traced. -/
def wants (trace : Trace) (addr : UInt32) : Bool :=
  trace.all || (trace.point? addr).isSome

/-- The line that separates blocks of registers. -/
def ruler : String :=
  " +----------------+----------------+----------------+----------------+\n"

/-- A word as traces show it. -/
def word (w : UInt32) : String :=
  Text.hexUpper 8 w.toNat

/-- A row of four registers. -/
def regRow (m : Machine) (regs : List Reg) : String :=
  String.join (regs.map fun r => " | " ++ r.name ++ ": " ++ word (m.get r) ++ " ") ++ " |\n"

/-- A flag as traces show it. -/
def bit (flag : Bool) : String :=
  if flag then "1" else "0"

/-- The registers and flags of a machine. -/
def registers (m : Machine) : String :=
  ruler ++ regRow m [.eax, .ecx, .edx, .ebx] ++ regRow m [.esp, .ebp, .esi, .edi] ++
    " | eip: " ++ word m.eip ++ "  | zf:" ++ bit m.flags.zero ++ " sf:" ++ bit m.flags.sign ++
    " of:" ++ bit m.flags.overflow ++ " cf:" ++ bit m.flags.carry ++
    "                                  |\n" ++ ruler

/-- One word of memory. -/
def memoryRow (m : Machine) (addr : UInt32) : String :=
  " | " ++ word addr ++ " : " ++
    (match m.memory.read32 addr with
    | .ok w => word w
    | .error _ => Text.paint [.red] "unmapped") ++ "\n"

/-- Some words of memory. -/
def memoryRows (m : Machine) (addrs : List UInt32) : String :=
  if addrs.isEmpty then ""
  else
    String.join (addrs.map (memoryRow m)) ++
      " +--------------------------------------------------------------------+\n"

/-- The most words of the stack that are printed. -/
def maxStackWords : Nat := 64

/-- Addresses of the words from the stack pointer to the frame pointer. -/
def stackAddresses (m : Machine) : List UInt32 :=
  let esp := m.get .esp
  let count := min ((m.get .ebp - esp).toNat / 4) maxStackWords
  (List.range count).map fun i => esp + UInt32.ofNat (4 * i)

/-- What is printed after an instruction. -/
def entry (trace : Trace) (addr : UInt32) (i : Instr UInt32) (m : Machine) : String :=
  let head := "[" ++ Text.padLeft '0' 6 (toString m.steps) ++ "] " ++
    Text.paint [.cyan] (word addr) ++ " " ++
    i.renderColored (fun a => toString a.toNat) ++ "\n" ++ registers m
  match trace.point? addr with
  | none => head
  | some point =>
      head ++ (if point.stack then memoryRows m (stackAddresses m) else "") ++
        memoryRows m point.memory

/-- What is printed before a run. -/
def banner (trace : Trace) : String :=
  (if trace.all then " * Trace all\n" else "") ++
    match trace.file with
    | some file =>
        " * Trace[" ++ toString trace.points.length ++ "] " ++ Text.quoted file ++ "\n"
    | none => ""

/-- Prints the traced instructions of a run. -/
def watch (trace : Trace) : Observer Screen := fun screen addr i m =>
  if trace.wants addr then screen.print (trace.entry addr i m) else screen

end Trace

namespace Machine

/-- Runs under a trace, with the output of the process shown. -/
def runTraced (trace : Trace) (styled : Bool) (limit : Nat) (m : Machine) :
    Except Fault Outcome × Screen × Machine :=
  m.runWith (fun screen addr i m => Screen.echo styled (trace.watch screen addr i m) addr i m)
    (Screen.print {} trace.banner) limit

end Machine

end Ia32
