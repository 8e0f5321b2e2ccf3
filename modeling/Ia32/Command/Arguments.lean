import Ia32.Text.Numeral

/-!
# Command lines

A command line has options, flags and at most one other word. An option takes a
value, attached or as the next word; short flags can be joined; behind `--`
nothing is an option. No option may come twice, and every mistake makes the
command line unusable.
-/

namespace Ia32.Command

/-- An option or a flag of a command. -/
structure Switch where
  long : String
  short : Option Char := none
  takesValue : Bool := true
  deriving DecidableEq, Repr

/-- A command line that has been read. Switches are known by their long names. -/
structure Arguments where
  flags : List String := []
  values : List (String × String) := []
  word : Option String := none
  deriving DecidableEq, Repr

namespace Arguments

/-- Sets a flag that is not set yet. -/
def setFlag? (args : Arguments) (name : String) : Option Arguments :=
  if args.flags.contains name then none else some { args with flags := name :: args.flags }

/-- Gives an option its value, if it has none yet. -/
def setValue? (args : Arguments) (name value : String) : Option Arguments :=
  if (args.values.lookup name).isSome then none
  else some { args with values := (name, value) :: args.values }

/-- Takes the word that is no switch; there is only one. -/
def setWord? (args : Arguments) (word : String) : Option Arguments :=
  if args.word.isSome then none else some { args with word := some word }

/-- Reads a switch by its long name, perhaps with a value. The result says which
option waits for its value. -/
def readLong (switches : List Switch) (args : Arguments) (body : List Char) :
    Option (Arguments × Option String) :=
  let name := String.ofList (body.takeWhile (· != '='))
  match switches.find? (·.long == name), body.dropWhile (· != '=') with
  | some switch, [] =>
      if switch.takesValue then some (args, some name)
      else (args.setFlag? name).map fun args => (args, none)
  | some switch, _ :: value =>
      if switch.takesValue then
        (args.setValue? name (String.ofList value)).map fun args => (args, none)
      else none
  | none, _ => none

/-- Reads joined switches by their short names. The last one may be an option
with its value attached. -/
def readShort (switches : List Switch) (args : Arguments) :
    List Char → Option (Arguments × Option String)
  | [] => some (args, none)
  | c :: rest =>
      match switches.find? (·.short == some c) with
      | none => none
      | some switch =>
          if switch.takesValue then
            match rest with
            | [] => some (args, some switch.long)
            | '=' :: value =>
                (args.setValue? switch.long (String.ofList value)).map fun args => (args, none)
            | value =>
                (args.setValue? switch.long (String.ofList value)).map fun args => (args, none)
          else
            match args.setFlag? switch.long with
            | some args => readShort switches args rest
            | none => none

/-- Reads words while the option `waiting` may wait for its value; `plain` says
that nothing more is an option. -/
def readFrom (switches : List Switch) (waiting : Option String) (plain : Bool)
    (args : Arguments) : List String → Option Arguments
  | [] => if waiting.isSome then none else some args
  | word :: rest =>
      if plain then do readFrom switches waiting plain (← args.setWord? word) rest
      else
        match word.toList, waiting with
        | ['-', '-'], _ => readFrom switches waiting true args rest
        | '-' :: '-' :: body, none => do
            let (args, waiting) ← readLong switches args body
            readFrom switches waiting false args rest
        | '-' :: c :: body, none => do
            let (args, waiting) ← readShort switches args (c :: body)
            readFrom switches waiting false args rest
        | '-' :: _ :: _, some _ => none
        | _, some name => do readFrom switches none false (← args.setValue? name word) rest
        | _, none => do readFrom switches none false (← args.setWord? word) rest

/-- Reads the words of a command line. -/
def read? (switches : List Switch) (words : List String) : Option Arguments :=
  readFrom switches none false {} words

/-- Whether a flag is set. -/
def has (args : Arguments) (name : String) : Bool :=
  args.flags.contains name

/-- The value of an option. -/
def value? (args : Arguments) (name : String) : Option String :=
  args.values.lookup name

/-- A number given as the value of an option, up to a largest one. -/
def number? (args : Arguments) (name : String) (fallback : Nat) : Option Nat :=
  match args.value? name with
  | none => some fallback
  | some text => Text.boundedNatural? 10 18446744073709551615 text.toList

/-- An address given as the value of an option, decimal or hexadecimal. -/
def address? (args : Arguments) (name : String) (fallback : UInt32) : Option UInt32 :=
  match args.value? name with
  | none => some fallback
  | some text =>
      let n? := match text.toList with
        | '0' :: 'x' :: digits => Text.boundedNatural? 16 4294967295 digits
        | '0' :: 'X' :: digits => Text.boundedNatural? 16 4294967295 digits
        | digits => Text.boundedNatural? 10 4294967295 digits
      n?.map UInt32.ofNat

end Arguments

end Ia32.Command
