/-!
# Numerals

Reading whole numbers in a base. Letters of either case are the digits from
ten on.
-/

namespace Ia32.Text

/-- The value of a digit in a base. -/
def digit? (base : Nat) (c : Char) : Option Nat :=
  let value :=
    if '0' ≤ c ∧ c ≤ '9' then c.toNat - '0'.toNat
    else if 'a' ≤ c ∧ c ≤ 'z' then c.toNat - 'a'.toNat + 10
    else if 'A' ≤ c ∧ c ≤ 'Z' then c.toNat - 'A'.toNat + 10
    else base
  if value < base then some value else none

/-- Continues a number by digits. -/
def digitsOnto? (base : Nat) (value : Nat) : List Char → Option Nat
  | [] => some value
  | c :: rest =>
      match digit? base c with
      | some d => digitsOnto? base (base * value + d) rest
      | none => none

/-- A number of one or more digits and nothing else. -/
def natural? (base : Nat) : List Char → Option Nat
  | [] => none
  | s => digitsOnto? base 0 s

/-- A number that may have a sign in front. -/
def integer? (base : Nat) : List Char → Option Int
  | '-' :: s => (natural? base s).map fun n => -(n : Int)
  | '+' :: s => (natural? base s).map Int.ofNat
  | s => (natural? base s).map Int.ofNat

/-- A number that may have a plus sign in front, up to a largest value. -/
def boundedNatural? (base largest : Nat) (s : List Char) : Option Nat :=
  let n? := match s with
    | '+' :: digits => natural? base digits
    | digits => natural? base digits
  n?.filter (· ≤ largest)

end Ia32.Text
