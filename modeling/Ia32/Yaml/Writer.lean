import Ia32.Yaml

/-!
# Writing keys of configuration documents

A name is written plain unless a reader would take it for something else than a
text.
-/

namespace Ia32.Yaml

/-- Whether a decimal fraction `0.d₁d₂…` times a power of ten is below the
numbers that binary floating point rounds to infinity. -/
def isFiniteFraction (digits : List Char) (exponent : Nat) : Bool :=
  let zeros := (digits.takeWhile (· == '0')).length
  if digits.all (· == '0') then true
  else if exponent ≤ zeros + 400 then
    match Text.natural? 10 digits with
    | some n =>
        n * Nat.pow 10 exponent < (Nat.pow 2 1024 - Nat.pow 2 970) * Nat.pow 10 digits.length
    | none => false
  else false

/-- Whether a name made of letters, digits, underscores and points reads as a
number: a point, digits, and perhaps an exponent. -/
def isFraction (s : List Char) : Bool :=
  match s with
  | '.' :: rest =>
      let digits := rest.takeWhile Char.isDigit
      if digits.isEmpty then false
      else
        match rest.dropWhile Char.isDigit with
        | [] => true
        | c :: exponent =>
            (c == 'e' || c == 'E') &&
              match Text.natural? 10 exponent with
              | some n => isFiniteFraction digits n
              | none => false
  | _ => false

/-- The spellings of the absent value, of infinity and of no number. -/
def specialNames : List String :=
  ["null", "Null", "NULL", "~", ".inf", ".Inf", ".INF", ".nan", ".NaN", ".NAN"]

/-- Whether a plain name would be read as something else than a text. -/
def isAmbiguous (name : String) : Bool :=
  let s := name.toList
  specialNames.contains name || (truth? s).isSome || (integer? s).isSome || isFraction s ||
    s.take 3 == ['.', '.', '.']

/-- The written form of a name. -/
def scalar (name : String) : String :=
  if isAmbiguous name then "'" ++ name ++ "'" else name

/-- The most bytes of a key that is written in front of its colon. -/
def maxSimpleKey : Nat := 128

/-- A key whose value is a nested mapping with the given first line, at an
indentation. A long key stands on a line of its own. -/
def nestedKey (indent key firstLine : String) : String :=
  if key.utf8ByteSize ≤ maxSimpleKey then
    indent ++ scalar key ++ ":\n" ++ indent ++ "  " ++ firstLine ++ "\n"
  else indent ++ "? " ++ scalar key ++ "\n" ++ indent ++ ": " ++ firstLine ++ "\n"

end Ia32.Yaml
