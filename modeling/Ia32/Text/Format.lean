/-!
# Fixed layouts of numbers and words

Widths count characters, and a text that is already wide enough is kept.
-/

namespace Ia32.Text

/-- Pads in front up to a width. -/
def padLeft (fill : Char) (width : Nat) (s : String) : String :=
  String.ofList (List.replicate (width - s.length) fill) ++ s

/-- Pads with spaces behind up to a width. -/
def padRight (width : Nat) (s : String) : String :=
  s ++ String.ofList (List.replicate (width - s.length) ' ')

/-- Lower-case hexadecimal digits, with zeros in front up to a width. -/
def hexLower (width n : Nat) : String :=
  padLeft '0' width (String.ofList (Nat.toDigits 16 n))

/-- Upper-case hexadecimal digits, with zeros in front up to a width. -/
def hexUpper (width n : Nat) : String :=
  padLeft '0' width (String.ofList ((Nat.toDigits 16 n).map Char.toUpper))

/-- Joins texts with a separator between neighbours. -/
def joinWith (separator : String) : List String → String
  | [] => ""
  | [s] => s
  | s :: rest => s ++ separator ++ joinWith separator rest

/-- A text repeated. -/
def repeated (count : Nat) (c : Char) : String :=
  String.ofList (List.replicate count c)

end Ia32.Text
