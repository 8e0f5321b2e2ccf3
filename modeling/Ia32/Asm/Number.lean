import Ia32.Text.Blank
import Ia32.Text.Numeral
import Ia32.Word

/-!
# Numbers and names in assembly text

A number is a decimal, hexadecimal, octal or binary literal with an optional
minus sign in front, or a character in single quotes. Underscores between the
digits are ignored. Numbers are 64 bits wide.
-/

namespace Ia32.Asm

/-- Whether a number fits 64 bits in two's complement. -/
def fitsNumber (v : Int) : Bool :=
  -9223372036854775808 ≤ v && v ≤ 9223372036854775807

/-- The code of a single ASCII character. -/
def charCode? : List Char → Option Int
  | [c] => if c.toNat < 128 then some c.toNat else none
  | _ => none

/-- The base that the start of a literal announces, and its digits. -/
def literalBase : List Char → Nat × List Char
  | '0' :: 'x' :: c :: digits => (16, c :: digits)
  | '0' :: 'X' :: c :: digits => (16, c :: digits)
  | '0' :: 'o' :: c :: digits => (8, c :: digits)
  | '0' :: 'b' :: c :: digits => (2, c :: digits)
  | digits => (10, digits)

/-- A literal without its minus sign: it starts with a decimal digit. Behind the
mark of a base, the digits may have a sign of their own. -/
def literal? (s : List Char) : Option Int :=
  match s with
  | [] => none
  | c :: _ =>
      if c.isDigit then
        let (base, digits) := literalBase s
        (Text.integer? base (digits.filter (· != '_'))).filter fitsNumber
      else none

/-- The text between two quotes, if both are there. -/
def between? (left right : Char) (s : List Char) : Option (List Char) :=
  (Text.dropFirst? left s).bind (Text.dropLast? right)

/-- Reads a number. Negating the smallest number leaves the range. -/
def number? (s : List Char) : Checked (Option Int) :=
  match between? '\'' '\'' s with
  | some inner => .ok (charCode? inner)
  | none =>
      match s with
      | '-' :: rest =>
          match literal? rest with
          | some v => if fitsNumber (-v) then .ok (some (-v)) else .error .overflow
          | none => .ok none
      | _ => .ok (literal? s)

/-- The characters that start a name. -/
def isNameStart (c : Char) : Bool :=
  c.isAlpha || c == '_' || c == '.'

/-- The characters of a name. -/
def isNameChar (c : Char) : Bool :=
  c.isAlphanum || c == '_' || c == '.'

/-- Whether a text is a name. -/
def isName : List Char → Bool
  | [] => false
  | c :: rest => isNameStart c && rest.all isNameChar

end Ia32.Asm
