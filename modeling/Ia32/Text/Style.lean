/-!
# Terminal styles

A styled text stands between the escape sequences that open its styles and,
in the same order, those that close them.
-/

namespace Ia32.Text

/-- Colours of the foreground, and two effects. -/
inductive Style where
  | red
  | green
  | yellow
  | blue
  | cyan
  | bold
  | underline
  deriving DecidableEq, Repr

namespace Style

/-- Number of the escape sequence that opens a style. -/
def opening : Style → String
  | .red => "31"
  | .green => "32"
  | .yellow => "33"
  | .blue => "34"
  | .cyan => "36"
  | .bold => "1"
  | .underline => "4"

/-- Number of the escape sequence that closes a style. -/
def closing : Style → String
  | .bold => "22"
  | .underline => "24"
  | _ => "39"

/-- The escape sequence with a given number. -/
def escape (number : String) : String :=
  "\x1b[" ++ number ++ "m"

end Style

/-- A text shown in some styles. -/
def paint (styles : List Style) (s : String) : String :=
  String.join (styles.map fun style => Style.escape style.opening) ++ s ++
    String.join (styles.map fun style => Style.escape style.closing)

end Ia32.Text
