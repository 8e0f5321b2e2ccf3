import Ia32.Text.Glyphless

/-!
# Escaped characters

Characters in messages and quoted names are written so that they can be told
apart on a terminal: common controls, the backslash and quotes by a backslash
form, characters without a glyph by their number.
-/

namespace Ia32.Text

/-- The form `\u{…}` with the number of a character. -/
def numbered (c : Char) : String :=
  "\\u\x7b" ++ String.ofList (Nat.toDigits 16 c.toNat) ++ "\x7d"

/-- One character, escaped where it could be misread. Quotes are escaped as asked. -/
def escapedChar (singleQuote doubleQuote : Bool) (c : Char) : String :=
  if c = '\x00' then "\\0"
  else if c = '\t' then "\\t"
  else if c = '\r' then "\\r"
  else if c = '\n' then "\\n"
  else if c = '\\' then "\\\\"
  else if c = '\'' ∧ singleQuote = true then "\\'"
  else if c = '"' ∧ doubleQuote = true then "\\\""
  else if isGlyphless c then numbered c
  else c.toString

/-- A text in double quotes. -/
def quoted (s : String) : String :=
  "\"" ++ String.join (s.toList.map (escapedChar false true)) ++ "\""

end Ia32.Text
