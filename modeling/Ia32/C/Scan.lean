import Ia32.C.Token
import Ia32.Text.Blank
import Ia32.Text.Numeral

/-!
# Scanning source text into tokens

Blanks and comments separate tokens; a comment runs from two slashes to the end
of the line. Text that is no token becomes an invalid token, so that scanning
never stops early.
-/

namespace Ia32.C

/-- The tokens of a source text, and the line on which the text ends. -/
structure Scan where
  tokens : List Token
  lastLine : Nat
  deriving DecidableEq, Repr

namespace Scan

/-- The line after one more character. -/
def lineAfter (line : Nat) (c : Char) : Nat :=
  if c = '\n' then line + 1 else line

/-- Number of line ends in a text. -/
def lineEnds (s : List Char) : Nat :=
  s.count '\n'

/-- Skips blanks and comments, counting lines. The flag says whether the text
starts inside a comment, as it does behind the first of two slashes. -/
def skipTrivia (inComment : Bool) (line : Nat) : List Char → Nat × List Char
  | [] => (line, [])
  | c :: rest =>
      if inComment then skipTrivia (c != '\n') (lineAfter line c) rest
      else if Text.isBlank c then skipTrivia false (lineAfter line c) rest
      else if c = '/' ∧ rest.head? = some '/' then skipTrivia true line rest
      else (line, c :: rest)

/-- The characters of words. -/
def isWordChar (c : Char) : Bool :=
  c.isAlphanum || c == '_'

/-- The digits of hexadecimal numbers. -/
def isHexDigit (c : Char) : Bool :=
  (Text.digit? 16 c).isSome

/-- The largest number. -/
def maxNumber : Nat := 4294967295

/-- The number with some digits, from the text of a literal. Letters right
behind a literal belong to it and spoil it. -/
def numberOf (lexeme : List Char) (base : Nat) (digits after : List Char) :
    TokenKind × List Char :=
  let tail := after.takeWhile isWordChar
  let rest := after.dropWhile isWordChar
  if !tail.isEmpty || digits.isEmpty then
    (.invalid (.malformedNumber (String.ofList (lexeme ++ tail))), rest)
  else
    match (Text.natural? base digits).filter (· ≤ maxNumber) with
    | some value => (.number value, rest)
    | none => (.invalid (.numberOutOfRange (String.ofList lexeme)), rest)

/-- A number at the start of a text, decimal or hexadecimal. -/
def number (s : List Char) : TokenKind × List Char :=
  match s with
  | '0' :: x :: rest =>
      if x = 'x' ∨ x = 'X' then
        let digits := rest.takeWhile isHexDigit
        numberOf ('0' :: x :: digits) 16 digits (rest.dropWhile isHexDigit)
      else
        let digits := s.takeWhile Char.isDigit
        numberOf digits 10 digits (s.dropWhile Char.isDigit)
  | _ =>
      let digits := s.takeWhile Char.isDigit
      numberOf digits 10 digits (s.dropWhile Char.isDigit)

/-- A token in front of a text: its kind, the line ends inside it, and the text
behind it. -/
structure Lexeme where
  kind : TokenKind
  lineEnds : Nat
  rest : List Char
  deriving DecidableEq, Repr

/-- A token within one line. -/
def Lexeme.inLine (found : TokenKind × List Char) : Lexeme :=
  ⟨found.1, 0, found.2⟩

/-- A string literal behind its opening quote. It runs to the next quote,
across lines if need be. -/
def text (s : List Char) : Lexeme :=
  let body := s.takeWhile (· != '"')
  match s.dropWhile (· != '"') with
  | _ :: rest => ⟨.text (String.ofList body), lineEnds body, rest⟩
  | [] => ⟨.invalid .unterminatedString, lineEnds body, []⟩

/-- The token at the start of a text that has a character in front. -/
def front (c : Char) (rest : List Char) : Lexeme :=
  if c = '!' ∧ rest.head? = some '=' then .inLine (.notEqual, rest.drop 1)
  else
    match TokenKind.ofSymbol? c with
    | some kind => .inLine (kind, rest)
    | none =>
        if c.isDigit then .inLine (number (c :: rest))
        else if c = '"' then text rest
        else if c.isAlpha || c == '_' then
          .inLine (.ofWord (String.ofList ((c :: rest).takeWhile isWordChar)),
            (c :: rest).dropWhile isWordChar)
        else .inLine (.invalid (.unexpectedCharacter c), rest)

/-- Scans a text that starts on a line. Every token takes a character, so the
length of the text bounds their number. -/
def scanFrom : Nat → Nat → List Char → Scan
  | 0, line, _ => ⟨[], line⟩
  | fuel + 1, line, s =>
      match skipTrivia false line s with
      | (line, []) => ⟨[], line⟩
      | (line, c :: rest) =>
          let lexeme := front c rest
          let others := scanFrom fuel (line + lexeme.lineEnds) lexeme.rest
          ⟨⟨lexeme.kind, line⟩ :: others.tokens, others.lastLine⟩

/-- Scans a source text. -/
def ofSource (source : String) : Scan :=
  let s := source.toList
  scanFrom (s.length + 1) 1 s

end Scan

end Ia32.C
