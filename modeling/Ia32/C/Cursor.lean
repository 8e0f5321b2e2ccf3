import Ia32.C.Scan
import Ia32.Diagnostic

/-!
# Cursors over tokens

A cursor stands on one token and remembers the remarks made so far. Invalid
tokens are reported and passed over when the cursor reaches them; at the end of
the text it stays.
-/

namespace Ia32.C

/-- A place in the token list with the remarks made on the way. -/
structure Cursor where
  current : Token
  rest : List Token
  lastLine : Nat
  diagnostics : List Diagnostic
  deriving DecidableEq, Repr

namespace Cursor

/-- The cursor on the first token that is not invalid. -/
def settle (lastLine : Nat) (diagnostics : List Diagnostic) : List Token → Cursor
  | [] => ⟨⟨.eof, lastLine⟩, [], lastLine, diagnostics⟩
  | token :: rest =>
      match token.kind with
      | .invalid cause =>
          settle lastLine (diagnostics ++ [⟨.lexical, token.line, cause.message⟩]) rest
      | _ => ⟨token, rest, lastLine, diagnostics⟩

/-- The cursor at the start of scanned text. -/
def ofScan (scan : Scan) : Cursor :=
  settle scan.lastLine [] scan.tokens

/-- The kind of the current token. -/
def kind (c : Cursor) : TokenKind :=
  c.current.kind

/-- The line of the current token. -/
def line (c : Cursor) : Nat :=
  c.current.line

/-- Moves to the next token; the end of the text is never left. -/
def next (c : Cursor) : Cursor :=
  if c.kind = .eof then c else settle c.lastLine c.diagnostics c.rest

/-- Tokens in front of the end of the text, the current one included. -/
def remaining (c : Cursor) : Nat :=
  if c.kind = .eof then 0 else c.rest.length + 1

/-- Adds a remark. -/
def report (c : Cursor) (d : Diagnostic) : Cursor :=
  { c with diagnostics := c.diagnostics ++ [d] }

/-- The complaint that something else was expected here. -/
def expected (c : Cursor) (what : String) : Diagnostic :=
  ⟨.syntactic, c.line, "Expected " ++ what ++ ", found " ++ c.kind.describe⟩

/-- Skips to the end of a broken statement inside `depth` open braces: behind
the next semicolon outside braces or the brace that closes a group, in front of
a brace that closes nothing, or at the end of the text. -/
def skipStatement : Nat → Nat → Cursor → Cursor
  | 0, _, c => c
  | fuel + 1, depth, c =>
      match c.kind with
      | .eof => c
      | .rbrace =>
          match depth with
          | 0 => c
          | 1 => c.next
          | depth + 1 => skipStatement fuel depth c.next
      | .lbrace => skipStatement fuel (depth + 1) c.next
      | .semicolon => if depth = 0 then c.next else skipStatement fuel depth c.next
      | _ => skipStatement fuel depth c.next

/-- Skips the rest of a broken statement. -/
def synchronize (c : Cursor) : Cursor :=
  skipStatement (c.remaining + 1) 0 c

end Cursor

end Ia32.C
