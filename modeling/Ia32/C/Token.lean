import Ia32.Text.Escaped

/-!
# Tokens of the C subset
-/

namespace Ia32.C

/-- Text that is no token. -/
inductive LexicalError where
  | malformedNumber (lexeme : String)
  | numberOutOfRange (lexeme : String)
  | unterminatedString
  | unexpectedCharacter (c : Char)
  deriving DecidableEq, Repr

/-- The complaint about text that is no token. -/
def LexicalError.message : LexicalError → String
  | .malformedNumber lexeme => "Malformed number `" ++ lexeme ++ "`"
  | .numberOutOfRange lexeme => "Number out of range `" ++ lexeme ++ "`"
  | .unterminatedString => "Unterminated string literal"
  | .unexpectedCharacter c => "Unexpected character `" ++ Text.escapedChar true true c ++ "`"

/-- The kinds of tokens. -/
inductive TokenKind where
  | notEqual
  | assign
  | plus
  | star
  | semicolon
  | comma
  | lparen
  | rparen
  | lbrace
  | rbrace
  | less
  | kwInt
  | kwChar
  | kwVoid
  | kwMain
  | kwReturn
  | kwIf
  | kwElse
  | kwSyscall
  | kwWhile
  | ident (name : String)
  | number (value : Nat)
  | text (content : String)
  | invalid (cause : LexicalError)
  | eof
  deriving DecidableEq, Repr

namespace TokenKind

/-- The tokens of one character. -/
def ofSymbol? : Char → Option TokenKind
  | '=' => some .assign
  | '+' => some .plus
  | '*' => some .star
  | ';' => some .semicolon
  | ',' => some .comma
  | '(' => some .lparen
  | ')' => some .rparen
  | '\x7b' => some .lbrace
  | '\x7d' => some .rbrace
  | '<' => some .less
  | _ => none

/-- The keywords. -/
def keywords : List (String × TokenKind) :=
  [("int", .kwInt), ("char", .kwChar), ("void", .kwVoid), ("main", .kwMain),
    ("return", .kwReturn), ("if", .kwIf), ("else", .kwElse), ("syscall", .kwSyscall),
    ("while", .kwWhile)]

/-- The token of a word: a keyword or an identifier. -/
def ofWord (word : String) : TokenKind :=
  (keywords.lookup word).getD (.ident word)

/-- How a token reads in a complaint. -/
def describe : TokenKind → String
  | .notEqual => "`!=`"
  | .assign => "`=`"
  | .plus => "`+`"
  | .star => "`*`"
  | .semicolon => "`;`"
  | .comma => "`,`"
  | .lparen => "`(`"
  | .rparen => "`)`"
  | .lbrace => "`\x7b`"
  | .rbrace => "`\x7d`"
  | .less => "`<`"
  | .kwInt => "`int`"
  | .kwChar => "`char`"
  | .kwVoid => "`void`"
  | .kwMain => "`main`"
  | .kwReturn => "`return`"
  | .kwIf => "`if`"
  | .kwElse => "`else`"
  | .kwSyscall => "`syscall`"
  | .kwWhile => "`while`"
  | .ident name => "identifier `" ++ name ++ "`"
  | .number value => "number `" ++ toString value ++ "`"
  | .text _ => "string literal"
  | .invalid cause => cause.message
  | .eof => "end of input"

end TokenKind

/-- A token with the line on which it starts. -/
structure Token where
  kind : TokenKind
  line : Nat
  deriving DecidableEq, Repr

end Ia32.C
