/-!
# Places in the text of a document

Places are counted three ways: by line and column, which layout depends on, and
by the bytes in front, which limit how long a key may be.
-/

namespace Ia32.Yaml

/-- The characters between the words of a line. -/
def isBlank (c : Char) : Bool :=
  c == ' ' || c == '\t'

/-- The characters that end a line. -/
def isBreak (c : Char) : Bool :=
  c == '\n' || c == '\r' || c == '\x85' || c == '\u2028' || c == '\u2029'

/-- The characters that a document may hold. -/
def isAllowed (c : Char) : Bool :=
  let n := c.toNat
  n == 9 || n == 10 || n == 13 || (32 ≤ n && n ≤ 126) || n == 0x85 ||
    (0xA0 ≤ n && n ≤ 0xFFFD) || 0x10000 ≤ n

/-- Whether a line ends in front of these characters. -/
def endsLine : List Char → Bool
  | [] => true
  | c :: _ => isBreak c

/-- Whether a word ends in front of these characters. -/
def endsWord : List Char → Bool
  | [] => true
  | c :: _ => isBlank c || isBreak c

/-- A place in a text: the characters behind it, the number of bytes in front of
it, its line and its column. -/
structure Source where
  rest : List Char
  offset : Nat := 0
  line : Nat := 0
  column : Nat := 0

namespace Source

/-- The place that many characters further on the same line. -/
def advance (s : Source) (count : Nat) : Source :=
  { s with
    rest := s.rest.drop count
    offset := (s.rest.take count).foldl (fun n c => n + c.utf8Size) s.offset
    column := s.column + count }

/-- The longest run of characters of a class, and the place behind it. -/
def span (s : Source) (p : Char → Bool) : List Char × Source :=
  let run := s.rest.takeWhile p
  (run, s.advance run.length)

/-- The place behind the longest run of characters of a class. -/
def skip (s : Source) (p : Char → Bool) : Source :=
  (s.span p).2

/-- A line break as a character of the text, and the place behind it. A carriage
return and the line feed behind it are one break. All breaks read as line feeds,
except the separators of lines and of paragraphs, which read as themselves. -/
def break? (s : Source) : Option (Char × Source) :=
  match s.rest with
  | '\r' :: '\n' :: rest => some ('\n', ⟨rest, s.offset + 2, s.line + 1, 0⟩)
  | c :: rest =>
      if isBreak c then
        let text := if c == '\u2028' || c == '\u2029' then c else '\n'
        some (text, ⟨rest, s.offset + c.utf8Size, s.line + 1, 0⟩)
      else none
  | [] => none

/-- The place behind a line break, if there is one here. -/
def skipBreak (s : Source) : Source :=
  match s.break? with
  | some (_, after) => after
  | none => s

/-- The place at the end of the line, if nothing but blanks and a comment is in
front of it. -/
def lineEnd? (s : Source) : Option Source :=
  let s := s.skip isBlank
  let s := if s.rest.head? == some '#' then s.skip (!isBreak ·) else s
  if endsLine s.rest then some s else none

/-- Whether a line starts here with a character three times over, as a word. -/
def startsWithMark (s : Source) (c : Char) : Bool :=
  s.column == 0 && s.rest.take 3 == [c, c, c] && endsWord (s.rest.drop 3)

/-- Whether the start or the end of a document is marked here. -/
def atMark (s : Source) : Bool :=
  s.startsWithMark '-' || s.startsWithMark '.'

end Source

end Ia32.Yaml
